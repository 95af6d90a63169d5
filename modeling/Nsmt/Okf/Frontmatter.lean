import Nsmt.Lib.Bytes
import Nsmt.Lib.YamlBlock
import Nsmt.Okf.Document

/-!
# Documents with block mappings

What `parse_doc` and `edit` see of a document whose frontmatter is a block mapping,
and what `add` and `edit` write of one.
-/

namespace Nsmt.Okf

open Nsmt.Lib Nsmt.Lib.YamlBlock

/-- A document with these lines between its fences. -/
def docOf (lines : List Text) (after : Text) : Text :=
  "---".toList ++ (Text.ofLines lines ++ endMark ++ after)

section
variable {lines : List Text} {after : Text}

theorem cut_docOf (h : ∀ line ∈ lines, IsLine line) :
    Text.cut endMark (Text.ofLines lines ++ endMark ++ after) = some (Text.ofLines lines, after) := by
  have hmark : endMark = '\n' :: "---".toList := rfl
  rw [hmark]
  exact Text.cut_at (by decide) fun line hline => ⟨no_newline (h line hline).printable, (h line hline).no_mark⟩

theorem strip_docOf : Text.strip "---".toList (docOf lines after) = some (Text.ofLines lines ++ endMark ++ after) := by
  rw [Text.strip, docOf, if_pos (List.prefix_append ..), List.drop_left]

theorem parseDoc_docOf (yaml : YamlReader) (h : ∀ line ∈ lines, IsLine line) :
    parseDoc yaml (docOf lines after) =
      (yaml (Text.ofLines lines)).map fun v => (v, Text.dropStart '\n' after) := by
  have hbom : Text.strip [bom] (docOf lines after) = none := by
    rw [Text.strip, if_neg]
    rintro ⟨tail, heq⟩
    have hfirst : bom = '-' := (List.cons.inj heq).1
    exact absurd hfirst (by decide)
  simp only [parseDoc, hbom, Option.getD_none, strip_docOf, cut_docOf h, Option.bind_eq_bind, Option.bind_some]
  cases yaml (Text.ofLines lines) <;> rfl

theorem rawLines_docOf (hne : lines ≠ []) (h : ∀ line ∈ lines, IsLine line) :
    rawLines (docOf lines after) = some lines := by
  have hdrop : Text.dropStart '\n' (Text.ofLines lines) = Text.joinWith "\n".toList lines := by
    rw [Text.ofLines_eq hne]
    obtain ⟨line, others, rfl⟩ := List.exists_cons_of_ne_nil hne
    obtain ⟨c, rest, hline⟩ := List.exists_cons_of_ne_nil (h line (List.mem_cons_self ..)).ne_nil
    have hnewline := no_newline (h line (List.mem_cons_self ..)).printable
    rw [hline, List.mem_cons, not_or] at hnewline
    rw [Text.joinWith_cons, hline, Text.dropStart, List.dropWhile_cons_of_pos (by simp), List.cons_append,
      List.dropWhile_cons_of_neg (by simpa using Ne.symm hnewline.1)]
  rw [rawLines, strip_docOf, Option.map_some, cut_docOf h]
  simp only [Option.map_some, Option.getD_some, hdrop]
  rw [Text.lines_joinWith hne]
  · exact fun line hline => ⟨no_newline (h line hline).printable, no_return (h line hline).printable⟩
  · intro hlast
    exact (h [] (List.mem_of_getLast? hlast)).ne_nil rfl

end

-- ---------------------------------------------------------------------------
-- Fields
-- ---------------------------------------------------------------------------

section
variable {value : Text → List Text → Option Yaml} {items : List Item} {fields : List (Yaml × Yaml)} {key : Text}

/-- What is found under a key is the value of its entry. -/
theorem get_fields (h : fieldsOf value items = some fields) :
    (Yaml.mapping fields).get key =
      ((entriesOf items).find? fun e => e.key = key).bind fun e => value e.value e.more := by
  unfold fieldsOf at h
  generalize entriesOf items = entries at h
  induction entries generalizing fields with
  | nil =>
    cases h
    rfl
  | cons e entries ih =>
    rw [List.mapM_cons] at h
    obtain ⟨field, hfield, h⟩ := Option.bind_eq_some_iff.mp h
    obtain ⟨rest, hrest, h⟩ := Option.bind_eq_some_iff.mp h
    obtain ⟨v, hv, rfl⟩ := Option.map_eq_some_iff.mp hfield
    cases h
    rw [Yaml.get_cons, ih hrest]
    by_cases hkey : e.key = key
    · rw [if_pos (by simp [Yaml.asStr, hkey]), List.find?_cons_of_pos (by simp [hkey])]
      exact hv.symm
    · rw [if_neg (by simp [Yaml.asStr, hkey]), List.find?_cons_of_neg (by simp [hkey])]

theorem get_entry (h : fieldsOf value items = some fields) (hnodup : ((entriesOf items).map Entry.key).Nodup)
    {e : Entry} (he : e ∈ entriesOf items) : (Yaml.mapping fields).get e.key = value e.value e.more := by
  have hfind : ((entriesOf items).find? fun e' => e'.key = e.key) = some e := by
    generalize entriesOf items = entries at hnodup he
    induction entries with
    | nil => cases he
    | cons first entries ih =>
      obtain ⟨hfirst, hnodup⟩ := List.nodup_cons.mp hnodup
      rcases List.mem_cons.mp he with rfl | he
      · rw [List.find?_cons_of_pos (by simp)]
      · have hne : first.key ≠ e.key := fun heq => hfirst (heq ▸ List.mem_map_of_mem he)
        rw [List.find?_cons_of_neg (by simp [hne]), ih hnodup he]
  rw [get_fields h, hfind, Option.bind_some]

theorem get_absent (h : fieldsOf value items = some fields) (hkey : ∀ e ∈ entriesOf items, e.key ≠ key) :
    (Yaml.mapping fields).get key = none := by
  have hfind : ((entriesOf items).find? fun e => e.key = key) = none :=
    List.find?_eq_none.mpr fun e he => by simp [hkey e he]
  rw [get_fields h, hfind, Option.bind_none]

theorem value_of_fieldsOf (h : fieldsOf value items = some fields) {e : Entry} (he : e ∈ entriesOf items) :
    ∃ v, value e.value e.more = some v := by
  unfold fieldsOf at h
  generalize entriesOf items = entries at h he
  induction entries generalizing fields with
  | nil => cases he
  | cons first entries ih =>
    rw [List.mapM_cons] at h
    obtain ⟨field, hfield, h⟩ := Option.bind_eq_some_iff.mp h
    obtain ⟨rest, hrest, -⟩ := Option.bind_eq_some_iff.mp h
    rcases List.mem_cons.mp he with rfl | he
    · obtain ⟨v, hv, -⟩ := Option.map_eq_some_iff.mp hfield
      exact ⟨v, hv⟩
    · exact ih hrest he

/-- Values are found one by one. -/
theorem fieldsOf_eq_some (h : ∀ e ∈ entriesOf items, ∃ v, value e.value e.more = some v) :
    ∃ fields, fieldsOf value items = some fields := by
  unfold fieldsOf
  generalize entriesOf items = entries at h
  induction entries with
  | nil => exact ⟨[], rfl⟩
  | cons e entries ih =>
    obtain ⟨⟨v, hv⟩, hothers⟩ := List.forall_mem_cons.mp h
    obtain ⟨rest, hrest⟩ := ih hothers
    exact ⟨(.string e.key, v) :: rest, by rw [List.mapM_cons, hv, hrest]; rfl⟩

end

-- ---------------------------------------------------------------------------
-- What is written
-- ---------------------------------------------------------------------------

theorem flowList_eq (items : List Text) : flowList items = flowSeq items := by rw [flowList, flowSeq]

theorem generated_eq (by_ now : Text) :
    generated by_ now = flowMap [("by".toList, by_), ("at".toList, now)] := by
  have hby : "\x7b by: ".toList = "\x7b ".toList ++ ("by".toList ++ ": ".toList) := by decide
  have hat : ", at: ".toList = ", ".toList ++ ("at".toList ++ ": ".toList) := by decide
  have hjoin : Text.joinWith ", ".toList [flowField ("by".toList, by_), flowField ("at".toList, now)] =
      "by".toList ++ ": ".toList ++ by_ ++ (", ".toList ++ ("at".toList ++ ": ".toList ++ now)) := by
    rw [Text.joinWith_cons, List.flatMap_singleton]
    rfl
  have hparts (a b c d e f g : Text) (ha : a = c ++ d) (hb : b = e ++ f) :
      a ++ by_ ++ b ++ now ++ g = c ++ (d ++ by_ ++ (e ++ (f ++ now))) ++ g := by
    simp only [ha, hb, List.append_assoc]
  rw [flowMap, List.map_cons, List.map_singleton, hjoin]
  exact hparts _ _ _ _ _ _ _ hby hat

-- ---------------------------------------------------------------------------
-- Entries
-- ---------------------------------------------------------------------------

def fieldNames : List String :=
  ["type", "title", "description", "resource", "tags", "status", "stale_after", "generated", "by", "at"]

/-- The names of fields are strings to the reader. -/
def NamesAreStrings (scalar : Text → Yaml) : Prop := ∀ key ∈ fieldNames, scalar key.toList = .string key.toList

/-- A value on one line that the reader can make something of. -/
def Readable (value : Text → List Text → Option Yaml) (t : Text) : Prop :=
  IsValue t ∧ t ≠ [] ∧ ∃ v, value t [] = some v

def fieldEntry (key : String) (val : Text) : Entry := { key := key.toList, value := val, comment := [], more := [] }

theorem asStr_iff {v : Yaml} {t : Text} : v.asStr = some t ↔ v = .string t := by
  cases v <;> simp [Yaml.asStr]

theorem flowSeq_ne_nil (items : List Text) : flowSeq items ≠ [] := by simp [flowSeq]

theorem flowMap_ne_nil (fields : List (Text × Text)) : flowMap fields ≠ [] := by simp [flowMap]

theorem isKey_fieldName : ∀ key ∈ fieldNames, IsKey key.toList := by
  have hall : ∀ key ∈ fieldNames, Plain key.toList ∧
      (key.toList.head? ≠ some '-' ∧ key.toList.head? ≠ some '.') ∧ key.toList.length < 1024 := by decide
  exact fun key hkey => ⟨(hall key hkey).1, (hall key hkey).2.1, (hall key hkey).2.2⟩

theorem fieldEntry_wellFormed {key : String} (hkey : key ∈ fieldNames) {val : Text} (hval : IsValue val) :
    (fieldEntry key val).WellFormed where
  key := isKey_fieldName key hkey
  value := hval
  comment := ⟨List.forall_mem_nil _, .inl rfl⟩
  more := List.forall_mem_nil _

/-- Digits, and what stands between the numbers of a time. -/
def timeChars : Text := "0123456789-:TZ".toList

theorem timeChars_safe : ∀ c ∈ timeChars, isBlank c = false ∧ indicators.contains c = false ∧
    isPrintable c = true ∧ c ≠ '?' ∧ flowIndicators.contains c = false := by decide

theorem mem_timeChars_of_isDigit {c : Char} (h : c.isDigit = true) : c ∈ timeChars := by
  have hdigits : ∀ n < 58, 48 ≤ n → Char.ofNat n ∈ timeChars := by decide
  simp only [Char.isDigit, Bool.and_eq_true, decide_eq_true_eq] at h
  rw [← Char.ofNat_toNat c]
  exact hdigits c.toNat (Nat.lt_succ_of_le h.2) h.1

/-- A text of such characters is a plain scalar, in brackets too. -/
theorem flowPlain_of_timeChars {c next : Char} {rest : Text} (h : ∀ x ∈ c :: next :: rest, x ∈ timeChars)
    (hstart : c ≠ ':') (hend : ∀ x ∈ (next :: rest).getLast?, x ≠ ':') : FlowPlain (c :: next :: rest) := by
  have hsafe : ∀ x ∈ c :: next :: rest, _ := fun x hx => timeChars_safe x (h x hx)
  obtain ⟨hblank, hindicator, hprintable, hquestion, hflow⟩ := hsafe c (by simp)
  obtain ⟨hnext, -⟩ := hsafe next (by simp)
  have hchain {R : Char → Char → Prop} (hR : ∀ a b, isBlank a = false → isBlank b = false → b ≠ '?' → R a b) :
      (c :: next :: rest).IsChain R :=
    (List.pairwise_of_forall_mem_list fun a ha b hb =>
      hR a b (hsafe a ha).1 (hsafe b hb).1 (hsafe b hb).2.2.2.1).isChain
  refine ⟨⟨?_, fun x hx => (hsafe x hx).2.2.1, hchain ?_, hchain ?_, ?_⟩, fun x hx => (hsafe x hx).2.2.2.2,
    hchain ?_, ?_⟩
  · rw [startsPlain, hblank, hindicator]
    simp [hnext]
  · exact fun a b ha _ _ hboth => by rw [ha] at hboth; cases hboth.1
  · exact fun a b _ hb _ hboth => by rw [hb] at hboth; cases hboth.2
  · intro x hx
    rw [List.getLast?_cons_cons] at hx
    exact ⟨hend x hx, (hsafe x (List.mem_cons_of_mem c (List.mem_of_getLast? hx))).1⟩
  · exact fun a b _ _ hb hboth => hb hboth.2
  · intro x hx
    rw [← Option.mem_some_iff.mp hx]
    exact ⟨hquestion, hstart⟩

theorem padded_chars (width : Nat) (n : Int) : ∀ c ∈ padded width n, c ∈ timeChars ∧ c ≠ ':' := by
  have hdigit : ∀ c, c.isDigit = true → c ≠ ':' := by
    rintro c hc rfl
    exact absurd hc (by decide)
  have hleftpad (w : Nat) : ∀ c ∈ (toString n.natAbs).toList.leftpad w '0', c ∈ timeChars ∧ c ≠ ':' := by
    intro c hc
    rw [List.leftpad, List.mem_append] at hc
    rcases hc with hc | hc
    · rw [(List.mem_replicate.mp hc).2]
      decide
    · have hc := isDigit_of_mem_toString hc
      exact ⟨mem_timeChars_of_isDigit hc, hdigit c hc⟩
  unfold padded
  split
  · exact List.forall_mem_cons.mpr ⟨by decide, hleftpad _⟩
  · exact hleftpad _

theorem length_leftpad (width : Nat) (t : Text) : width ≤ (t.leftpad width '0').length := by
  rw [List.leftpad, List.length_append, List.length_replicate]
  omega

theorem padded_long {width : Nat} (h : 2 ≤ width) (n : Int) : ∃ a b rest, padded width n = a :: b :: rest := by
  have hlength : 2 ≤ (padded width n).length := by
    unfold padded
    split
    · have hpad := length_leftpad (width - 1) (toString n.natAbs).toList
      rw [List.length_cons]
      omega
    · exact h.trans (length_leftpad width _)
  match padded width n, hlength with
  | a :: b :: rest, _ => exact ⟨a, b, rest, rfl⟩

theorem isoNow_flowPlain (secs : Nat) : FlowPlain (isoNow secs) := by
  obtain ⟨y, mo, d, hdate⟩ : ∃ y mo d, civilFromDays (secs / 86400 : Nat) = (y, mo, d) := ⟨_, _, _, rfl⟩
  have hpadded (width : Nat) (n : Int) : ∀ c ∈ padded width n, c ∈ timeChars := fun c hc => (padded_chars width n c hc).1
  obtain ⟨front, hiso, hfront⟩ : ∃ front, isoNow secs = padded 4 y ++ (front ++ "Z".toList) ∧
      ∀ c ∈ front, c ∈ timeChars := by
    refine ⟨"-".toList ++ padded 2 mo ++ "-".toList ++ padded 2 d ++ "T".toList ++
      padded 2 (secs % 86400 / 3600 : Nat) ++ ":".toList ++ padded 2 (secs % 86400 % 3600 / 60 : Nat) ++ ":".toList ++
      padded 2 (secs % 86400 % 60 : Nat), ?_, ?_⟩
    · simp only [isoNow, hdate, List.append_assoc]
    · simp only [List.forall_mem_append]
      exact ⟨⟨⟨⟨⟨⟨⟨⟨⟨by decide, hpadded 2 mo⟩, by decide⟩, hpadded 2 d⟩, by decide⟩, hpadded 2 _⟩, by decide⟩,
        hpadded 2 _⟩, by decide⟩, hpadded 2 _⟩
  have hyear := padded_chars 4 y
  obtain ⟨c, next, rest, hlong⟩ := padded_long (by decide : 2 ≤ 4) y
  rw [hlong] at hyear hiso
  rw [hiso]
  refine flowPlain_of_timeChars ?_ (hyear c (by simp)).2 fun x hx => ?_
  · have hall : ∀ x ∈ c :: next :: rest ++ (front ++ "Z".toList), x ∈ timeChars := by
      rw [List.forall_mem_append, List.forall_mem_append]
      exact ⟨fun x hx => (hyear x hx).1, hfront, by decide⟩
    exact hall
  · have hlast : (next :: (rest ++ (front ++ "Z".toList))).getLast? = some 'Z' := by
      have hconcat : next :: (rest ++ (front ++ "Z".toList)) = (next :: rest ++ front) ++ ['Z'] := by simp
      rw [hconcat, List.getLast?_concat]
    have hx := hlast ▸ hx
    rw [← Option.mem_some_iff.mp hx]
    decide

section
variable {yaml : YamlReader} {scalar : Text → Yaml} {value : Text → List Text → Option Yaml} {now : Text}

theorem readable_plain (hreads : Reads yaml scalar value) {t : Text} (h : Plain t) : Readable value t :=
  ⟨h.isValue, h.ne_nil, scalar t, hreads.plain t h⟩

theorem readable_tags (hreads : Reads yaml scalar value) {items : List Text} (h : ∀ t ∈ items, FlowPlain t) :
    Readable value (flowList items) := by
  rw [flowList_eq]
  exact ⟨isValue_flowSeq h, flowSeq_ne_nil _, _, hreads.flowSeq items h⟩

theorem readable_generated (hreads : Reads yaml scalar value) (hnames : NamesAreStrings scalar) {by_ : Text}
    (hby : FlowPlain by_) (hnow : FlowPlain now) : Readable value (generated by_ now) ∧
      value (generated by_ now) [] = some (.mapping [(.string "by".toList, scalar by_), (.string "at".toList, scalar now)]) := by
  have hkeys : FlowPlain "by".toList ∧ FlowPlain "at".toList := by decide
  have hfields : ∀ f ∈ [("by".toList, by_), ("at".toList, now)],
      FlowPlain f.1 ∧ FlowPlain f.2 ∧ scalar f.1 = .string f.1 ∧ f.1.length < 1024 := by
    simp only [List.forall_mem_cons, List.not_mem_nil, false_imp_iff, implies_true, and_true]
    exact ⟨⟨hkeys.1, hby, hnames "by" (by decide), by decide⟩, hkeys.2, hnow, hnames "at" (by decide), by decide⟩
  have hne : [("by".toList, by_), ("at".toList, now)] ≠ [] := List.cons_ne_nil _ _
  have hnodup : ([("by".toList, by_), ("at".toList, now)].map Prod.fst).Nodup :=
    (by decide : ["by".toList, "at".toList].Nodup)
  have hmap := hreads.flowMap _ hne hnodup hfields
  rw [List.map_cons, List.map_singleton, hnames "by" (by decide), hnames "at" (by decide)] at hmap
  rw [generated_eq]
  exact ⟨⟨isValue_flowMap hne fun f hf => ⟨(hfields f hf).1, (hfields f hf).2.1⟩, flowMap_ne_nil _, _, hmap⟩, hmap⟩

end

end Nsmt.Okf
