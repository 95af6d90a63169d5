import Mathlib.Data.List.TakeWhile
import Nsmt.Lib.YamlBlock

/-!
# A reader of block mappings

It goes through the lines once and splits them at their keys; values are plain
scalars, sequences and mappings between brackets. `readBlock_reads` says that it
does what is expected of a reader.
-/

namespace Nsmt.Lib.YamlBlock

-- ---------------------------------------------------------------------------
-- The reader
-- ---------------------------------------------------------------------------

/-- Null, the booleans, and numbers without a sign; else a string. -/
def coreScalar (t : Text) : Yaml :=
  if t ∈ ["null".toList, "~".toList] then .null
  else if t = "true".toList then .bool true
  else if t = "false".toList then .bool false
  else if t.all Char.isDigit then .number t
  else .string t

def splitKey : Text → Option (Text × Text)
  | [] => none
  | c :: rest =>
    if c = ':' ∧ rest.head?.all isBlank then some ([], rest)
    else (splitKey rest).map fun p => (c :: p.1, p.2)

def dropComment : Text → Text
  | [] => []
  | c :: rest => if isBlank c ∧ rest.head? = some '#' then [] else c :: dropComment rest

def trimBlanks (t : Text) : Text := ((t.dropWhile isBlank).reverse.dropWhile isBlank).reverse

/-- The parts between commas. -/
def flowParts (t : Text) : List Text := if t = [] then [] else (t.splitOn ',').map trimBlanks

def readFlow (t : Text) : Option Yaml :=
  match t.head? with
  | some '[' => some (.sequence ((flowParts (trimBlanks t.tail.dropLast)).map coreScalar))
  | some '\x7b' => ((flowParts (trimBlanks t.tail.dropLast)).mapM fun part =>
      (splitKey part).map fun p => (coreScalar p.1, coreScalar (trimBlanks p.2))).map .mapping
  | _ => none

def readValue (t : Text) (more : List Text) : Option Yaml :=
  if more ≠ [] then none else if Plain t then some (coreScalar t) else readFlow t

/-- The lines that belong to the entry above them, and the entries. -/
def group : List Text → List Text × List (Text × List Text)
  | [] => ([], [])
  | line :: rest =>
    if line = [] ∨ line.head? = some '#' then group rest
    else if line.head? = some ' ' ∨ line = ['-'] ∨ ['-', ' '] <+: line then
      (line :: (group rest).1, (group rest).2)
    else ([], (line, (group rest).1) :: (group rest).2)

def readEntry (entry : Text × List Text) : Option (Yaml × Yaml) := do
  let (key, rest) ← splitKey entry.1
  let v ← readValue (trimBlanks (dropComment rest)) entry.2
  pure (coreScalar key, v)

def readBlock : YamlReader := fun t => ((group (t.splitOn '\n')).2.mapM readEntry).map .mapping

-- ---------------------------------------------------------------------------
-- Parts of a line
-- ---------------------------------------------------------------------------

section
variable {t key rest : Text}

theorem coreScalar_string {s : Text} (h : coreScalar t = .string s) : s = t := by
  unfold coreScalar at h
  repeat' split at h
  all_goals cases h
  rfl

theorem splitKey_append (h : key.IsChain NoKey) (hends : ∀ c ∈ key.getLast?, c ≠ ':') (hrest : rest.head?.all isBlank) :
    splitKey (key ++ ':' :: rest) = some (key, rest) := by
  induction key with
  | nil => rw [List.nil_append, splitKey, if_pos ⟨rfl, hrest⟩]
  | cons c key ih =>
    have hnot : ¬ (c = ':' ∧ (key ++ ':' :: rest).head?.all isBlank = true) := by
      rintro ⟨rfl, hblank⟩
      cases key with
      | nil => exact hends ':' rfl rfl
      | cons next key =>
        rw [List.isChain_cons_cons] at h
        exact h.1 ⟨rfl, by simpa using hblank⟩
    have hends' : ∀ c ∈ key.getLast?, c ≠ ':' := by
      cases key with
      | nil => exact fun c hc => nomatch hc
      | cons next key => simpa using hends
    rw [List.cons_append, splitKey, if_neg hnot, ih h.tail hends']
    rfl

theorem trimBlanks_eq (hstart : ∀ c ∈ t.head?, isBlank c = false) (hend : ∀ c ∈ t.getLast?, isBlank c = false)
    {front back : Text} (hfront : ∀ c ∈ front, isBlank c = true) (hback : ∀ c ∈ back, isBlank c = true) :
    trimBlanks (front ++ t ++ back) = t := by
  have hdrop {a b : Text} (ha : ∀ c ∈ a, isBlank c = true) (hb : ∀ c ∈ b.head?, isBlank c = false) :
      (a ++ b).dropWhile isBlank = b := by
    rw [List.dropWhile_append_of_pos ha]
    cases b with
    | nil => rfl
    | cons c b => rw [List.dropWhile_cons_of_neg (by simp [hb c rfl])]
  by_cases hnil : t = []
  · have hall : ∀ c ∈ front ++ back, isBlank c = true := fun c hc => (List.mem_append.mp hc).elim (hfront c) (hback c)
    rw [trimBlanks, hnil, List.append_nil, List.dropWhile_eq_nil_iff.mpr hall]
    rfl
  · have hstart' : ∀ c ∈ (t ++ back).head?, isBlank c = false := by
      rwa [List.head?_append_of_ne_nil _ hnil]
    have hback' : ∀ c ∈ back.reverse, isBlank c = true := fun c hc => hback c (List.mem_reverse.mp hc)
    rw [trimBlanks, List.append_assoc, hdrop hfront hstart', List.reverse_append,
      hdrop hback' (by rwa [List.head?_reverse]), List.reverse_reverse]

theorem dropComment_append (h : t.IsChain NoComment) (hends : ∀ c ∈ t.getLast?, isBlank c = false) (rest : Text) :
    dropComment (t ++ rest) = t ++ dropComment rest := by
  induction t with
  | nil => rfl
  | cons c t ih =>
    cases t with
    | nil =>
      have hc : isBlank c = false := hends c rfl
      rw [List.cons_append, dropComment, if_neg (by simp [hc])]
      rfl
    | cons next t =>
      rw [List.isChain_cons_cons] at h
      have hnot : ¬ (isBlank c = true ∧ (next :: t ++ rest).head? = some '#') := fun hboth =>
        h.1 ⟨hboth.1, Option.some.inj hboth.2⟩
      rw [List.cons_append, dropComment, if_neg hnot, ih h.2 (by simpa using hends)]
      rfl

theorem dropComment_spaces (n : Nat) (text : Text) :
    dropComment (List.replicate (n + 1) ' ' ++ '#' :: text) = List.replicate n ' ' := by
  induction n with
  | zero => rfl
  | succ n ih =>
    rw [List.replicate_succ, List.cons_append, dropComment, if_neg (by simp [List.replicate_succ]), ih,
      List.replicate_succ]

/-- Of a comment there are only spaces left. -/
theorem dropComment_comment (h : IsComment t) : ∀ c ∈ dropComment t, isBlank c = true := by
  rcases h.marked with rfl | ⟨n, text, rfl⟩
  · exact List.forall_mem_nil _
  · rw [dropComment_spaces]
    intro c hc
    rw [(List.mem_replicate.mp hc).2]
    rfl

theorem splitKey_line {e : Entry} (h : e.WellFormed) :
    splitKey e.line = some (e.key, (if e.value = [] then [] else ' ' :: e.value) ++ e.comment) := by
  refine splitKey_append h.key.no_key (fun c hc => (h.key.ends c hc).1) ?_
  split
  · rcases h.comment.marked with hnil | ⟨n, text, hcomment⟩
    · rw [hnil]
      rfl
    · rw [hcomment, List.replicate_succ]
      rfl
  · rfl

theorem value_line {e : Entry} (h : e.WellFormed) :
    trimBlanks (dropComment ((if e.value = [] then [] else ' ' :: e.value) ++ e.comment)) = e.value := by
  have hcomment := dropComment_comment h.comment
  split
  · rename_i hnil
    have hnone : ∀ c ∈ ([] : Text), isBlank c = true := List.forall_mem_nil _
    have htrim := trimBlanks_eq h.value.starts h.value.ends hnone hcomment
    rw [hnil] at htrim ⊢
    exact htrim
  · rename_i hne
    have hends : ∀ c ∈ (' ' :: e.value).getLast?, isBlank c = false := by
      rw [List.getLast?_cons_of_ne_nil hne]
      exact h.value.ends
    have hspace : ∀ c ∈ [' '], isBlank c = true := List.forall_mem_singleton.mpr rfl
    rw [dropComment_append h.value.no_comment hends, List.cons_append]
    exact trimBlanks_eq h.value.starts h.value.ends hspace hcomment

-- ---------------------------------------------------------------------------
-- Lines
-- ---------------------------------------------------------------------------

/-- A key begins with none of what makes a line something else. -/
theorem IsKey.not_more (h : IsKey key) (rest : Text) : ¬ (key ++ rest = [] ∨ (key ++ rest).head? = some '#') ∧
    ¬ ((key ++ rest).head? = some ' ' ∨ key ++ rest = ['-'] ∨ ['-', ' '] <+: key ++ rest) := by
  have hstarts := h.starts
  obtain ⟨hdash, -⟩ := h.no_mark
  cases key with
  | nil => cases hstarts
  | cons c key =>
    rw [List.head?_cons] at hdash
    simp only [startsPlain, Bool.and_eq_true, Bool.not_eq_true'] at hstarts
    obtain ⟨⟨hblank, hindicator⟩, -⟩ := hstarts
    refine ⟨?_, ?_⟩
    · rintro (hnil | hmark)
      · cases hnil
      · rw [List.cons_append, List.head?_cons, Option.some.injEq] at hmark
        rw [hmark] at hindicator
        cases hindicator
    · rintro (hspace | heq | hle)
      · rw [List.cons_append, List.head?_cons, Option.some.injEq] at hspace
        rw [hspace] at hblank
        cases hblank
      · exact hdash (by rw [(List.cons.inj heq).1])
      · exact hdash (by rw [(List.cons_prefix_cons.mp hle).1])

theorem group_more {more lines : List Text} (h : ∀ line ∈ more, IsMore line) :
    group (more ++ lines) = (more ++ (group lines).1, (group lines).2) := by
  induction more with
  | nil => rfl
  | cons line more ih =>
    obtain ⟨hline, hmore⟩ := List.forall_mem_cons.mp h
    have hnot : ¬ (line = [] ∨ line.head? = some '#') := by
      rcases hline.below with hspace | rfl | ⟨tail, rfl⟩
      · rintro (rfl | hmark)
        · cases hspace
        · rw [hspace] at hmark
          cases hmark
      · decide
      · simp
    rw [List.cons_append, group, if_neg hnot, if_pos hline.below, ih hmore]
    rfl

theorem group_lines {items : List Item} (h : ∀ item ∈ items, item.WellFormed) :
    group (linesOf items) = ([], (entriesOf items).map fun e => (e.line, e.more)) := by
  induction items with
  | nil => rfl
  | cons item items ih =>
    obtain ⟨hitem, hitems⟩ := List.forall_mem_cons.mp h
    have hlines : linesOf (item :: items) = item.lines ++ linesOf items := rfl
    rw [hlines]
    cases item with
    | comment line =>
      rw [Item.lines, List.singleton_append, group, if_pos (.inr hitem.1), ih hitems]
      rfl
    | entry e =>
      obtain ⟨hnot, hnot'⟩ := hitem.key.not_more (':' :: ((if e.value = [] then [] else ' ' :: e.value) ++ e.comment))
      rw [Item.lines, List.cons_append, group, Entry.line, if_neg hnot, if_neg hnot', group_more hitem.more,
        ih hitems, List.append_nil]
      rfl

-- ---------------------------------------------------------------------------
-- Brackets
-- ---------------------------------------------------------------------------

/-- What can stand between commas. -/
structure IsPart (t : Text) : Prop where
  no_comma : ',' ∉ t
  starts : ∃ c, t.head? = some c ∧ isBlank c = false
  ends : ∀ c ∈ t.getLast?, isBlank c = false

theorem IsPart.ne_nil (h : IsPart t) : t ≠ [] := by
  rintro rfl
  obtain ⟨c, hc, -⟩ := h.starts
  cases hc

theorem IsPart.trimBlanks_eq (h : IsPart t) {front back : Text} (hfront : ∀ c ∈ front, isBlank c = true)
    (hback : ∀ c ∈ back, isBlank c = true) : trimBlanks (front ++ t ++ back) = t := by
  obtain ⟨first, hfirst, hblank⟩ := h.starts
  refine YamlBlock.trimBlanks_eq (fun c hc => ?_) h.ends hfront hback
  rw [hfirst, Option.mem_some_iff] at hc
  exact hc ▸ hblank

theorem flowParts_joinWith {ts : List Text} (h : ∀ t ∈ ts, IsPart t) :
    flowParts (Text.joinWith ", ".toList ts) = ts := by
  cases ts with
  | nil => rfl
  | cons t ts =>
    obtain ⟨ht, hts⟩ := List.forall_mem_cons.mp h
    have hcomma : Text.joinWith ", ".toList (t :: ts) = Text.joinWith [','] (t :: ts.map (' ' :: ·)) := by
      rw [Text.joinWith_cons, Text.joinWith_cons, List.flatMap_map]
      rfl
    have hsplit : (Text.joinWith [','] (t :: ts.map (' ' :: ·))).splitOn ',' = t :: ts.map (' ' :: ·) := by
      refine List.splitOn_intercalate ',' (List.forall_mem_cons.mpr ⟨ht.no_comma, ?_⟩) (by simp)
      intro part hpart
      obtain ⟨later, hlater, rfl⟩ := List.mem_map.mp hpart
      simp [(hts later hlater).no_comma]
    have hne : Text.joinWith [','] (t :: ts.map (' ' :: ·)) ≠ [] := by
      rw [Text.joinWith_cons]
      exact List.append_ne_nil_of_left_ne_nil ht.ne_nil _
    have hnone : ∀ c ∈ ([] : Text), isBlank c = true := List.forall_mem_nil _
    have hspace : ∀ c ∈ [' '], isBlank c = true := List.forall_mem_singleton.mpr rfl
    rw [hcomma, flowParts, if_neg hne, hsplit, List.map_cons, List.map_map]
    have hfirst := ht.trimBlanks_eq hnone hnone
    rw [List.nil_append, List.append_nil] at hfirst
    refine congrArg₂ List.cons hfirst ?_
    conv_rhs => rw [← List.map_id ts]
    refine List.map_congr_left fun later hlater => ?_
    have htrim := (hts later hlater).trimBlanks_eq hspace hnone
    rwa [List.append_nil] at htrim

/-- Between brackets only what stands around the parts is taken off. -/
theorem flowParts_between {ts : List Text} (hne : ts ≠ []) (h : ∀ t ∈ ts, IsPart t) {front back : Text}
    (hfront : ∀ c ∈ front, isBlank c = true) (hback : ∀ c ∈ back, isBlank c = true) :
    flowParts (trimBlanks (front ++ Text.joinWith ", ".toList ts ++ back)) = ts := by
  rw [trimBlanks_eq ?_ ?_ hfront hback, flowParts_joinWith h]
  · obtain ⟨t, ts, rfl⟩ := List.exists_cons_of_ne_nil hne
    have ht := h t (List.mem_cons_self ..)
    obtain ⟨first, hfirst, hblank⟩ := ht.starts
    rw [Text.joinWith_cons, List.head?_append_of_ne_nil _ ht.ne_nil, hfirst]
    intro c hc
    exact Option.mem_some_iff.mp hc ▸ hblank
  · obtain ⟨front, last, rfl⟩ := (List.eq_nil_or_concat ts).resolve_left hne
    rw [List.concat_eq_append] at h ⊢
    have hlast := h last (by simp)
    cases front with
    | nil => simpa [Text.joinWith] using hlast.ends
    | cons t front =>
      rw [List.cons_append, Text.joinWith_cons, List.flatMap_append, List.flatMap_singleton, ← List.append_assoc,
        ← List.append_assoc, List.getLast?_append_of_ne_nil _ hlast.ne_nil]
      exact hlast.ends

theorem FlowPlain.isPart (h : FlowPlain t) : IsPart t where
  no_comma := fun hmem => by
    have hcomma := h.no_indicator ',' hmem
    cases hcomma
  starts := by
    have hstarts := h.starts
    cases t with
    | nil => cases hstarts
    | cons c t =>
      simp only [startsPlain, Bool.and_eq_true, Bool.not_eq_true'] at hstarts
      exact ⟨c, rfl, hstarts.1.1⟩
  ends := fun c hc => (h.ends c hc).2

theorem isPart_flowField {f : Text × Text} (h : FlowPlain f.1) (h' : FlowPlain f.2) : IsPart (flowField f) where
  no_comma := by
    unfold flowField
    simp [h.isPart.no_comma, h'.isPart.no_comma]
  starts := by
    obtain ⟨c, hc, hblank⟩ := h.isPart.starts
    refine ⟨c, ?_, hblank⟩
    rw [flowField, List.append_assoc, List.head?_append_of_ne_nil _ h.isPart.ne_nil, hc]
  ends := by
    rw [flowField, List.getLast?_append_of_ne_nil _ h'.isPart.ne_nil]
    exact h'.isPart.ends

theorem readFlow_flowSeq {items : List Text} (h : ∀ t ∈ items, FlowPlain t) :
    readFlow (flowSeq items) = some (.sequence (items.map coreScalar)) := by
  have hinner : (flowSeq items).tail.dropLast = Text.joinWith ", ".toList items := by
    simp [flowSeq]
  have hnone : ∀ c ∈ ([] : Text), isBlank c = true := List.forall_mem_nil _
  have hparts : flowParts (trimBlanks (Text.joinWith ", ".toList items)) = items := by
    by_cases hne : items = []
    · rw [hne]
      rfl
    · have hbetween := flowParts_between hne (fun t ht => (h t ht).isPart) hnone hnone
      rwa [List.nil_append, List.append_nil] at hbetween
  have hhead : (flowSeq items).head? = some '[' := rfl
  simp only [readFlow, hhead, hinner, hparts]

theorem mapM_some {α β : Type} {f : α → Option β} {g : α → β} {l : List α} (h : ∀ x ∈ l, f x = some (g x)) :
    l.mapM f = some (l.map g) := by
  induction l with
  | nil => rfl
  | cons x l ih =>
    obtain ⟨hx, hl⟩ := List.forall_mem_cons.mp h
    rw [List.mapM_cons, hx, ih hl]
    rfl

theorem readField {f : Text × Text} (h : FlowPlain f.1) (h' : FlowPlain f.2) :
    ((splitKey (flowField f)).map fun p => (coreScalar p.1, coreScalar (trimBlanks p.2))) =
      some (coreScalar f.1, coreScalar f.2) := by
  have hfield : flowField f = f.1 ++ ':' :: (' ' :: f.2) := by simp [flowField]
  have hspace : ∀ c ∈ [' '], isBlank c = true := List.forall_mem_singleton.mpr rfl
  have hnone : ∀ c ∈ ([] : Text), isBlank c = true := List.forall_mem_nil _
  have htrim := h'.isPart.trimBlanks_eq hspace hnone
  rw [List.append_nil, List.singleton_append] at htrim
  rw [hfield, splitKey_append h.no_key (fun c hc => (h.ends c hc).1) rfl, Option.map_some, htrim]

theorem readFlow_flowMap {fields : List (Text × Text)} (hne : fields ≠ [])
    (h : ∀ f ∈ fields, FlowPlain f.1 ∧ FlowPlain f.2) :
    readFlow (flowMap fields) = some (.mapping (fields.map fun f => (coreScalar f.1, coreScalar f.2))) := by
  have hmap : flowMap fields =
      '\x7b' :: (" ".toList ++ Text.joinWith ", ".toList (fields.map flowField) ++ " ".toList ++ ['\x7d']) := by
    simp [flowMap]
  have hinner : (flowMap fields).tail.dropLast =
      " ".toList ++ Text.joinWith ", ".toList (fields.map flowField) ++ " ".toList := by
    rw [hmap, List.tail_cons, List.dropLast_concat]
  have hspace : ∀ c ∈ " ".toList, isBlank c = true := List.forall_mem_singleton.mpr rfl
  have hall : ∀ t ∈ fields.map flowField, IsPart t := by
    intro t ht
    obtain ⟨f, hf, rfl⟩ := List.mem_map.mp ht
    exact isPart_flowField (h f hf).1 (h f hf).2
  have hparts := flowParts_between (by simpa using hne) hall hspace hspace
  have hhead : (flowMap fields).head? = some '\x7b' := rfl
  simp only [readFlow, hhead, hinner, hparts, List.mapM_map, Function.comp_def]
  rw [mapM_some fun f hf => readField (h f hf).1 (h f hf).2]
  rfl

end

-- ---------------------------------------------------------------------------
-- What is read
-- ---------------------------------------------------------------------------

theorem readEntry_line {e : Entry} (h : e.WellFormed) (hkey : coreScalar e.key = .string e.key) :
    readEntry (e.line, e.more) = (readValue e.value e.more).map fun v => (.string e.key, v) := by
  simp only [readEntry, splitKey_line h, value_line h, hkey, Option.bind_eq_bind, Option.bind_some]
  cases readValue e.value e.more <;> rfl

theorem not_plain_of_indicator {t : Text} {c : Char} (hhead : t.head? = some c) (h : indicators.contains c = true) :
    ¬ Plain t := by
  intro hplain
  obtain ⟨first, rest, rfl, -, hfirst⟩ := hplain.head
  rw [Option.some.inj hhead, h] at hfirst
  cases hfirst

theorem mapM_congr_mem {α β : Type} {f g : α → Option β} {l : List α} (h : ∀ x ∈ l, f x = g x) :
    l.mapM f = l.mapM g := by
  induction l with
  | nil => rfl
  | cons x l ih =>
    obtain ⟨hx, hl⟩ := List.forall_mem_cons.mp h
    rw [List.mapM_cons, List.mapM_cons, hx, ih hl]

/-- `readBlock` is a reader, as far as it is known what a reader does. -/
theorem readBlock_reads : Reads readBlock coreScalar readValue where
  mapping := by
    intro items fields hblock hfields
    have hlines := linesOf_ne_nil hblock.ne_nil
    have hsplit : (Text.ofLines (linesOf items)).splitOn '\n' = [] :: linesOf items := by
      rw [Text.ofLines_eq hlines, List.splitOn_cons_eq_if_modifyHead, if_pos (beq_self_eq_true _)]
      refine congrArg _ (List.splitOn_intercalate '\n' (fun line hline => ?_) hlines)
      exact no_newline (isLine_of_mem hblock.wellFormed line hline).printable
    have hgroup : group ([] :: linesOf items) = group (linesOf items) := by
      rw [group, if_pos (.inl rfl)]
    rw [readBlock, hsplit, hgroup, group_lines hblock.wellFormed, List.mapM_map]
    rw [fieldsOf] at hfields
    rw [mapM_congr_mem fun e he => ?_, hfields]
    · rfl
    · obtain ⟨item, hitem, hentry⟩ := List.mem_filterMap.mp he
      have hwell := hblock.wellFormed item hitem
      cases item with
      | entry e' =>
        cases hentry
        exact readEntry_line hwell (hblock.keys e he)
      | comment line => cases hentry
  plain := fun t ht => by rw [readValue, if_neg (by simp), if_pos ht]
  flowSeq := fun items hitems => by
    rw [readValue, if_neg (by simp), if_neg (not_plain_of_indicator rfl rfl), readFlow_flowSeq hitems]
  flowMap := fun fields hne _ hfields => by
    rw [readValue, if_neg (by simp), if_neg (not_plain_of_indicator rfl rfl),
      readFlow_flowMap hne fun f hf => ⟨(hfields f hf).1, (hfields f hf).2.1⟩]
  scalar_string := fun _ _ => coreScalar_string

end Nsmt.Lib.YamlBlock
