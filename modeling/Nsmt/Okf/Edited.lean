import Mathlib.Data.List.DropRight
import Nsmt.Okf.Conformance

/-!
# What editing changes

`edit` replaces for each field the first line that looks like the field's, or adds a
line. `edited_only` says for which lines the reader then finds what was asked for
and all else as it was.
-/

namespace Nsmt.Okf

open Nsmt.Lib Nsmt.Lib.YamlBlock Nsmt.Lib.Utf8 Nsmt.Lib.UnixPaths Nsmt.Lib.Dirs

/-- From above, the first line that is taken for the key's is that of its entry, with
nothing but the value behind it and nothing below it. -/
inductive OwnLine (key : String) : List Item → Prop
  | absent : OwnLine key []
  | own {e : Entry} {items : List Item} (hkey : e.key = key.toList) (hmark : '#' ∉ e.line) (hmore : e.more = []) :
      OwnLine key (.entry e :: items)
  | later {item : Item} {items : List Item} (hnone : ∀ line ∈ item.lines, isLineOf key line = false)
      (hitems : OwnLine key items) : OwnLine key (item :: items)

def byOf (v : Yaml) : Option Yaml := (v.get "generated".toList).bind (Yaml.get "by".toList)

/-- The fields that the options ask for, with what is to be read in them. -/
def requested (opts : Opts) : List (String × Yaml) :=
  let text (key opt : String) := (opts.given opt).toList.map fun v => (key, Yaml.string v)
  text "type" "type" ++ text "title" "title" ++ text "description" "description" ++
    text "resource" "resource" ++
    ((opts.given "tags").toList.map fun v => ("tags", .sequence ((Text.entries v).map .string))) ++
    text "status" "status" ++ text "stale_after" "stale-after"

def editedKeys (opts : Opts) : List String := (requested opts).map Prod.fst ++ ["generated"]

/-- What was asked for is read, who generated the concept is as before, and so is every
other field. -/
structure EditedOnly (opts : Opts) (before after : Yaml) : Prop where
  set : ∀ r ∈ requested opts, after.get r.1.toList = some r.2
  by_ : ∀ v, byOf before = some v → byOf after = some v
  others : ∀ key, (∀ edited ∈ editedKeys opts, edited.toList ≠ key) → after.get key = before.get key

def textOptions : List String := ["type", "title", "description", "resource", "status", "stale-after"]

/-- The lines of all edited fields are their own, the values are strings to the reader,
and so is who generated the concept. -/
structure EditsCleanly (scalar : Text → Yaml) (opts : Opts) (items : List Item) (before : Yaml) : Prop where
  own : ∀ key ∈ editedKeys opts, OwnLine key items
  text : ∀ opt ∈ textOptions, ∀ t, opts.given opt = some t → scalar t = .string t
  tags : ∀ t, opts.given "tags" = some t → ∀ tag ∈ Text.entries t, FlowPlain tag ∧ scalar tag = .string tag
  by_plain : FlowPlain (generatedBy before) ∧ scalar (generatedBy before) = .string (generatedBy before)
  by_text : ∀ v, byOf before = some v → ∃ t, v = .string t

-- ---------------------------------------------------------------------------
-- Lines
-- ---------------------------------------------------------------------------

section
variable {key other : String} {val line : Text} {lines rest : List Text}

theorem setField_nil (hval : val ≠ []) : setField [] (key, val) = [(fieldEntry key val).line] := by
  have hcolon : ": ".toList = [':', ' '] := rfl
  simp [setField, fieldEntry, Entry.line, hval, hcolon]

theorem setField_own (h : isLineOf key line = true) :
    setField (line :: lines) (key, val) = newLine key val line :: lines := by
  simp [setField, List.findIdx?_cons, h]

theorem setField_later (h : isLineOf key line = false) :
    setField (line :: lines) (key, val) = line :: setField lines (key, val) := by
  unfold setField
  rw [List.findIdx?_cons, h]
  cases List.findIdx? (isLineOf key) lines <;> rfl

theorem setField_append (h : ∀ line ∈ lines, isLineOf key line = false) :
    setField (lines ++ rest) (key, val) = lines ++ setField rest (key, val) := by
  induction lines with
  | nil => rfl
  | cons line lines ih =>
    obtain ⟨hline, hlines⟩ := List.forall_mem_cons.mp h
    rw [List.cons_append, setField_later hline, ih hlines, List.cons_append]

theorem starts_fieldName (hkey : key ∈ fieldNames) (rest : Text) :
    ':' ∉ key.toList ∧ (key.toList ++ rest).takeWhile isWhitespace = [] ∧
      Text.trimStart (key.toList ++ rest) = key.toList ++ rest := by
  have hall : ∀ key ∈ fieldNames, ':' ∉ key.toList ∧
      ∃ c ∈ key.toList.head?, isWhitespace c = false := by decide
  obtain ⟨hcolon, c, hc, hblank⟩ := hall key hkey
  obtain ⟨tail, htail⟩ := List.head?_eq_some_iff.mp hc
  refine ⟨hcolon, ?_, ?_⟩
  · rw [htail, List.cons_append, List.takeWhile_cons_of_neg (by simp [hblank])]
  · rw [htail, Text.trimStart, List.cons_append, List.dropWhile_cons_of_neg (by simp [hblank])]

/-- The key of a line is what stands in front of its first colon. -/
theorem isLineOf_line {e : Entry} (hkey : key ∈ fieldNames) (hother : other ∈ fieldNames) (he : e.key = other.toList) :
    isLineOf key e.line = true ↔ key = other := by
  have hcut {k : Text} {tail : Text} (hk : ':' ∉ k) : (k ++ ':' :: tail).takeWhile (· ≠ ':') = k := by
    rw [List.takeWhile_append_of_pos fun c hc => by simpa using ne_of_mem_of_not_mem hc hk]
    simp
  have hcolon : ":".toList = [':'] := rfl
  rw [isLineOf, Entry.line, he, (starts_fieldName hother _).2.2, decide_eq_true_eq, hcolon]
  constructor
  · rintro ⟨tail, heq⟩
    have hkeys := congrArg (List.takeWhile (· ≠ ':')) heq
    rw [List.append_assoc, List.singleton_append, hcut (starts_fieldName hkey []).1,
      hcut (starts_fieldName hother []).1] at hkeys
    exact String.toList_inj.mp hkeys
  · rintro rfl
    exact ⟨_, List.append_assoc ..⟩

theorem newLine_own {e : Entry} (hkey : key ∈ fieldNames) (he : e.key = key.toList) (hmark : '#' ∉ e.line)
    (hval : val ≠ []) : newLine key val e.line = (fieldEntry key val).line := by
  have hcomment : commentOf e.line = [] :=
    List.dropWhile_eq_nil_iff.mpr fun c hc => by simpa using ne_of_mem_of_not_mem hc hmark
  have hindent : e.line.takeWhile isWhitespace = [] := by
    rw [Entry.line, he, (starts_fieldName hkey _).2.1]
  have hcolon : ": ".toList = [':', ' '] := rfl
  have htrim : Text.trimEnd [] = [] := rfl
  rw [newLine, hcomment, hindent, htrim, hcolon, fieldEntry, Entry.line, if_neg hval]
  simp

end

-- ---------------------------------------------------------------------------
-- Items
-- ---------------------------------------------------------------------------

/-- The entry of a key is replaced, or there is a new one. -/
def setItem (key : String) (val : Text) : List Item → List Item
  | [] => [.entry (fieldEntry key val)]
  | .entry e :: items =>
    if e.key = key.toList then .entry (fieldEntry key val) :: items else .entry e :: setItem key val items
  | .comment line :: items => .comment line :: setItem key val items

def findEntry (items : List Item) (key : Text) : Option Entry := (entriesOf items).find? fun e => e.key = key

section
variable {key other : String} {val : Text} {items : List Item} {scalar : Text → Yaml}

theorem linesOf_cons (item : Item) (items : List Item) : linesOf (item :: items) = item.lines ++ linesOf items := rfl

theorem entriesOf_entry (e : Entry) (items : List Item) : entriesOf (.entry e :: items) = e :: entriesOf items := rfl

theorem entriesOf_comment (line : Text) (items : List Item) : entriesOf (.comment line :: items) = entriesOf items := rfl

/-- No line of an entry with another key is the key's, if none is taken for it. -/
theorem key_ne_of_none {e : Entry} (hkey : key ∈ fieldNames) (hnone : ∀ line ∈ (Item.entry e).lines, isLineOf key line = false) :
    e.key ≠ key.toList := by
  intro he
  have hline := (isLineOf_line hkey hkey he).mpr rfl
  rw [hnone e.line (List.mem_cons_self ..)] at hline
  cases hline

theorem setField_linesOf (hkey : key ∈ fieldNames) (hval : val ≠ []) (hown : OwnLine key items) :
    setField (linesOf items) (key, val) = linesOf (setItem key val items) := by
  induction hown with
  | absent => exact setField_nil hval
  | @own e items he hmark hmore =>
    have hlines : linesOf (.entry e :: items) = e.line :: linesOf items := by
      rw [linesOf_cons, Item.lines, hmore, List.singleton_append]
    rw [setItem, if_pos he, hlines, setField_own ((isLineOf_line hkey hkey he).mpr rfl), newLine_own hkey he hmark hval]
    rfl
  | @later item items hnone _ ih =>
    rw [linesOf_cons, setField_append hnone, ih]
    cases item with
    | entry e => rw [setItem, if_neg (key_ne_of_none hkey hnone), linesOf_cons]
    | comment line => rw [setItem, linesOf_cons]

theorem mem_setItem {item : Item} (h : item ∈ setItem key val items) :
    item = .entry (fieldEntry key val) ∨ item ∈ items := by
  induction items with
  | nil => exact .inl (List.mem_singleton.mp h)
  | cons first items ih =>
    cases first with
    | entry e =>
      rw [setItem] at h
      split at h
      · exact (List.mem_cons.mp h).imp_right (List.mem_cons_of_mem _)
      · rcases List.mem_cons.mp h with rfl | h
        · exact .inr (List.mem_cons_self ..)
        · exact (ih h).imp_right (List.mem_cons_of_mem _)
    | comment line =>
      rcases List.mem_cons.mp h with rfl | h
      · exact .inr (List.mem_cons_self ..)
      · exact (ih h).imp_right (List.mem_cons_of_mem _)

theorem findEntry_setItem (key' : Text) :
    findEntry (setItem key val items) key' =
      if key.toList = key' then some (fieldEntry key val) else findEntry items key' := by
  unfold findEntry
  induction items with
  | nil =>
    by_cases hkey : key.toList = key' <;> simp [setItem, entriesOf, Item.entry?, fieldEntry, hkey]
  | cons first items ih =>
    cases first with
    | entry e =>
      rw [setItem]
      split
      · rename_i he
        rw [entriesOf_entry, entriesOf_entry, List.find?_cons, List.find?_cons, he]
        by_cases hkey : key.toList = key' <;> simp [fieldEntry, hkey]
      · rename_i he
        rw [entriesOf_entry, entriesOf_entry, List.find?_cons, List.find?_cons, ih]
        by_cases hkey : e.key = key'
        · have hne : key.toList ≠ key' := fun heq => he (hkey.trans heq.symm)
          simp [hkey, hne]
        · simp [hkey]
    | comment line =>
      rw [setItem, entriesOf_comment, entriesOf_comment, ih]

theorem keys_setItem : (entriesOf (setItem key val items)).map Entry.key =
    if key.toList ∈ (entriesOf items).map Entry.key then (entriesOf items).map Entry.key
    else (entriesOf items).map Entry.key ++ [key.toList] := by
  induction items with
  | nil => rfl
  | cons first items ih =>
    cases first with
    | entry e =>
      rw [setItem]
      split
      · rename_i he
        have hnew : (fieldEntry key val).key = key.toList := rfl
        simp only [entriesOf_entry, List.map_cons, he, hnew]
        rw [if_pos (List.mem_cons_self ..)]
      · rename_i he
        simp only [entriesOf_entry, List.map_cons, ih, List.mem_cons, Ne.symm he, false_or]
        split <;> rfl
    | comment line => exact ih

theorem isBlock_setItem (hblock : IsBlock scalar items) (hnames : NamesAreStrings scalar) (hkey : key ∈ fieldNames)
    (hval : IsValue val) : IsBlock scalar (setItem key val items) where
  wellFormed := by
    intro item hitem
    rcases mem_setItem hitem with rfl | hitem
    · exact fieldEntry_wellFormed hkey hval
    · exact hblock.wellFormed item hitem
  nodup := by
    rw [keys_setItem]
    split
    · exact hblock.nodup
    · rename_i hnew
      rw [← List.concat_eq_append]
      exact hblock.nodup.concat hnew
  ne_nil := by
    intro hnil
    have hkeys : (entriesOf (setItem key val items)).map Entry.key = _ := keys_setItem
    rw [hnil] at hkeys
    split at hkeys
    · exact hblock.ne_nil (List.map_eq_nil_iff.mp hkeys.symm)
    · simp at hkeys
  keys := by
    intro e he
    obtain ⟨item, hitem, hentry⟩ := List.mem_filterMap.mp he
    rcases mem_setItem hitem with rfl | hitem
    · cases hentry
      exact hnames key hkey
    · exact hblock.keys e (List.mem_filterMap.mpr ⟨item, hitem, hentry⟩)

/-- A line that was set is not taken for another key's. -/
theorem OwnLine.setItem (h : OwnLine other items) (hkey : key ∈ fieldNames) (hother : other ∈ fieldNames)
    (hne : other ≠ key) : OwnLine other (setItem key val items) := by
  have hnew : ∀ line ∈ (Item.entry (fieldEntry key val)).lines, isLineOf other line = false := by
    intro line hline
    obtain rfl := List.mem_singleton.mp hline
    rw [Bool.eq_false_iff]
    exact fun hlineOf => hne ((isLineOf_line hother hkey rfl).mp hlineOf)
  induction h with
  | absent => exact .later hnew .absent
  | @own e items he hmark hmore =>
    have hnot : e.key ≠ key.toList := fun heq => hne (String.toList_inj.mp (he.symm.trans heq))
    rw [Okf.setItem, if_neg hnot]
    exact .own he hmark hmore
  | @later item items hnone hitems ih =>
    cases item with
    | entry e =>
      rw [Okf.setItem]
      split
      · exact .later hnew hitems
      · exact .later hnone ih
    | comment line => exact .later hnone ih

end

-- ---------------------------------------------------------------------------
-- All changes
-- ---------------------------------------------------------------------------

section
variable {scalar : Text → Yaml} {value : Text → List Text → Option Yaml} {items : List Item} {opts : Opts}
  {by_ now : Text}

/-- Changes of fields that differ, with readable values. -/
structure Changes (value : Text → List Text → Option Yaml) (items : List Item) (changes : List (String × Text)) : Prop where
  fields : ∀ c ∈ changes, c.1 ∈ fieldNames ∧ Readable value c.2
  own : ∀ c ∈ changes, OwnLine c.1 items
  nodup : (changes.map Prod.fst).Nodup

theorem Changes.tail {c : String × Text} {changes : List (String × Text)} (h : Changes value items (c :: changes)) :
    Changes value (setItem c.1 c.2 items) changes where
  fields := fun c' hc' => h.fields c' (List.mem_cons_of_mem _ hc')
  own := by
    intro c' hc'
    refine (h.own c' (List.mem_cons_of_mem _ hc')).setItem (h.fields c (List.mem_cons_self ..)).1
      (h.fields c' (List.mem_cons_of_mem _ hc')).1 fun heq => ?_
    exact (List.nodup_cons.mp h.nodup).1 (heq ▸ List.mem_map_of_mem hc')
  nodup := (List.nodup_cons.mp h.nodup).2

/-- The items with all changes made. -/
def setItems (items : List Item) (changes : List (String × Text)) : List Item :=
  changes.foldl (fun items c => setItem c.1 c.2 items) items

theorem foldl_setField {changes : List (String × Text)} (h : Changes value items changes) :
    changes.foldl setField (linesOf items) = linesOf (setItems items changes) := by
  induction changes generalizing items with
  | nil => rfl
  | cons c changes ih =>
    obtain ⟨hkey, -, hne, -⟩ := h.fields c (List.mem_cons_self ..)
    rw [List.foldl_cons, setField_linesOf hkey hne (h.own c (List.mem_cons_self ..)), ih h.tail]
    rfl

theorem isBlock_setItems (hnames : NamesAreStrings scalar) {changes : List (String × Text)}
    (h : Changes value items changes) (hblock : IsBlock scalar items) : IsBlock scalar (setItems items changes) := by
  induction changes generalizing items with
  | nil => exact hblock
  | cons c changes ih =>
    obtain ⟨hkey, hval, -⟩ := h.fields c (List.mem_cons_self ..)
    exact ih h.tail (isBlock_setItem hblock hnames hkey hval)

theorem mem_entries_setItems {changes : List (String × Text)} {e : Entry} (he : e ∈ entriesOf (setItems items changes)) :
    (∃ c ∈ changes, e = fieldEntry c.1 c.2) ∨ e ∈ entriesOf items := by
  induction changes generalizing items with
  | nil => exact .inr he
  | cons c changes ih =>
    rcases ih he with ⟨c', hc', rfl⟩ | he
    · exact .inl ⟨c', List.mem_cons_of_mem _ hc', rfl⟩
    · obtain ⟨item, hitem, hentry⟩ := List.mem_filterMap.mp he
      rcases mem_setItem hitem with rfl | hitem
      · cases hentry
        exact .inl ⟨c, List.mem_cons_self .., rfl⟩
      · exact .inr (List.mem_filterMap.mpr ⟨item, hitem, hentry⟩)

theorem findEntry_other {changes : List (String × Text)} {key : Text} (h : ∀ c ∈ changes, c.1.toList ≠ key) :
    findEntry (setItems items changes) key = findEntry items key := by
  induction changes generalizing items with
  | nil => rfl
  | cons c changes ih =>
    obtain ⟨hc, hchanges⟩ := List.forall_mem_cons.mp h
    exact (ih hchanges).trans ((findEntry_setItem key).trans (if_neg hc))

theorem findEntry_set {changes : List (String × Text)} (hnodup : (changes.map Prod.fst).Nodup) {c : String × Text}
    (hc : c ∈ changes) : findEntry (setItems items changes) c.1.toList = some (fieldEntry c.1 c.2) := by
  induction changes generalizing items with
  | nil => cases hc
  | cons first changes ih =>
    obtain ⟨hfirst, hnodup⟩ := List.nodup_cons.mp hnodup
    rcases List.mem_cons.mp hc with rfl | hc
    · have hothers : ∀ c' ∈ changes, c'.1.toList ≠ c.1.toList := fun c' hc' heq =>
        hfirst (String.toList_inj.mp heq ▸ List.mem_map_of_mem hc')
      exact (findEntry_other hothers).trans ((findEntry_setItem _).trans (if_pos rfl))
    · exact ih hnodup hc

/-- What is read once all changes are made. -/
theorem read_setItems {yaml : YamlReader} (hreads : Reads yaml scalar value) (hnames : NamesAreStrings scalar)
    {changes : List (String × Text)} (h : Changes value items changes) (hblock : IsBlock scalar items)
    {fields : List (Yaml × Yaml)} (hfields : fieldsOf value items = some fields) :
    ∃ fields', yaml (Text.ofLines (linesOf (setItems items changes))) = some (.mapping fields') ∧
      (∀ c ∈ changes, (Yaml.mapping fields').get c.1.toList = value c.2 []) ∧
      ∀ key, (∀ c ∈ changes, c.1.toList ≠ key) → (Yaml.mapping fields').get key = (Yaml.mapping fields).get key := by
  have hvalues : ∀ e ∈ entriesOf (setItems items changes), ∃ v, value e.value e.more = some v := by
    intro e he
    rcases mem_entries_setItems he with ⟨c, hc, rfl⟩ | he
    · exact (h.fields c hc).2.2.2
    · exact value_of_fieldsOf hfields he
  obtain ⟨fields', hfields'⟩ := fieldsOf_eq_some hvalues
  have hget (key : Text) : (Yaml.mapping fields').get key =
      (findEntry (setItems items changes) key).bind fun e => value e.value e.more := get_fields hfields'
  refine ⟨fields', hreads.mapping _ _ (isBlock_setItems hnames h hblock) hfields', fun c hc => ?_, fun key hkey => ?_⟩
  · rw [hget, findEntry_set h.nodup hc]
    rfl
  · rw [hget, findEntry_other hkey]
    exact (get_fields hfields).symm

end

-- ---------------------------------------------------------------------------
-- What the options ask for
-- ---------------------------------------------------------------------------

section
variable {yaml : YamlReader} {scalar : Text → Yaml} {value : Text → List Text → Option Yaml} {items : List Item}
  {opts : Opts} {by_ now : Text}

/-- The options that `edit` looks at. -/
def editOptions : List String := textOptions ++ ["tags"]

/-- The values are plain scalars on one line. -/
def PlainValues (opts : Opts) : Prop := ∀ opt ∈ editOptions, ∀ t, opts.given opt = some t → Plain t

theorem keys_changes : (changes opts by_ now).map Prod.fst = editedKeys opts := by
  simp only [changes, editedKeys, requested, List.map_append, List.map_map, List.map_cons, List.map_nil, Function.comp_def]

theorem nodup_changes : ((changes opts by_ now).map Prod.fst).Nodup := by
  have hone {α : Type} (o : Option Text) (key : String) (f : Text → α) :
      ((o.toList.map fun v => (key, f v)).map Prod.fst).Sublist [key] := by
    cases o
    · exact List.nil_sublist _
    · exact List.Sublist.refl _
  have hsub : ((changes opts by_ now).map Prod.fst).Sublist
      (["type"] ++ ["title"] ++ ["description"] ++ ["resource"] ++ ["tags"] ++ ["status"] ++ ["stale_after"] ++
        ["generated"]) := by
    rw [keys_changes, editedKeys]
    simp only [requested, List.map_append]
    exact (((((((hone ..).append (hone ..)).append (hone ..)).append (hone ..)).append (hone ..)).append
      (hone ..)).append (hone ..)).append (List.Sublist.refl _)
  exact hsub.nodup (by decide)

/-- The field of an option. -/
def fieldOf (opt : String) : String := if opt = "stale-after" then "stale_after" else opt

/-- A change writes the text of an option, the tags, or who generated the concept. -/
theorem mem_changes {c : String × Text} : c ∈ changes opts by_ now ↔
    (∃ opt ∈ textOptions, ∃ t, opts.given opt = some t ∧ c = (fieldOf opt, t)) ∨
    (∃ t, opts.given "tags" = some t ∧ c = ("tags", flowList (Text.entries t))) ∨
    c = ("generated", generated by_ now) := by
  simp only [changes, textOptions, fieldOf, List.mem_append, List.mem_map, Option.mem_toList, List.mem_cons,
    List.not_mem_nil, or_false, exists_eq_or_imp, exists_eq_left, eq_comm (b := c), String.reduceEq, if_false, if_true]
  simp only [or_assoc, or_left_comm, or_comm]

theorem mem_requested {r : String × Yaml} : r ∈ requested opts ↔
    (∃ opt ∈ textOptions, ∃ t, opts.given opt = some t ∧ r = (fieldOf opt, .string t)) ∨
    ∃ t, opts.given "tags" = some t ∧ r = ("tags", .sequence ((Text.entries t).map .string)) := by
  simp only [requested, textOptions, fieldOf, List.mem_append, List.mem_map, Option.mem_toList, List.mem_cons,
    List.not_mem_nil, or_false, exists_eq_or_imp, exists_eq_left, eq_comm (b := r), String.reduceEq, if_false, if_true]
  simp only [or_assoc, or_left_comm, or_comm]

theorem changes_valid (hreads : Reads yaml scalar value) (hnames : NamesAreStrings scalar) (hplain : PlainValues opts)
    {before : Yaml} (hclean : EditsCleanly scalar opts items before) (hnow : FlowPlain now) :
    Changes value items (changes opts (generatedBy before) now) where
  fields := by
    intro c hc
    rcases mem_changes.mp hc with ⟨opt, hopt, t, ht, rfl⟩ | ⟨t, ht, rfl⟩ | rfl
    · have hall : ∀ opt ∈ textOptions, fieldOf opt ∈ fieldNames := by decide
      exact ⟨hall opt hopt, readable_plain hreads (hplain opt (List.mem_append_left _ hopt) t ht)⟩
    · exact ⟨(by decide : "tags" ∈ fieldNames), readable_tags hreads fun tag htag => (hclean.tags t ht tag htag).1⟩
    · exact ⟨(by decide : "generated" ∈ fieldNames), (readable_generated hreads hnames hclean.by_plain.1 hnow).1⟩
  own := by
    intro c hc
    refine hclean.own c.1 ?_
    rw [← keys_changes]
    exact List.mem_map_of_mem hc
  nodup := nodup_changes

/-- With the fields as they are written, what is read has changed as it should. -/
theorem editedOnly_of_get (hreads : Reads yaml scalar value) (hnames : NamesAreStrings scalar) (hplain : PlainValues opts)
    {before after : Yaml} (hclean : EditsCleanly scalar opts items before) (hnow : FlowPlain now)
    (hset : ∀ c ∈ changes opts (generatedBy before) now, after.get c.1.toList = value c.2 [])
    (hothers : ∀ key, (∀ c ∈ changes opts (generatedBy before) now, c.1.toList ≠ key) → after.get key = before.get key) :
    EditedOnly opts before after where
  set := by
    intro r hr
    rcases mem_requested.mp hr with ⟨opt, hopt, t, ht, rfl⟩ | ⟨t, ht, rfl⟩
    · have hget := hset (fieldOf opt, t) (mem_changes.mpr (.inl ⟨opt, hopt, t, ht, rfl⟩))
      rw [hget, hreads.plain t (hplain opt (List.mem_append_left _ hopt) t ht), hclean.text opt hopt t ht]
    · have hget := hset ("tags", flowList (Text.entries t)) (mem_changes.mpr (.inr (.inl ⟨t, ht, rfl⟩)))
      have hstrings : (Text.entries t).map scalar = (Text.entries t).map .string :=
        List.map_congr_left fun tag htag => (hclean.tags t ht tag htag).2
      rw [hget, flowList_eq, hreads.flowSeq _ fun tag htag => (hclean.tags t ht tag htag).1, hstrings]
  by_ := by
    intro v hv
    obtain ⟨t, rfl⟩ := hclean.by_text v hv
    have hby : generatedBy before = t := by
      rw [byOf] at hv
      rw [generatedBy, hv]
      rfl
    have hget := hset ("generated", generated (generatedBy before) now) (mem_changes.mpr (.inr (.inr rfl)))
    rw [(readable_generated hreads hnames hclean.by_plain.1 hnow).2, hclean.by_plain.2, hby] at hget
    have hname : (Yaml.string "by".toList).asStr = some "by".toList := rfl
    rw [byOf, hget, Option.bind_some, Yaml.get_cons, if_pos hname]
  others := by
    intro key hkey
    refine hothers key fun c hc => hkey c.1 ?_
    rw [← keys_changes]
    exact List.mem_map_of_mem hc

/-- What `edit` writes of a block mapping is a block mapping with the changes made. -/
theorem parseDoc_editDocument (hreads : Reads yaml scalar value) (hnames : NamesAreStrings scalar)
    (hplain : PlainValues opts) {after : Text} {fields : List (Yaml × Yaml)} (hblock : IsBlock scalar items)
    (hfields : fieldsOf value items = some fields) (hclean : EditsCleanly scalar opts items (.mapping fields))
    (hnow : FlowPlain now) {doc : Text} (hdoc : editDocument yaml opts now (docOf (linesOf items) after) = some doc) :
    ∃ fm body, parseDoc yaml (docOf (linesOf items) after) = some (.mapping fields, body) ∧
      parseDoc yaml doc = some (fm, body) ∧ EditedOnly opts (.mapping fields) fm := by
  have hlines := isLine_of_mem hblock.wellFormed
  have hparse : parseDoc yaml (docOf (linesOf items) after) = some (.mapping fields, Text.dropStart '\n' after) := by
    rw [parseDoc_docOf yaml hlines, hreads.mapping items fields hblock hfields, Option.map_some]
  have hvalid := changes_valid hreads hnames hplain hclean hnow
  have hblock' := isBlock_setItems hnames hvalid hblock
  have hne' := linesOf_ne_nil hblock'.ne_nil
  simp only [editDocument, hparse, rawLines_docOf (linesOf_ne_nil hblock.ne_nil) hlines, Option.bind_eq_bind,
    Option.bind_some, foldl_setField hvalid] at hdoc
  split at hdoc
  · have hwritten : docOf (linesOf (setItems items (changes opts (generatedBy (.mapping fields)) now)))
        ("\n\n".toList ++ Text.dropStart '\n' after) = doc := by
      have hfirst : "---\n".toList = "---".toList ++ ['\n'] := rfl
      have hlast : "\n---\n\n".toList = endMark ++ "\n\n".toList := rfl
      rw [← Option.some.inj hdoc, docOf, Text.ofLines_eq hne', hfirst, hlast]
      simp only [List.append_assoc, List.cons_append, List.nil_append]
    obtain ⟨fields', hyaml, hset, hothers⟩ := read_setItems hreads hnames hvalid hblock hfields
    have hbody : Text.dropStart '\n' ("\n\n".toList ++ Text.dropStart '\n' after) = Text.dropStart '\n' after :=
      List.dropWhile_idempotent ..
    refine ⟨.mapping fields', _, hparse, ?_, editedOnly_of_get hreads hnames hplain hclean hnow hset hothers⟩
    rw [← hwritten, parseDoc_docOf yaml (isLine_of_mem hblock'.wellFormed), hyaml, Option.map_some, hbody]
  · cases hdoc

end

-- ---------------------------------------------------------------------------
-- The command
-- ---------------------------------------------------------------------------

section
variable {scalar : Text → Yaml} {value : Text → List Text → Option Yaml} {env : Env} {lib : List Name} {opts : Opts}
  {d : OkfDisk} {rel : Text}

/-- What an `edit` of text has written. -/
theorem edited_text (hrel : opts.given "path" = some rel) (hlib : d.node lib = some .dir)
    (hlog : placeOf lib (encode rel) ≠ lib ++ [logMd]) {t : Text}
    (hnode : d.node (placeOf lib (encode rel)) = some (.file (.text t))) (hok : (cmdEdit env lib opts d).2 = true) :
    ∃ doc, editDocument env.yaml opts (isoNow env.secs) t = some doc ∧
      (cmdEdit env lib opts d).1.node (placeOf lib (encode rel)) = some (.file (.text doc)) := by
  simp only [cmdEdit, hrel] at hok ⊢
  split at hok
  · rename_i doc hdoc
    obtain ⟨raw, hraw, hedit⟩ := Option.bind_eq_some_iff.mp hdoc
    obtain ⟨page, hpage, htext⟩ := Option.bind_eq_some_iff.mp hraw
    obtain rfl : page = .text t := by
      unfold Disk.read at hpage
      split at hpage
      · rename_i content hfind
        obtain ⟨-, -, hfile⟩ := Disk.find_iff.mp hfind
        rw [hnode] at hfile
        split at hpage
        · cases hpage
        · cases hpage
          cases hfile
          rfl
      · cases hpage
    rw [toText_text] at htext
    cases htext
    refine ⟨doc, hedit, ?_⟩
    obtain ⟨hwrite, hboth⟩ := Disk.andThen_ok hok
    obtain ⟨hwritten, hlib'⟩ := write_text hlib hwrite
    rw [hboth, node_appendLog hlib' hlog, hwritten]
  · cases hok

/-- After an edit of a concept whose frontmatter is a block mapping, the fields asked
for are read and nothing else has changed, if the edited lines are the fields' own. -/
theorem edited_only (env : Env) (hreads : Reads env.yaml scalar value) (hnames : NamesAreStrings scalar)
    (lib : List Name) (opts : Opts) (d : OkfDisk) (rel : Text) (hrel : opts.given "path" = some rel)
    (hplain : PlainValues opts) (c : List Name) (hconcept : c ∈ collectMdFiles lib d)
    (hplace : lib ++ c = placeOf lib (encode rel)) (items : List Item) (fields : List (Yaml × Yaml)) (after : Text)
    (hblock : IsBlock scalar items) (hfields : fieldsOf value items = some fields)
    (hnode : d.node (lib ++ c) = some (.file (.text (docOf (linesOf items) after))))
    (hclean : EditsCleanly scalar opts items (.mapping fields))
    (hok : (runCommand env lib (.edit opts) d).2 = true) :
    ∃ page fm body, (runCommand env lib (.edit opts) d).1.node (lib ++ c) = some (.file (.text page)) ∧
      parseDoc env.yaml (docOf (linesOf items) after) = some (.mapping fields, body) ∧
      parseDoc env.yaml page = some (fm, body) ∧ EditedOnly opts (.mapping fields) fm := by
  unfold runCommand at hok ⊢
  split at hok
  · rename_i hlib
    have hlog : placeOf lib (encode rel) ≠ lib ++ [logMd] := by
      obtain ⟨-, -, -, hname⟩ := mem_collectMdFiles.mp hconcept
      intro heq
      rw [List.append_cancel_left (hplace.trans heq)] at hname
      exact absurd hname (by decide)
    rw [hplace] at hnode ⊢
    obtain ⟨doc, hdoc, hwritten⟩ := edited_text hrel hlib hlog hnode hok
    obtain ⟨fm, body, hbefore, hafter, hedited⟩ :=
      parseDoc_editDocument hreads hnames hplain hblock hfields hclean (isoNow_flowPlain env.secs) hdoc
    rw [if_pos hlib]
    exact ⟨doc, fm, body, hwritten, hbefore, hafter, hedited⟩
  · cases hok

end

/-- A concept with a title, which may have a comment behind it. -/
def titledItems (comment : Text) : List Item :=
  [.comment "# kept".toList, .entry (fieldEntry "type" "Metric".toList),
    .entry { fieldEntry "title" "Old".toList with comment := comment }]

def titledDisk (comment : Text) : OkfDisk :=
  ((Disk.bare).write [] (encode "a.md".toList) .none (.text (docOf (linesOf (titledItems comment)) "\n\nText".toList))).1

def retitleOpts : Opts := someOpts [("path", "a.md"), ("title", "New")]

theorem isBlock_titledItems {comment : Text} (h : IsComment comment) : IsBlock coreScalar (titledItems comment) where
  wellFormed := by
    have htype : (fieldEntry "type" "Metric".toList).WellFormed :=
      fieldEntry_wellFormed (by decide) (Plain.isValue (by decide))
    have htitle : (fieldEntry "title" "Old".toList).WellFormed :=
      fieldEntry_wellFormed (by decide) (Plain.isValue (by decide))
    simp only [titledItems, List.forall_mem_cons, List.not_mem_nil, false_imp_iff, implies_true, and_true]
    exact ⟨⟨rfl, by decide⟩, htype, { htitle with comment := h }⟩
  nodup := (by decide : ["type".toList, "title".toList].Nodup)
  ne_nil := List.cons_ne_nil _ _
  keys := List.forall_mem_cons.mpr ⟨coreScalar_names "type" (by decide),
    List.forall_mem_singleton.mpr (coreScalar_names "title" (by decide))⟩

theorem fieldsOf_titledItems (comment : Text) : fieldsOf readValue (titledItems comment) =
    some [(.string "type".toList, .string "Metric".toList), (.string "title".toList, .string "Old".toList)] := rfl

theorem plainValues_retitleOpts : PlainValues retitleOpts := by
  have hall : ∀ opt ∈ editOptions, (retitleOpts.given opt).all fun t => Plain t := by decide
  intro opt hopt t ht
  have hplain := hall opt hopt
  rw [ht] at hplain
  simpa using hplain

theorem edited_only_retitled : ∃ page fm body,
    (runCommand (reading readBlock) [] (.edit retitleOpts) (titledDisk [])).1.node [utf8 "a.md"] =
        some (.file (.text page)) ∧
      parseDoc readBlock (docOf (linesOf (titledItems [])) "\n\nText".toList) =
        some (.mapping [(.string "type".toList, .string "Metric".toList), (.string "title".toList, .string "Old".toList)],
          body) ∧
      parseDoc readBlock page = some (fm, body) ∧
      EditedOnly retitleOpts
        (.mapping [(.string "type".toList, .string "Metric".toList), (.string "title".toList, .string "Old".toList)]) fm := by
  have hclean : EditsCleanly coreScalar retitleOpts (titledItems [])
      (.mapping [(.string "type".toList, .string "Metric".toList), (.string "title".toList, .string "Old".toList)]) := by
    refine ⟨?_, ?_, nofun, ⟨by decide, asStr_iff.mp (by decide)⟩, nofun⟩
    · have hkeys : editedKeys retitleOpts = ["title", "generated"] := rfl
      rw [hkeys]
      simp only [List.forall_mem_cons, List.not_mem_nil, false_imp_iff, implies_true, and_true]
      exact ⟨.later (by decide) (.later (by decide) (.own rfl (by decide) rfl)),
        .later (by decide) (.later (by decide) (.later (by decide) .absent))⟩
    · have hall : ∀ opt ∈ textOptions, (retitleOpts.given opt).all fun t => (coreScalar t).asStr = some t := by decide
      intro opt hopt t ht
      have hstring := hall opt hopt
      rw [ht] at hstring
      exact asStr_iff.mp (by simpa using hstring)
  exact edited_only (reading readBlock) readBlock_reads coreScalar_names [] retitleOpts (titledDisk []) "a.md".toList
    (by decide) plainValues_retitleOpts [utf8 "a.md"]
    (mem_collectMdFiles.mpr ⟨by decide, ⟨_, rfl⟩, by decide, by decide⟩) (by decide) (titledItems []) _ _
    (isBlock_titledItems ⟨by decide, .inl rfl⟩) (fieldsOf_titledItems []) rfl hclean (by decide +kernel)

/-- A comment behind the value becomes part of the new value. -/
theorem comment_glued : ¬ ∀ (env : Env) (scalar : Text → Yaml) (value : Text → List Text → Option Yaml),
    Reads env.yaml scalar value → NamesAreStrings scalar →
    ∀ (lib : List Name) (opts : Opts) (d : OkfDisk) (rel : Text), opts.given "path" = some rel → PlainValues opts →
      ∀ c ∈ collectMdFiles lib d, lib ++ c = placeOf lib (encode rel) →
      ∀ (items : List Item) (fields : List (Yaml × Yaml)) (after : Text), IsBlock scalar items →
        fieldsOf value items = some fields →
        d.node (lib ++ c) = some (.file (.text (docOf (linesOf items) after))) →
        (runCommand env lib (.edit opts) d).2 = true →
        ∃ page fm body, (runCommand env lib (.edit opts) d).1.node (lib ++ c) = some (.file (.text page)) ∧
          parseDoc env.yaml (docOf (linesOf items) after) = some (.mapping fields, body) ∧
          parseDoc env.yaml page = some (fm, body) ∧ EditedOnly opts (.mapping fields) fm := by
  intro h
  obtain ⟨page, fm, body, hnode, -, hparse, hedited⟩ := h (reading readBlock) coreScalar readValue readBlock_reads
    coreScalar_names [] retitleOpts (titledDisk " # c".toList) "a.md".toList (by decide) plainValues_retitleOpts
    [utf8 "a.md"] (mem_collectMdFiles.mpr ⟨by decide, ⟨_, rfl⟩, by decide, by decide⟩) (by decide)
    (titledItems " # c".toList) _ _ (isBlock_titledItems ⟨by decide, .inr ⟨0, " c".toList, rfl⟩⟩)
    (fieldsOf_titledItems _) rfl (by decide +kernel)
  have hlost : ((loadConcept (reading readBlock) [] (runCommand (reading readBlock) [] (.edit retitleOpts)
      (titledDisk " # c".toList)).1 [utf8 "a.md"]).bind fun c => fmStr c.1 "title") = some "New# c".toList := by
    decide +kernel
  rw [loadConcept_text hnode] at hlost
  have hparse : parseDoc readBlock page = some (fm, body) := hparse
  have htitle := hedited.set ("title", .string "New".toList) 
    (mem_requested.mpr (.inl ⟨"title", by decide, "New".toList, by decide, rfl⟩))
  rw [hparse, Option.bind_some, fmStr, htitle] at hlost
  exact absurd hlost (by decide)

end Nsmt.Okf
