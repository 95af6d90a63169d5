import Mathlib.Data.List.Chain
import Nsmt.Lib.TextLines
import Nsmt.Lib.Yaml

/-!
# Block mappings of YAML

Keys and values on lines of their own, with what is indented below them and with
comments. Which texts are plain scalars is written out; what a reader makes of them
is a parameter, and `Reads` is what is known about it. `readBlock` is a reader of
which that can be proved.
-/

namespace Nsmt.Lib.YamlBlock

-- ---------------------------------------------------------------------------
-- Plain scalars
-- ---------------------------------------------------------------------------

def isBlank (c : Char) : Bool := c = ' ' || c = '\t'

/-- The printable characters, but for ends of lines and the byte order mark. -/
def isPrintable (c : Char) : Bool :=
  c = '\t' || (0x20 ≤ c.toNat && c.toNat ≤ 0x7E) ||
    (0xA0 ≤ c.toNat && !([0x2028, 0x2029, 0xFEFF, 0xFFFE, 0xFFFF].contains c.toNat))

def indicators : Text := ",[]\x7b\x7d#&*!|>'\"%@`".toList

def flowIndicators : Text := ",[]\x7b\x7d".toList

/-- `-`, `?` and `:` may be first if what follows is no blank. -/
def startsPlain : Text → Bool
  | [] => false
  | c :: rest => !isBlank c && !indicators.contains c &&
      (!(['-', '?', ':'].contains c) || rest.head?.any fun next => !isBlank next)

/-- A `#` behind a blank starts a comment. -/
abbrev NoComment (a b : Char) : Prop := ¬ (isBlank a = true ∧ b = '#')

/-- A `:` in front of a blank ends a key. -/
abbrev NoKey (a b : Char) : Prop := ¬ (a = ':' ∧ isBlank b = true)

/-- A plain scalar on one line. -/
structure Plain (t : Text) : Prop where
  starts : startsPlain t = true
  printable : ∀ c ∈ t, isPrintable c = true
  no_comment : t.IsChain NoComment
  no_key : t.IsChain NoKey
  ends : ∀ c ∈ t.getLast?, c ≠ ':' ∧ isBlank c = false

instance (t : Text) : Decidable (Plain t) :=
  decidable_of_iff (startsPlain t = true ∧ (∀ c ∈ t, isPrintable c = true) ∧ t.IsChain NoComment ∧
      t.IsChain NoKey ∧ ∀ c ∈ t.getLast?, c ≠ ':' ∧ isBlank c = false)
    ⟨fun ⟨starts, printable, no_comment, no_key, ends⟩ => ⟨starts, printable, no_comment, no_key, ends⟩,
      fun h => ⟨h.starts, h.printable, h.no_comment, h.no_key, h.ends⟩⟩

/-- A plain scalar between brackets. -/
structure FlowPlain (t : Text) : Prop extends Plain t where
  no_indicator : ∀ c ∈ t, flowIndicators.contains c = false
  no_question : t.IsChain fun a b => ¬ (a = ':' ∧ b = '?')
  starts_flow : ∀ c ∈ t.head?, c ≠ '?' ∧ c ≠ ':'

instance (t : Text) : Decidable (FlowPlain t) :=
  decidable_of_iff (Plain t ∧ (∀ c ∈ t, flowIndicators.contains c = false) ∧
      (t.IsChain fun a b => ¬ (a = ':' ∧ b = '?')) ∧ ∀ c ∈ t.head?, c ≠ '?' ∧ c ≠ ':')
    ⟨fun ⟨plain, no_indicator, no_question, starts_flow⟩ => ⟨plain, no_indicator, no_question, starts_flow⟩,
      fun h => ⟨h.toPlain, h.no_indicator, h.no_question, h.starts_flow⟩⟩

def flowSeq (items : List Text) : Text := "[".toList ++ Text.joinWith ", ".toList items ++ "]".toList

def flowField (f : Text × Text) : Text := f.1 ++ ": ".toList ++ f.2

def flowMap (fields : List (Text × Text)) : Text :=
  "\x7b ".toList ++ Text.joinWith ", ".toList (fields.map flowField) ++ " \x7d".toList

-- ---------------------------------------------------------------------------
-- Lines
-- ---------------------------------------------------------------------------

structure Entry where
  key : Text
  value : Text
  comment : Text
  more : List Text

/-- The first line of an entry. -/
def Entry.line (e : Entry) : Text :=
  e.key ++ ':' :: ((if e.value = [] then [] else ' ' :: e.value) ++ e.comment)

inductive Item
  | entry (e : Entry)
  | comment (line : Text)

def Item.lines : Item → List Text
  | .entry e => e.line :: e.more
  | .comment line => [line]

def Item.entry? : Item → Option Entry
  | .entry e => some e
  | .comment _ => none

def linesOf (items : List Item) : List Text := items.flatMap Item.lines

def entriesOf (items : List Item) : List Entry := items.filterMap Item.entry?

/-- A key, which is no document mark and fits into what a reader looks ahead. -/
structure IsKey (t : Text) : Prop extends Plain t where
  no_mark : t.head? ≠ some '-' ∧ t.head? ≠ some '.'
  short : t.length < 1024

/-- A value on one line, up to a comment. -/
structure IsValue (t : Text) : Prop where
  printable : ∀ c ∈ t, isPrintable c = true
  no_comment : (' ' :: t).IsChain NoComment
  starts : ∀ c ∈ t.head?, isBlank c = false
  ends : ∀ c ∈ t.getLast?, isBlank c = false

/-- Nothing, or a `#` behind spaces. -/
structure IsComment (t : Text) : Prop where
  printable : ∀ c ∈ t, isPrintable c = true
  marked : t = [] ∨ ∃ n text, t = List.replicate (n + 1) ' ' ++ '#' :: text

/-- A line of what belongs to a key: indented, or an item of a sequence. -/
structure IsMore (t : Text) : Prop where
  printable : ∀ c ∈ t, isPrintable c = true
  below : t.head? = some ' ' ∨ t = ['-'] ∨ ['-', ' '] <+: t

structure Entry.WellFormed (e : Entry) : Prop where
  key : IsKey e.key
  value : IsValue e.value
  comment : IsComment e.comment
  more : ∀ line ∈ e.more, IsMore line

def Item.WellFormed : Item → Prop
  | .entry e => e.WellFormed
  | .comment line => line.head? = some '#' ∧ ∀ c ∈ line, isPrintable c = true

/-- A block mapping: entries with different keys, at least one, and comments. -/
structure IsBlock (scalar : Text → Yaml) (items : List Item) : Prop where
  wellFormed : ∀ item ∈ items, item.WellFormed
  nodup : ((entriesOf items).map Entry.key).Nodup
  ne_nil : entriesOf items ≠ []
  keys : ∀ e ∈ entriesOf items, scalar e.key = .string e.key

section
variable {t : Text}

theorem Plain.head (h : Plain t) : ∃ c rest, t = c :: rest ∧ isBlank c = false ∧ indicators.contains c = false := by
  have hstarts := h.starts
  cases t with
  | nil => cases hstarts
  | cons c rest =>
    simp only [startsPlain, Bool.and_eq_true, Bool.not_eq_true'] at hstarts
    exact ⟨c, rest, rfl, hstarts.1⟩

theorem Plain.ne_nil (h : Plain t) : t ≠ [] := by
  obtain ⟨c, rest, rfl, -⟩ := h.head
  simp

theorem no_newline (h : ∀ c ∈ t, isPrintable c = true) : '\n' ∉ t := fun hmem => absurd (h _ hmem) (by decide)

theorem no_return (h : ∀ c ∈ t, isPrintable c = true) : t.getLast? ≠ some '\r' := fun hlast =>
  absurd (h _ (List.mem_of_getLast? hlast)) (by decide)

theorem printable_line {e : Entry} (h : e.WellFormed) : ∀ c ∈ e.line, isPrintable c = true := by
  have hvalue : ∀ c ∈ (if e.value = [] then [] else ' ' :: e.value), isPrintable c = true := by
    split
    · exact fun c hc => nomatch hc
    · exact List.forall_mem_cons.mpr ⟨rfl, h.value.printable⟩
  unfold Entry.line
  rw [List.forall_mem_append, List.forall_mem_cons, List.forall_mem_append]
  exact ⟨h.key.printable, rfl, hvalue, h.comment.printable⟩

/-- A line of a block mapping: something printable that is no document mark. -/
structure IsLine (t : Text) : Prop where
  printable : ∀ c ∈ t, isPrintable c = true
  ne_nil : t ≠ []
  no_mark : ¬ "---".toList <+: t

theorem isLine_line {e : Entry} (h : e.WellFormed) : IsLine e.line where
  printable := printable_line h
  ne_nil := by simp [Entry.line]
  no_mark := by
    obtain ⟨c, rest, hkey, -⟩ := h.key.toPlain.head
    have hdash := h.key.no_mark.1
    rw [hkey] at hdash
    rw [Entry.line, hkey]
    rintro ⟨tail, heq⟩
    exact hdash (congrArg some (List.cons.inj heq).1.symm)

theorem IsMore.isLine (h : IsMore t) : IsLine t where
  printable := h.printable
  ne_nil := by
    rintro rfl
    rcases h.below with hspace | hdash | hdash
    · cases hspace
    · cases hdash
    · exact absurd (List.prefix_nil.mp hdash) (by simp)
  no_mark := by
    rintro ⟨tail, rfl⟩
    rcases h.below with hspace | hdash | ⟨tail', hdash⟩
    · exact absurd hspace (by simp)
    · exact absurd hdash (by simp)
    · exact absurd hdash (by simp)

/-- What the lines of a block mapping have in common. -/
theorem isLine_of_mem {items : List Item} (h : ∀ item ∈ items, item.WellFormed) :
    ∀ line ∈ linesOf items, IsLine line := by
  intro line hline
  obtain ⟨item, hitem, hline⟩ := List.mem_flatMap.mp hline
  have hwell := h item hitem
  cases item with
  | entry e =>
    rcases List.mem_cons.mp hline with rfl | hmore
    · exact isLine_line hwell
    · exact (hwell.more line hmore).isLine
  | comment text =>
    obtain rfl := List.mem_singleton.mp hline
    refine ⟨hwell.2, ?_, ?_⟩
    · rintro rfl
      cases hwell.1
    · rintro ⟨tail, rfl⟩
      exact absurd hwell.1 (by simp)

theorem linesOf_ne_nil {items : List Item} (h : entriesOf items ≠ []) : linesOf items ≠ [] := by
  intro hnil
  rw [linesOf, List.flatMap_eq_nil_iff] at hnil
  obtain ⟨e, he⟩ := List.exists_mem_of_ne_nil _ h
  obtain ⟨item, hitem, hentry⟩ := List.mem_filterMap.mp he
  have hlines := hnil item hitem
  cases item <;> cases hlines

end

-- ---------------------------------------------------------------------------
-- Values
-- ---------------------------------------------------------------------------

section
variable {t m : Text}

/-- Behind a text that does not end in a blank no comment begins. -/
theorem noComment_append (h : t.IsChain NoComment) (hends : ∀ c ∈ t.getLast?, isBlank c = false)
    (hm : m.IsChain NoComment) : (t ++ m).IsChain NoComment :=
  List.isChain_append.mpr ⟨h, hm, fun a ha _ _ hboth => by rw [hends a ha] at hboth; cases hboth.1⟩

theorem Plain.isValue (h : Plain t) : IsValue t where
  printable := h.printable
  no_comment := by
    obtain ⟨c, rest, rfl, -, hindicator⟩ := h.head
    refine List.isChain_cons_cons.mpr ⟨?_, h.no_comment⟩
    rintro ⟨-, rfl⟩
    cases hindicator
  starts := by
    obtain ⟨c, rest, rfl, hblank, -⟩ := h.head
    intro x hx
    rw [← Option.mem_some_iff.mp hx, hblank]
  ends := fun c hc => (h.ends c hc).2

theorem IsValue.glue (h : IsValue t) (hne : t ≠ []) (hm : IsValue m) (hm' : m ≠ []) {c : Char}
    (hprintable : isPrintable c = true) : IsValue (t ++ c :: ' ' :: m) where
  printable := by
    rw [List.forall_mem_append, List.forall_mem_cons, List.forall_mem_cons]
    exact ⟨h.printable, hprintable, rfl, hm.printable⟩
  no_comment := by
    have hends : ∀ c ∈ (' ' :: t).getLast?, isBlank c = false := by
      rw [List.getLast?_cons_of_ne_nil hne]
      exact h.ends
    refine noComment_append h.no_comment hends (List.isChain_cons_cons.mpr ⟨?_, hm.no_comment⟩)
    rintro ⟨-, hmark⟩
    cases hmark
  starts := by
    rw [List.head?_append_of_ne_nil _ hne]
    exact h.starts
  ends := by
    rw [List.append_cons, List.append_cons, List.getLast?_append_of_ne_nil _ hm']
    exact hm.ends

theorem isValue_join {ts : List Text} (hne : ts ≠ []) (h : ∀ t ∈ ts, IsValue t ∧ t ≠ []) :
    IsValue (Text.joinWith ", ".toList ts) ∧ Text.joinWith ", ".toList ts ≠ [] := by
  induction ts with
  | nil => exact absurd rfl hne
  | cons t ts ih =>
    obtain ⟨ht, hts⟩ := List.forall_mem_cons.mp h
    cases ts with
    | nil => simpa [Text.joinWith] using ht
    | cons next ts =>
      obtain ⟨hvalue, hnonempty⟩ := ih (by simp) hts
      have hcomma : ", ".toList ++ Text.joinWith ", ".toList (next :: ts) =
          ',' :: ' ' :: Text.joinWith ", ".toList (next :: ts) := rfl
      rw [Text.joinWith_cons_cons, hcomma]
      exact ⟨ht.1.glue ht.2 hvalue hnonempty rfl, by simp⟩

theorem isValue_flowSeq {ts : List Text} (h : ∀ t ∈ ts, FlowPlain t) : IsValue (flowSeq ts) := by
  by_cases hne : ts = []
  · rw [hne]
    exact ⟨by decide, by decide, by decide, by decide⟩
  · obtain ⟨hvalue, hnonempty⟩ := isValue_join hne fun t ht => ⟨(h t ht).isValue, (h t ht).ne_nil⟩
    have hseq : flowSeq ts = '[' :: (Text.joinWith ", ".toList ts ++ [']']) := rfl
    rw [hseq]
    refine ⟨?_, ?_, by simp [isBlank], ?_⟩
    · rw [List.forall_mem_cons, List.forall_mem_append]
      exact ⟨rfl, hvalue.printable, by decide⟩
    · have hfront : [' ', '['].IsChain NoComment := by decide
      exact noComment_append hfront (by decide) (noComment_append hvalue.no_comment.tail hvalue.ends (by decide))
    · rw [← List.cons_append, List.getLast?_concat]
      decide

theorem isValue_flowMap {fields : List (Text × Text)} (hne : fields ≠ [])
    (h : ∀ f ∈ fields, FlowPlain f.1 ∧ FlowPlain f.2) : IsValue (flowMap fields) := by
  have hparts : ∀ t ∈ fields.map flowField, IsValue t ∧ t ≠ [] := by
    intro t ht
    obtain ⟨f, hf, rfl⟩ := List.mem_map.mp ht
    obtain ⟨hkey, hvalue⟩ := h f hf
    have hfield : flowField f = f.1 ++ ':' :: ' ' :: f.2 := by simp [flowField]
    rw [hfield]
    exact ⟨hkey.isValue.glue hkey.ne_nil hvalue.isValue hvalue.ne_nil rfl, by simp⟩
  obtain ⟨hvalue, hnonempty⟩ := isValue_join (by simpa using hne) hparts
  have hmap : flowMap fields =
      '\x7b' :: (' ' :: Text.joinWith ", ".toList (fields.map flowField) ++ [' ', '\x7d']) := rfl
  have hends : ∀ c ∈ (' ' :: Text.joinWith ", ".toList (fields.map flowField)).getLast?, isBlank c = false := by
    rw [List.getLast?_cons_of_ne_nil hnonempty]
    exact hvalue.ends
  rw [hmap]
  refine ⟨?_, ?_, by simp [isBlank], ?_⟩
  · rw [List.forall_mem_cons, List.forall_mem_append, List.forall_mem_cons]
    exact ⟨rfl, ⟨rfl, hvalue.printable⟩, by decide⟩
  · have hfront : [' ', '\x7b'].IsChain NoComment := by decide
    exact noComment_append hfront (by decide) (noComment_append hvalue.no_comment hends (by decide))
  · rw [← List.cons_append, List.getLast?_append_of_ne_nil _ (by simp)]
    decide

end

/-- What the entries stand for, given what each value does. -/
def fieldsOf (value : Text → List Text → Option Yaml) (items : List Item) : Option (List (Yaml × Yaml)) :=
  (entriesOf items).mapM fun e => (value e.value e.more).map fun v => (.string e.key, v)

-- ---------------------------------------------------------------------------
-- Readers
-- ---------------------------------------------------------------------------

/-- A reader takes a block mapping entry by entry. `scalar` is its schema: a plain
scalar is its own text, or null, a boolean or a number. `value` gives what stands
behind a key, with the lines below, where that does not depend on its neighbours. -/
structure Reads (yaml : YamlReader) (scalar : Text → Yaml) (value : Text → List Text → Option Yaml) : Prop where
  mapping : ∀ items fields, IsBlock scalar items → fieldsOf value items = some fields →
    yaml (Text.ofLines (linesOf items)) = some (.mapping fields)
  plain : ∀ t, Plain t → value t [] = some (scalar t)
  flowSeq : ∀ items, (∀ t ∈ items, FlowPlain t) → value (flowSeq items) [] = some (.sequence (items.map scalar))
  flowMap : ∀ fields : List (Text × Text), fields ≠ [] → (fields.map Prod.fst).Nodup →
    (∀ f ∈ fields, FlowPlain f.1 ∧ FlowPlain f.2 ∧ scalar f.1 = .string f.1 ∧ f.1.length < 1024) →
    value (flowMap fields) [] = some (.mapping (fields.map fun f => (scalar f.1, scalar f.2)))
  scalar_string : ∀ t s, scalar t = .string s → s = t

end Nsmt.Lib.YamlBlock
