import Nsmt.Lib.YamlBlockReader
import Nsmt.Okf.Frontmatter
import Nsmt.Okf.Log
import Nsmt.Okf.Visible

/-!
# Whether added concepts conform

`add` writes the values of its options into YAML as they are. Among plain scalars
on one line `added_conformant_iff` says which values the reader gives back.
-/

namespace Nsmt.Okf

open Nsmt.Lib Nsmt.Lib.YamlBlock Nsmt.Lib.Utf8 Nsmt.Lib.UnixPaths Nsmt.Lib.Dirs

/-- Whether `validate_bundle` counts an error for a concept. -/
def conceptError (env : Env) (lib : List Name) (d : OkfDisk) (rel : List Name) : Bool :=
  match loadConcept env lib d rel with
  | none => true
  | some (fm, _) =>
    match fmStr fm "type" with
    | some t => Text.trim t = []
    | none => true

/-- The numbers of concepts and of errors. -/
def validateBundle (env : Env) (lib : List Name) (d : OkfDisk) : Option (Nat × Nat) :=
  if d.node lib = some .dir then
    some ((collectMdFiles lib d).length, (collectMdFiles lib d).countP (conceptError env lib d))
  else none

/-- An environment in which all is read. -/
def reading (yaml : YamlReader) : Env where
  yaml := yaml
  secs := 0
  faults := .none

/-- The values given are those that are read. -/
structure GivesBack (opts : Opts) (fm : Yaml) : Prop where
  type : ∀ t, opts "type" = some t → fmStr fm "type" = some t
  title : ∀ t, opts "title" = some t → fmStr fm "title" = some t
  description : ∀ t, opts "description" = some t → t ≠ [] → fmStr fm "description" = some t
  tags : fmTags fm = Text.entries ((opts "tags").getD [])

/-- The file loads with the values given, and is no error of `validate_bundle`. -/
structure Conformant (yaml : YamlReader) (lib : List Name) (opts : Opts) (rel : Text) (d : OkfDisk) : Prop where
  loads : ∃ fm body, loadConcept (reading yaml) [] d (placeOf lib (encode rel)) = some (fm, body) ∧ GivesBack opts fm
  valid : ∀ c ∈ collectMdFiles lib d, lib ++ c = placeOf lib (encode rel) → conceptError (reading yaml) lib d c = false

/-- The values are plain scalars on one line; what is not read back need only be readable. -/
structure PlainOpts (value : Text → List Text → Option Yaml) (opts : Opts) (rel : Text) : Prop where
  type : ∀ t, opts "type" = some t → Plain t
  title : ∀ t, opts "title" = some t → Plain t
  file_name : opts "title" = none → Readable value (titleOf opts rel)
  description : ∀ t, opts "description" = some t → t ≠ [] → Plain t
  resource : ∀ t, opts "resource" = some t → t ≠ [] → Readable value t
  tags : ∀ t ∈ Text.entries ((opts "tags").getD []), FlowPlain t

/-- The reader's schema takes them for strings, and the type of a concept is not blank. -/
structure StringOpts (scalar : Text → Yaml) (lib : List Name) (opts : Opts) (rel : Text) : Prop where
  type : ∀ t, opts "type" = some t → scalar t = .string t
  not_blank : ∀ t, opts "type" = some t → LeadsToConcept lib rel → Text.trim t ≠ []
  title : ∀ t, opts "title" = some t → scalar t = .string t
  description : ∀ t, opts "description" = some t → t ≠ [] → scalar t = .string t
  tags : ∀ t ∈ Text.entries ((opts "tags").getD []), scalar t = .string t

-- ---------------------------------------------------------------------------
-- The frontmatter as a block mapping
-- ---------------------------------------------------------------------------

/-- An entry for a value that may be left out. -/
def optEntry (key : String) (val text : Text) : List Entry := if val = [] then [] else [fieldEntry key text]

def addEntries (opts : Opts) (ftype title now : Text) : List Entry :=
  [fieldEntry "type" ftype, fieldEntry "title" title] ++
    optEntry "description" ((opts "description").getD []) ((opts "description").getD []) ++
    optEntry "resource" ((opts "resource").getD []) ((opts "resource").getD []) ++
    optEntry "tags" ((opts "tags").getD []) (flowList (Text.entries ((opts "tags").getD []))) ++
    [fieldEntry "status" (statusOf opts), fieldEntry "generated" (generated "process:nsmt".toList now)]

section
variable {opts : Opts} {ftype title now : Text}

theorem field_eq (key : String) {val : Text} (h : val ≠ []) : field key val = (fieldEntry key val).line ++ ['\n'] := by
  have hcolon : ": ".toList = [':', ' '] := rfl
  have hnewline : "\n".toList = ['\n'] := rfl
  unfold field fieldEntry Entry.line
  rw [if_neg h, hcolon, hnewline]
  simp

theorem newlines (ls : List Text) : '\n' :: (ls.flatMap fun line => line ++ ['\n']) = Text.ofLines ls ++ ['\n'] := by
  induction ls with
  | nil => rfl
  | cons line ls ih => simp [List.flatMap_cons, ← ih]

theorem optEntry_eq (key : String) {val text : Text} (h : val ≠ [] → text ≠ []) :
    (if val = [] then [] else field key text) =
      ((optEntry key val text).map Entry.line).flatMap fun line => line ++ ['\n'] := by
  unfold optEntry
  split
  · rfl
  · rename_i hval
    rw [field_eq key (h hval), List.map_singleton, List.flatMap_singleton]

theorem addFrontmatter_eq (htype : ftype ≠ []) (htitle : title ≠ []) (hstatus : statusOf opts ≠ []) :
    addFrontmatter opts ftype title now =
      ((addEntries opts ftype title now).map Entry.line).flatMap fun line => line ++ ['\n'] := by
  have hgenerated : generated "process:nsmt".toList now ≠ [] := by
    rw [generated_eq]
    exact flowMap_ne_nil _
  have htags : flowList (Text.entries ((opts "tags").getD [])) ≠ [] := by
    rw [flowList_eq]
    exact flowSeq_ne_nil _
  unfold addFrontmatter addEntries
  dsimp only
  rw [field_eq "type" htype, field_eq "title" htitle, field_eq "status" hstatus, field_eq "generated" hgenerated,
    optEntry_eq "description" fun h => h, optEntry_eq "resource" fun h => h, optEntry_eq "tags" fun _ => htags]
  simp only [List.map_append, List.flatMap_append, List.map_cons, List.map_nil, List.flatMap_cons, List.flatMap_nil,
    List.append_nil, List.append_assoc]

def addAfter (title : Text) : Text := "\n\n# ".toList ++ title ++ "\n\n".toList

theorem addDocument_eq (htype : ftype ≠ []) (htitle : title ≠ []) (hstatus : statusOf opts ≠ []) :
    addDocument opts ftype title now =
      docOf ((addEntries opts ftype title now).map Entry.line) (addAfter title) := by
  have hfirst : "---\n".toList = "---".toList ++ ['\n'] := rfl
  have hlast : "---\n\n# ".toList = "---".toList ++ "\n\n# ".toList := rfl
  have hmark : endMark = ['\n'] ++ "---".toList := rfl
  have hlines := newlines ((addEntries opts ftype title now).map Entry.line)
  rw [addDocument, addFrontmatter_eq htype htitle hstatus, hfirst, hlast, docOf, addAfter, hmark]
  simp only [List.append_assoc, List.singleton_append] at hlines ⊢
  rw [hlines]
  simp only [List.append_assoc, List.cons_append, List.nil_append]

end

section
variable {yaml : YamlReader} {scalar : Text → Yaml} {value : Text → List Text → Option Yaml} {opts : Opts}
  {rel ftype now : Text}

theorem forall_optEntry {P : Entry → Prop} {key : String} {val text : Text} (h : val ≠ [] → P (fieldEntry key text)) :
    ∀ e ∈ optEntry key val text, P e := by
  unfold optEntry
  split
  · exact fun e he => nomatch he
  · rename_i hval
    exact List.forall_mem_singleton.mpr (h hval)

/-- The values that `add` writes. -/
structure AddReadable (value : Text → List Text → Option Yaml) (opts : Opts) (ftype title now : Text) : Prop where
  type : Readable value ftype
  title : Readable value title
  description : ∀ t, opts "description" = some t → t ≠ [] → Readable value t
  resource : ∀ t, opts "resource" = some t → t ≠ [] → Readable value t
  tags : Readable value (flowList (Text.entries ((opts "tags").getD [])))
  status : Readable value (statusOf opts)
  generated : Readable value (generated "process:nsmt".toList now)

theorem getD_of {P : Text → Prop} {o : Option Text} (h : ∀ t, o = some t → t ≠ [] → P t) (hne : o.getD [] ≠ []) :
    P (o.getD []) := by
  cases o with
  | none => exact absurd rfl hne
  | some t => exact h t rfl hne

theorem addReadable (hreads : Reads yaml scalar value) (hnames : NamesAreStrings scalar)
    (hplain : PlainOpts value opts rel) (htype : opts.given "type" = some ftype) (hstatus : statusOf opts ∈ statuses)
    (hnow : FlowPlain now) : AddReadable value opts ftype (titleOf opts rel) now where
  type := by
    obtain ⟨hgiven, -⟩ := Option.filter_eq_some_iff.mp htype
    exact readable_plain hreads (hplain.type ftype hgiven)
  title := by
    cases htitle : opts "title" with
    | none => exact hplain.file_name htitle
    | some t =>
      rw [titleOf, htitle]
      exact readable_plain hreads (hplain.title t htitle)
  description := fun t ht hne => readable_plain hreads (hplain.description t ht hne)
  resource := hplain.resource
  tags := readable_tags hreads hplain.tags
  status := by
    have hall : ∀ s ∈ statuses, Plain s := by decide
    exact readable_plain hreads (hall _ hstatus)
  generated := (readable_generated hreads hnames (by decide) hnow).1

/-- Every entry that `add` writes has the name of a field, and a readable value. -/
theorem addEntries_readable {title : Text} (h : AddReadable value opts ftype title now) :
    ∀ e ∈ addEntries opts ftype title now, ∃ key ∈ fieldNames, ∃ val, e = fieldEntry key val ∧ Readable value val := by
  unfold addEntries
  simp only [List.forall_mem_append, List.forall_mem_cons, List.not_mem_nil, false_imp_iff, implies_true, and_true]
  refine ⟨⟨⟨⟨⟨⟨"type", by decide, _, rfl, h.type⟩, "title", by decide, _, rfl, h.title⟩, ?_⟩, ?_⟩, ?_⟩,
    ⟨"status", by decide, _, rfl, h.status⟩, "generated", by decide, _, rfl, h.generated⟩
  · exact forall_optEntry fun hne => ⟨"description", by decide, _, rfl, getD_of h.description hne⟩
  · exact forall_optEntry fun hne => ⟨"resource", by decide, _, rfl, getD_of h.resource hne⟩
  · exact forall_optEntry fun _ => ⟨"tags", by decide, _, rfl, h.tags⟩

theorem optEntry_keys (key : String) (val text : Text) :
    ((optEntry key val text).map Entry.key).Sublist [key.toList] := by
  unfold optEntry
  split
  · exact List.nil_sublist _
  · exact List.Sublist.refl _

theorem nodup_addEntries {title : Text} : ((addEntries opts ftype title now).map Entry.key).Nodup := by
  have hsub : ((addEntries opts ftype title now).map Entry.key).Sublist
      (["type".toList, "title".toList] ++ ["description".toList] ++ ["resource".toList] ++ ["tags".toList] ++
        ["status".toList, "generated".toList]) := by
    unfold addEntries
    simp only [List.map_append]
    exact ((((List.Sublist.refl _).append (optEntry_keys ..)).append (optEntry_keys ..)).append
      (optEntry_keys ..)).append (List.Sublist.refl _)
  exact List.Nodup.sublist hsub (by decide)

theorem entriesOf_map (entries : List Entry) : entriesOf (entries.map .entry) = entries := by
  rw [entriesOf, List.filterMap_map]
  exact List.filterMap_some

theorem linesOf_map {entries : List Entry} (h : ∀ e ∈ entries, e.more = []) :
    linesOf (entries.map .entry) = entries.map Entry.line := by
  induction entries with
  | nil => rfl
  | cons e entries ih =>
    obtain ⟨he, hothers⟩ := List.forall_mem_cons.mp h
    have hlines : linesOf ((e :: entries).map .entry) = (e.line :: e.more) ++ linesOf (entries.map .entry) := rfl
    rw [hlines, he, ih hothers, List.map_cons, List.singleton_append]

theorem isBlock_addEntries (hnames : NamesAreStrings scalar) {title : Text} (h : AddReadable value opts ftype title now) :
    IsBlock scalar ((addEntries opts ftype title now).map .entry) where
  wellFormed := by
    intro item hitem
    obtain ⟨e, he, rfl⟩ := List.mem_map.mp hitem
    obtain ⟨key, hkey, val, rfl, hval, -⟩ := addEntries_readable h e he
    exact fieldEntry_wellFormed hkey hval
  nodup := by
    rw [entriesOf_map]
    exact nodup_addEntries
  ne_nil := by
    rw [entriesOf_map]
    simp [addEntries]
  keys := by
    rw [entriesOf_map]
    intro e he
    obtain ⟨key, hkey, val, rfl, -⟩ := addEntries_readable h e he
    exact hnames key hkey

/-- The lines that `add` writes are read as what their values stand for. -/
theorem read_addEntries (hreads : Reads yaml scalar value) (hnames : NamesAreStrings scalar) {title : Text}
    (h : AddReadable value opts ftype title now) :
    (∀ line ∈ (addEntries opts ftype title now).map Entry.line, IsLine line) ∧
    ∃ fields, yaml (Text.ofLines ((addEntries opts ftype title now).map Entry.line)) = some (.mapping fields) ∧
      (∀ e ∈ addEntries opts ftype title now, (Yaml.mapping fields).get e.key = value e.value []) ∧
      ∀ key, (∀ e ∈ addEntries opts ftype title now, e.key ≠ key) → (Yaml.mapping fields).get key = none := by
  have hblock := isBlock_addEntries hnames h
  have hmore : ∀ e ∈ addEntries opts ftype title now, e.more = [] := by
    intro e he
    obtain ⟨key, -, val, rfl, -⟩ := addEntries_readable h e he
    rfl
  have hvalues : ∀ e ∈ entriesOf ((addEntries opts ftype title now).map .entry), ∃ v, value e.value e.more = some v := by
    rw [entriesOf_map]
    intro e he
    obtain ⟨key, -, val, rfl, -, -, hval⟩ := addEntries_readable h e he
    exact hval
  obtain ⟨fields, hfields⟩ := fieldsOf_eq_some hvalues
  have hlines := linesOf_map hmore
  rw [← hlines]
  refine ⟨isLine_of_mem hblock.wellFormed, fields, hreads.mapping _ _ hblock hfields, fun e he => ?_, fun key hkey => ?_⟩
  · rw [get_entry hfields hblock.nodup (by rwa [entriesOf_map]), hmore e he]
  · exact get_absent hfields (by rwa [entriesOf_map])

-- ---------------------------------------------------------------------------
-- What is given back
-- ---------------------------------------------------------------------------

/-- The strings among the items are all of them if and only if all items are strings. -/
theorem filterMap_strings (hreads : Reads yaml scalar value) (items : List Text) :
    (items.map scalar).filterMap Yaml.asStr = items ↔ ∀ t ∈ items, scalar t = .string t := by
  induction items with
  | nil => simp
  | cons t items ih =>
    rw [List.map_cons, List.forall_mem_cons]
    cases hscalar : (scalar t).asStr with
    | none =>
      rw [List.filterMap_cons_none hscalar]
      constructor
      · intro heq
        have hlen := List.length_filterMap_le Yaml.asStr (items.map scalar)
        rw [heq, List.length_map, List.length_cons] at hlen
        omega
      · rintro ⟨hstring, -⟩
        rw [hstring] at hscalar
        cases hscalar
    | some s =>
      have hstring := asStr_iff.mp hscalar
      obtain rfl := hreads.scalar_string t s hstring
      rw [List.filterMap_cons_some hscalar, List.cons.injEq, ih]
      simp [hstring]

theorem absent_tags {title : Text} (h : (opts "tags").getD [] = []) :
    ∀ e ∈ addEntries opts ftype title now, e.key ≠ "tags".toList := by
  have hne (key : String) (hkey : key.toList ≠ "tags".toList) (text : Text) : (fieldEntry key text).key ≠ "tags".toList := hkey
  unfold addEntries
  simp only [List.forall_mem_append, List.forall_mem_cons, List.not_mem_nil, false_imp_iff, implies_true, and_true]
  refine ⟨⟨⟨⟨⟨hne "type" (by decide) _, hne "title" (by decide) _⟩, ?_⟩, ?_⟩, ?_⟩, hne "status" (by decide) _,
    hne "generated" (by decide) _⟩
  · exact forall_optEntry fun _ => hne "description" (by decide) _
  · exact forall_optEntry fun _ => hne "resource" (by decide) _
  · rw [optEntry, if_pos h]
    exact List.forall_mem_nil _

/-- Plain values come back if and only if they are strings to the reader. -/
theorem givesBack_iff (hreads : Reads yaml scalar value) (hplain : PlainOpts value opts rel)
    (htype : opts.given "type" = some ftype) {fields : List (Yaml × Yaml)}
    (hget : ∀ e ∈ addEntries opts ftype (titleOf opts rel) now, (Yaml.mapping fields).get e.key = value e.value [])
    (habsent : ∀ key, (∀ e ∈ addEntries opts ftype (titleOf opts rel) now, e.key ≠ key) →
      (Yaml.mapping fields).get key = none) :
    GivesBack opts (.mapping fields) ↔ (∀ t, opts "type" = some t → scalar t = .string t) ∧
      (∀ t, opts "title" = some t → scalar t = .string t) ∧
      (∀ t, opts "description" = some t → t ≠ [] → scalar t = .string t) ∧
      ∀ t ∈ Text.entries ((opts "tags").getD []), scalar t = .string t := by
  have hstr {key : String} {t : Text} (he : fieldEntry key t ∈ addEntries opts ftype (titleOf opts rel) now) (ht : Plain t) :
      fmStr (.mapping fields) key = some t ↔ scalar t = .string t := by
    have hfound : (Yaml.mapping fields).get key.toList = some (scalar t) := (hget _ he).trans (hreads.plain t ht)
    rw [fmStr, hfound, Option.bind_some, asStr_iff]
  obtain ⟨hgiven, -⟩ := Option.filter_eq_some_iff.mp htype
  have htype_iff (t : Text) (ht : opts "type" = some t) : fmStr (.mapping fields) "type" = some t ↔ scalar t = .string t := by
    obtain rfl := Option.some.inj (hgiven.symm.trans ht)
    exact hstr (by simp [addEntries]) (hplain.type ftype ht)
  have htitle_iff (t : Text) (ht : opts "title" = some t) : fmStr (.mapping fields) "title" = some t ↔ scalar t = .string t := by
    refine hstr ?_ (hplain.title t ht)
    simp [addEntries, titleOf, ht]
  have hdesc_iff (t : Text) (ht : opts "description" = some t) (hne : t ≠ []) :
      fmStr (.mapping fields) "description" = some t ↔ scalar t = .string t := by
    refine hstr ?_ (hplain.description t ht hne)
    simp [addEntries, optEntry, ht, hne]
  have htags_iff : fmTags (.mapping fields) = Text.entries ((opts "tags").getD []) ↔
      ∀ t ∈ Text.entries ((opts "tags").getD []), scalar t = .string t := by
    by_cases hnone : (opts "tags").getD [] = []
    · have hno : Text.entries [] = [] := by decide
      rw [fmTags, habsent _ (absent_tags hnone), hnone, hno]
      simp
    · have he : fieldEntry "tags" (flowList (Text.entries ((opts "tags").getD []))) ∈
          addEntries opts ftype (titleOf opts rel) now := by
        simp [addEntries, optEntry, hnone]
      have hfound : (Yaml.mapping fields).get "tags".toList =
          some (.sequence ((Text.entries ((opts "tags").getD [])).map scalar)) :=
        (hget _ he).trans (hreads.flowSeq _ hplain.tags)
      rw [fmTags, hfound]
      exact filterMap_strings hreads _
  constructor
  · rintro ⟨htype, htitle, hdesc, htags⟩
    exact ⟨fun t ht => (htype_iff t ht).mp (htype t ht), fun t ht => (htitle_iff t ht).mp (htitle t ht),
      fun t ht hne => (hdesc_iff t ht hne).mp (hdesc t ht hne), htags_iff.mp htags⟩
  · rintro ⟨htype, htitle, hdesc, htags⟩
    exact ⟨fun t ht => (htype_iff t ht).mpr (htype t ht), fun t ht => (htitle_iff t ht).mpr (htitle t ht),
      fun t ht hne => (hdesc_iff t ht hne).mpr (hdesc t ht hne), htags_iff.mpr htags⟩

end

-- ---------------------------------------------------------------------------
-- The file
-- ---------------------------------------------------------------------------

section
variable {env : Env} {lib : List Name} {d : OkfDisk} {opts : Opts} {rel ftype : Text}

/-- What was written is there, with the entry of the log where it is the log. -/
theorem node_written {path : Bytes} {t entry : Text} (hlib : d.node lib = some .dir)
    (hwrite : (d.write lib path env.faults (.text t)).2 = true)
    (hlog : (appendLog env lib (d.write lib path env.faults (.text t)).1 entry).2 = true) :
    let d' := (appendLog env lib (d.write lib path env.faults (.text t)).1 entry).1
    d'.node (placeOf lib path) = some (.file (.text t)) ∨
      d'.node (placeOf lib path) = some (.file (.text (insertLog t ((isoNow env.secs).take 10) entry))) := by
  obtain ⟨hnode, hlib'⟩ := write_text hlib hwrite
  by_cases hplace : placeOf lib path = lib ++ [logMd]
  · rw [hplace] at hnode ⊢
    exact .inr (appendLog_of_text hlib' hlog hnode)
  · exact .inl (by rw [node_appendLog hlib' hplace, hnode])

theorem added_text (hrel : opts.given "path" = some rel) (hlib : d.node lib = some .dir)
    (hok : (cmdAdd env lib opts d).2 = true) :
    ∃ ftype, opts.given "type" = some ftype ∧ statusOf opts ∈ statuses ∧
      ∃ page, (cmdAdd env lib opts d).1.node (placeOf lib (encode rel)) = some (.file (.text page)) ∧
        (page = addDocument opts ftype (titleOf opts rel) (isoNow env.secs) ∨ ∃ entry,
          page = insertLog (addDocument opts ftype (titleOf opts rel) (isoNow env.secs)) ((isoNow env.secs).take 10) entry) := by
  cases htype : opts.given "type" with
  | none =>
    simp only [cmdAdd, hrel, htype] at hok
    cases hok
  | some ftype =>
    refine ⟨ftype, rfl, ?_⟩
    simp only [cmdAdd, hrel, htype] at hok ⊢
    split at hok
    · cases hok
    · rename_i hfree
      rw [if_neg hfree]
      obtain ⟨-, hdirs⟩ := Disk.andThen_ok hok
      rw [hdirs] at hok ⊢
      split at hok
      · rename_i hstatus
        rw [if_pos hstatus]
        obtain ⟨hwrite, hlog⟩ := Disk.andThen_ok hok
        rw [hlog] at hok ⊢
        have hlib' := (Disk.keeps_createDirs d env.faults (startOf lib (encode rel)) (wayTo (encode rel)) lib).there
          (by simp [hlib])
        rw [hlib] at hlib'
        refine ⟨hstatus, ?_⟩
        rcases node_written hlib' hwrite hok with hdoc | hdoc
        · exact ⟨_, hdoc, .inl rfl⟩
        · exact ⟨_, hdoc, .inr ⟨_, rfl⟩⟩
      · cases hok

/-- An added document, with or without an entry of the log, has its frontmatter in front. -/
theorem page_docOf {lines : List Text} {title page today : Text} (hlines : ∀ line ∈ lines, IsLine line ∧ line.head? ≠ some '#')
    (htitle : '\n' ∉ title)
    (hpage : page = docOf lines (addAfter title) ∨ ∃ entry, page = insertLog (docOf lines (addAfter title)) today entry) :
    ∃ after, page = docOf lines after := by
  rcases hpage with rfl | ⟨entry, rfl⟩
  · exact ⟨_, rfl⟩
  · have htail : endMark ++ addAfter title = Text.ofLines ["---".toList, [], '#' :: ' ' :: title, [], []] := by
      simp [endMark, addAfter]
    have hdoc : docOf lines (addAfter title) =
        "---".toList ++ Text.ofLines (lines ++ ["---".toList, [], '#' :: ' ' :: title, [], []]) := by
      rw [docOf, List.append_assoc, htail, Text.ofLines_append]
    have hmark : "\n## ".toList = '\n' :: "## ".toList := rfl
    have hnone : Text.NoneBegins "## ".toList (lines ++ ["---".toList, [], '#' :: ' ' :: title, [], []]) := by
      intro line hline
      rcases List.mem_append.mp hline with hline | hline
      · refine ⟨no_newline (hlines line hline).1.printable, ?_⟩
        rintro ⟨tail, rfl⟩
        exact (hlines _ hline).2 rfl
      · simp only [List.mem_cons, List.not_mem_nil, or_false] at hline
        rcases hline with rfl | rfl | rfl | rfl | rfl
        all_goals simp [htitle]
    have hcut : Text.cut "\n## ".toList (docOf lines (addAfter title)) = none := by
      rw [hdoc, hmark, Text.cut_skip (by decide), Text.cut_none (by decide) hnone]
      rfl
    obtain ⟨extra, hextra⟩ := insertLog_append hcut today entry
    refine ⟨addAfter title ++ extra, ?_⟩
    rw [hextra, docOf, docOf]
    simp only [List.append_assoc]

theorem loadConcept_text {yaml : YamlReader} {d : OkfDisk} {place : List Name} {page : Text}
    (h : d.node (lib ++ place) = some (.file (.text page))) :
    loadConcept (reading yaml) lib d place = parseDoc yaml page := by
  simp only [loadConcept, h, toText_text, reading]
  rfl

end

section
variable {yaml : YamlReader} {scalar : Text → Yaml} {value : Text → List Text → Option Yaml} {env : Env}
  {lib : List Name} {d : OkfDisk} {opts : Opts} {rel : Text}

theorem no_hash {title ftype now : Text} (h : AddReadable value opts ftype title now) :
    ∀ line ∈ (addEntries opts ftype title now).map Entry.line, line.head? ≠ some '#' := by
  intro line hline
  obtain ⟨e, he, rfl⟩ := List.mem_map.mp hline
  obtain ⟨key, hkey, val, rfl, -⟩ := addEntries_readable h e he
  have hall : ∀ key ∈ fieldNames, key.toList ≠ [] ∧ key.toList.head? ≠ some '#' := by decide
  obtain ⟨hne, hhead⟩ := hall key hkey
  have hline : (fieldEntry key val).line.head? = key.toList.head? := List.head?_append_of_ne_nil _ hne
  rwa [hline]

/-- An added concept whose values are plain scalars loads, with the strings among them. -/
theorem added_loads (hreads : Reads yaml scalar value) (hnames : NamesAreStrings scalar)
    (hrel : opts.given "path" = some rel) (hlib : d.node lib = some .dir) (hok : (cmdAdd env lib opts d).2 = true)
    (hplain : PlainOpts value opts rel) :
    ∃ page fm body, (cmdAdd env lib opts d).1.node (placeOf lib (encode rel)) = some (.file (.text page)) ∧
      parseDoc yaml page = some (fm, body) ∧
      (GivesBack opts fm ↔ (∀ t, opts "type" = some t → scalar t = .string t) ∧
        (∀ t, opts "title" = some t → scalar t = .string t) ∧
        (∀ t, opts "description" = some t → t ≠ [] → scalar t = .string t) ∧
        ∀ t ∈ Text.entries ((opts "tags").getD []), scalar t = .string t) := by
  obtain ⟨ftype, htype, hstatus, page, hnode, hpage⟩ := added_text hrel hlib hok
  have hadd := addReadable hreads hnames hplain htype hstatus (isoNow_flowPlain env.secs)
  rw [addDocument_eq hadd.type.2.1 hadd.title.2.1 hadd.status.2.1] at hpage
  obtain ⟨hlines, fields, hyaml, hget, habsent⟩ := read_addEntries hreads hnames hadd
  obtain ⟨after, rfl⟩ := page_docOf (fun line hline => ⟨hlines line hline, no_hash hadd line hline⟩)
    (no_newline hadd.title.1.printable) hpage
  refine ⟨_, .mapping fields, Text.dropStart '\n' after, hnode, ?_, givesBack_iff hreads hplain htype hget habsent⟩
  rw [parseDoc_docOf yaml hlines, hyaml, Option.map_some]

/-- Added concepts whose values are plain scalars on one line conform if and only if
the reader's schema takes the values for strings. -/
theorem added_conformant_iff (hreads : Reads yaml scalar value) (hnames : NamesAreStrings scalar) (env : Env)
    (lib : List Name) (opts : Opts) (d : OkfDisk) (rel : Text) (hrel : opts.given "path" = some rel)
    (hok : (runCommand env lib (.add opts) d).2 = true) (hplain : PlainOpts value opts rel) :
    Conformant yaml lib opts rel (runCommand env lib (.add opts) d).1 ↔ StringOpts scalar lib opts rel := by
  unfold runCommand at hok ⊢
  split at hok
  · rename_i hlib
    rw [if_pos hlib]
    obtain ⟨page, fm, body, hnode, hparse, hback⟩ := added_loads hreads hnames hrel hlib hok hplain
    have hload (front place : List Name) (h : front ++ place = placeOf lib (encode rel)) :
        loadConcept (reading yaml) front (cmdAdd env lib opts d).1 place = some (fm, body) := by
      rw [loadConcept_text (h ▸ hnode), hparse]
    dsimp only
    constructor
    · rintro ⟨⟨fm', body', hfm, hgives⟩, hvalid⟩
      obtain ⟨rfl, rfl⟩ := Prod.mk.inj (Option.some.inj ((hload [] _ rfl).symm.trans hfm))
      obtain ⟨htype, htitle, hdesc, htags⟩ := hback.mp hgives
      refine ⟨htype, fun t ht hleads hblank => ?_, htitle, hdesc, htags⟩
      obtain ⟨c, hplace, hne, htrash, hname⟩ := hleads
      have herror := hvalid c (mem_collectMdFiles.mpr ⟨hne, ⟨_, hplace ▸ hnode⟩, htrash, hname⟩) hplace.symm
      rw [conceptError, hload lib c hplace.symm] at herror
      simp only [hgives.type t ht, hblank] at herror
      exact absurd herror (by decide)
    · rintro ⟨htype, hblank, htitle, hdesc, htags⟩
      have hgives := hback.mpr ⟨htype, htitle, hdesc, htags⟩
      refine ⟨⟨fm, body, hload [] _ rfl, hgives⟩, fun c hc hplace => ?_⟩
      obtain ⟨hne, -, htrash, hname⟩ := mem_collectMdFiles.mp hc
      obtain ⟨ftype, htypes, -⟩ := added_text hrel hlib hok
      obtain ⟨hgiven, -⟩ := Option.filter_eq_some_iff.mp htypes
      have hnot := hblank ftype hgiven ⟨c, hplace.symm, hne, htrash, hname⟩
      rw [conceptError, hload lib c hplace]
      simp only [hgives.type ftype hgiven]
      exact decide_eq_false hnot
  · cases hok

end

/-- Options by their names. -/
def someOpts (given : List (String × String)) : Opts := fun key => (given.lookup key).map String.toList

def usersOpts : Opts := someOpts [("path", "users.md"), ("type", "Metric"), ("title", "Weekly users"),
  ("description", "Users seen in a week (UTC)"), ("tags", "growth, usage")]

theorem coreScalar_names : NamesAreStrings coreScalar := by
  have hall : ∀ key ∈ fieldNames, (coreScalar key.toList).asStr = some key.toList := by decide
  exact fun key hkey => asStr_iff.mp (hall key hkey)

theorem added_conformant_users :
    Conformant readBlock [] usersOpts "users.md".toList (runCommand .quiet [] (.add usersOpts) .bare).1 := by
  have hstring {key : String} {t : Text} (h : (usersOpts key).all fun t => (coreScalar t).asStr = some t)
      (ht : usersOpts key = some t) : coreScalar t = .string t := by
    rw [ht] at h
    exact asStr_iff.mp (by simpa using h)
  have hplain {key : String} {t : Text} (h : (usersOpts key).all fun t => Plain t) (ht : usersOpts key = some t) :
      Plain t := by
    rw [ht] at h
    simpa using h
  have htags : ∀ t ∈ Text.entries ((usersOpts "tags").getD []), FlowPlain t ∧ (coreScalar t).asStr = some t := by decide
  refine (added_conformant_iff readBlock_reads coreScalar_names .quiet [] usersOpts .bare "users.md".toList (by decide)
    (by decide +kernel) ⟨fun t => hplain (by decide), fun t => hplain (by decide), fun h => ?_,
      fun t ht _ => hplain (by decide) ht, fun t h => ?_, fun t ht => (htags t ht).1⟩).mpr
    ⟨fun t => hstring (by decide), fun t ht _ => ?_, fun t => hstring (by decide), fun t ht _ => hstring (by decide) ht,
      fun t ht => asStr_iff.mp (htags t ht).2⟩
  · cases h
  · cases h
  · cases ht
    decide

/-- A type that is a number to the reader does not come back. -/
theorem number_type_lost : ¬ ∀ (yaml : YamlReader) (scalar : Text → Yaml) (value : Text → List Text → Option Yaml),
    Reads yaml scalar value → NamesAreStrings scalar →
    ∀ (env : Env) (lib : List Name) (opts : Opts) (d : OkfDisk) (rel : Text), opts.given "path" = some rel →
      (runCommand env lib (.add opts) d).2 = true →
      Conformant yaml lib opts rel (runCommand env lib (.add opts) d).1 := by
  intro h
  let opts := someOpts [("path", "a.md"), ("type", "5")]
  obtain ⟨fm, body, hload, hback⟩ := (h readBlock coreScalar readValue readBlock_reads coreScalar_names .quiet [] opts
    .bare "a.md".toList (by decide) (by decide +kernel)).loads
  have hlost : ((loadConcept (reading readBlock) [] (runCommand .quiet [] (.add opts) .bare).1
      (placeOf [] (encode "a.md".toList))).bind fun c => fmStr c.1 "type") = none := by decide +kernel
  rw [hload, Option.bind_some, hback.type "5".toList (by decide)] at hlost
  cases hlost

end Nsmt.Okf
