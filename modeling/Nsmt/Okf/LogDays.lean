import Nsmt.Lib.Runs
import Nsmt.Okf.Calendar
import Nsmt.Okf.Log

/-!
# The days of a log

`append_log` looks for the heading of a day as a part of the text. `log_grouped` says
that the log has its entries under their days as long as the heading is not found at
the end of another line.
-/

namespace Nsmt.Okf

open Nsmt.Lib Nsmt.Lib.Utf8 Nsmt.Lib.UnixPaths Nsmt.Lib.Dirs

def titleLine : Text := "# Directory Update Log".toList

def headingLine (date : Text) : Text := "## ".toList ++ date

def entryLine (entry : Text) : Text := "* ".toList ++ entry

/-- A call of `append_log` at some time, with an entry of one line. -/
structure Append where
  env : Env
  entry : Text
  oneLine : '\n' ∉ entry

def Append.date (call : Append) : Text := dateText (dateAt call.env.secs)

/-- The entries of a day, in the order of the calls. -/
def entriesOn (calls : List Append) (date : Text) : List Text :=
  (calls.filter fun call => call.date = date).map Append.entry

/-- But for empty lines the log is its title and every day that was used, once, with its
entries. -/
def Grouped (calls : List Append) (log : Text) : Prop :=
  ∃ dates : List Text, dates.Nodup ∧ (∀ date, date ∈ dates ↔ ∃ call ∈ calls, call.date = date) ∧
    ((log.splitOn '\n').filter fun line => line ≠ []) =
      titleLine :: dates.flatMap fun date => headingLine date :: (entriesOn calls date).map entryLine

def appendStep (lib : List Name) (d : OkfDisk) (call : Append) : OkfDisk := (appendLog call.env lib d call.entry).1

def logOf (lib : List Name) (d : OkfDisk) : Option Text :=
  match d.node (lib ++ [logMd]) with
  | some (.file page) => page.toText
  | _ => none

/-- The first line that ends with the heading of the day, if there is one, is nothing but
the heading. -/
def HeadingFirst (log date : Text) : Prop :=
  ∀ line ∈ (log.splitOn '\n').find? fun line => headingLine date <:+ line, line = headingLine date

instance (log date : Text) : Decidable (HeadingFirst log date) := inferInstanceAs (Decidable (∀ _ ∈ List.find? _ _, _))

/-- The year has four digits, and the heading of the day is not found in another line. -/
def FindsItsDay (lib : List Name) (d : OkfDisk) (call : Append) : Prop :=
  (dateAt call.env.secs).1 ≤ 9999 ∧ ∀ log ∈ logOf lib d, HeadingFirst log call.date

instance (lib : List Name) (d : OkfDisk) (call : Append) : Decidable (FindsItsDay lib d call) :=
  inferInstanceAs (Decidable (_ ∧ _))

-- ---------------------------------------------------------------------------
-- A log by its days
-- ---------------------------------------------------------------------------

/-- A day with its entries. -/
abbrev Day := Text × List Text

def dayLines (day : Day) : List Text := [] :: headingLine day.1 :: day.2.map entryLine

def linesOfDays (days : List Day) : List Text := titleLine :: [] :: days.flatMap dayLines

def OneLined (days : List Day) : Prop := ∀ day ∈ days, '\n' ∉ day.1 ∧ ∀ entry ∈ day.2, '\n' ∉ entry

section
variable {days before after : List Day} {date entry : Text} {entries : List Text}

theorem no_newline_headingLine (h : '\n' ∉ date) : '\n' ∉ headingLine date := by
  rw [headingLine, List.mem_append, not_or]
  exact ⟨by decide, h⟩

theorem no_newline_entryLine (h : '\n' ∉ entry) : '\n' ∉ entryLine entry := by
  rw [entryLine, List.mem_append, not_or]
  exact ⟨by decide, h⟩

theorem mem_dayLines {day : Day} {line : Text} : line ∈ dayLines day ↔
    line = [] ∨ line = headingLine day.1 ∨ ∃ entry ∈ day.2, entryLine entry = line := by
  rw [dayLines, List.mem_cons, List.mem_cons, List.mem_map]

theorem mem_linesOfDays {line : Text} : line ∈ linesOfDays days ↔
    line = titleLine ∨ line = [] ∨ ∃ day ∈ days, line ∈ dayLines day := by
  rw [linesOfDays, List.mem_cons, List.mem_cons, List.mem_flatMap]

theorem OneLined.no_newline (h : OneLined days) : ∀ line ∈ linesOfDays days, '\n' ∉ line := by
  intro line hline
  rcases mem_linesOfDays.mp hline with rfl | rfl | ⟨day, hday, hline⟩
  · decide
  · exact List.not_mem_nil
  · obtain ⟨hdate, hentries⟩ := h day hday
    rcases mem_dayLines.mp hline with rfl | rfl | ⟨entry, hentry, rfl⟩
    · exact List.not_mem_nil
    · exact no_newline_headingLine hdate
    · exact no_newline_entryLine (hentries entry hentry)

theorem headingLine_inj {date' : Text} (h : headingLine date = headingLine date') : date = date' :=
  List.append_cancel_left h

/-- The heading of a day is there only if the day is. -/
theorem mem_dates (h : headingLine date ∈ linesOfDays days) : date ∈ days.map Prod.fst := by
  rcases mem_linesOfDays.mp h with heq | heq | ⟨day, hday, hline⟩
  · exact absurd (List.cons.inj (List.cons.inj heq).2).1 (by decide)
  · cases heq
  · rcases mem_dayLines.mp hline with heq | heq | ⟨entry, -, heq⟩
    · cases heq
    · exact List.mem_map.mpr ⟨day, hday, (headingLine_inj heq).symm⟩
    · exact absurd (List.cons.inj heq).1 (by decide)

-- ---------------------------------------------------------------------------
-- Inserting
-- ---------------------------------------------------------------------------

/-- A heading that is found first in no other line is found where it is. -/
theorem not_suffix_of_first {pre post : List Text}
    (hfirst : ∀ line ∈ (pre ++ post).find? fun line => headingLine date <:+ line, line = headingLine date)
    (hnot : headingLine date ∉ pre) : ∀ line ∈ pre, ¬ headingLine date <:+ line := by
  intro line hline hsuffix
  cases hfound : pre.find? fun line => headingLine date <:+ line with
  | none =>
    have hnone := List.find?_eq_none.mp hfound line hline
    simp [hsuffix] at hnone
  | some found =>
    rw [List.find?_append, hfound, Option.some_or] at hfirst
    exact hnot (hfirst found rfl ▸ List.mem_of_find?_eq_some hfound)

/-- Behind a day comes nothing, or the heading of the next one. -/
theorem breaks_days : Text.Breaks (Text.ended (days.flatMap dayLines)) := by
  cases days with
  | nil => exact fun c hc => nomatch hc
  | cons day days => exact Text.breaks_newline

theorem noneBegins_entries (h : ∀ entry ∈ entries, '\n' ∉ entry) :
    Text.NoneBegins "## ".toList (entries.map entryLine) := by
  intro line hline
  obtain ⟨entry, hentry, rfl⟩ := List.mem_map.mp hline
  refine ⟨no_newline_entryLine (h entry hentry), fun hle => ?_⟩
  exact absurd (List.cons_prefix_cons.mp hle).1 (by decide)

theorem marker_eq (date : Text) : "## ".toList ++ date ++ "\n".toList = headingLine date ++ ['\n'] := rfl

/-- The text in front of an entry, up to its day. -/
theorem cut_marker {pre : List Text} {rest : Text} (hdate : '\n' ∉ date)
    (h : ∀ line ∈ pre, '\n' ∉ line ∧ ¬ headingLine date <:+ line) :
    Text.cut (headingLine date ++ ['\n']) (Text.ended pre ++ (headingLine date ++ '\n' :: rest)) =
      some (Text.ended pre, rest) := by
  have hhere : Text.cut (headingLine date ++ ['\n']) (headingLine date ++ '\n' :: rest) = some ([], rest) := by
    have hsplit : headingLine date ++ '\n' :: rest = (headingLine date ++ ['\n']) ++ rest := by simp
    rw [hsplit, Text.cut_front (List.prefix_append ..), List.drop_left]
  rw [Text.cut_ended (no_newline_headingLine hdate) (by simp [headingLine]) h, hhere]
  simp

/-- An entry of a day that is there comes behind the others of the day. -/
theorem insertLog_day (hlines : OneLined (before ++ (date, entries) :: after))
    (hfirst : HeadingFirst (Text.ended (linesOfDays (before ++ (date, entries) :: after))) date)
    (hnot : date ∉ before.map Prod.fst) :
    insertLog (Text.ended (linesOfDays (before ++ (date, entries) :: after))) date entry =
      Text.ended (linesOfDays (before ++ (date, entries ++ [entry]) :: after)) := by
  have hsplit (entries : List Text) : linesOfDays (before ++ (date, entries) :: after) =
      (linesOfDays before ++ [[]]) ++ (headingLine date :: (entries.map entryLine ++ after.flatMap dayLines)) := by
    simp [linesOfDays, dayLines]
  have htext (entries : List Text) : Text.ended (linesOfDays (before ++ (date, entries) :: after)) =
      Text.ended (linesOfDays before ++ [[]]) ++ (headingLine date ++ '\n' ::
        (Text.ended (entries.map entryLine) ++ Text.ended (after.flatMap dayLines))) := by
    rw [hsplit, Text.ended_append, Text.ended_cons, Text.ended_append (entries.map entryLine)]
  obtain ⟨hdate, hentries⟩ := hlines (date, entries) (by simp)
  have hpre : ∀ line ∈ linesOfDays before ++ [[]], '\n' ∉ line ∧ ¬ headingLine date <:+ line := by
    rw [HeadingFirst, Text.splitOn_ended hlines.no_newline, hsplit, List.append_assoc] at hfirst
    have hsuffix := not_suffix_of_first hfirst fun hmem => by
      rcases List.mem_append.mp hmem with hmem | hmem
      · exact hnot (mem_dates hmem)
      · cases List.mem_singleton.mp hmem
    intro line hline
    refine ⟨?_, hsuffix line hline⟩
    refine hlines.no_newline line ?_
    rw [hsplit]
    exact List.mem_append_left _ hline
  rw [htext, htext, insertLog, marker_eq]
  simp only [cut_marker hdate hpre]
  have hmark : "\n## ".toList = '\n' :: "## ".toList := rfl
  rw [hmark, Text.cut_begin (by decide) (by decide) (noneBegins_entries hentries) breaks_days]
  cases after with
  | nil =>
    simp [Text.cut, Text.ended_append, entryLine, logLine]
  | cons day after =>
    have hnext : Text.ended ((day :: after).flatMap dayLines) = ('\n' :: "## ".toList) ++
        (day.1 ++ '\n' :: Text.ended (day.2.map entryLine ++ after.flatMap dayLines)) := by
      simp [dayLines, headingLine, Text.ended_append]
    rw [hnext, Text.cut_front (List.prefix_append ..), List.drop_left]
    simp [Text.ended_append, entryLine, logLine]

/-- An entry of a new day comes behind everything. -/
theorem insertLog_new (hlines : OneLined days) (hdate : '\n' ∉ date)
    (hfirst : HeadingFirst (Text.ended (linesOfDays days)) date) (hnot : date ∉ days.map Prod.fst) :
    insertLog (Text.ended (linesOfDays days)) date entry = Text.ended (linesOfDays (days ++ [(date, [entry])])) := by
  have hpre : ∀ line ∈ linesOfDays days, '\n' ∉ line ∧ ¬ headingLine date <:+ line := by
    rw [HeadingFirst, Text.splitOn_ended hlines.no_newline] at hfirst
    exact fun line hline => ⟨hlines.no_newline line hline,
      not_suffix_of_first hfirst (fun hmem => hnot (mem_dates hmem)) line hline⟩
  have hcut : Text.cut (headingLine date ++ ['\n']) (Text.ended (linesOfDays days)) = none := by
    have hnil : Text.cut (headingLine date ++ ['\n']) [] = none := by simp [Text.cut]
    rw [← List.append_nil (Text.ended _), Text.cut_ended (no_newline_headingLine hdate) (by simp [headingLine]) hpre,
      hnil]
    rfl
  rw [insertLog, marker_eq]
  simp only [hcut]
  simp [linesOfDays, dayLines, Text.ended_append, entryLine, logLine]

theorem filter_linesOfDays : (linesOfDays days ++ [[]]).filter (fun line => line ≠ []) =
    titleLine :: days.flatMap fun day => headingLine day.1 :: day.2.map entryLine := by
  have hentries (entries : List Text) : (entries.map entryLine).filter (fun line => line ≠ []) = entries.map entryLine := by
    refine List.filter_eq_self.mpr fun line hline => ?_
    obtain ⟨entry, -, rfl⟩ := List.mem_map.mp hline
    rfl
  have hday (day : Day) : (dayLines day).filter (fun line => line ≠ []) = headingLine day.1 :: day.2.map entryLine := by
    rw [dayLines, List.filter_cons_of_neg (by simp), List.filter_cons_of_pos (by simp [headingLine]), hentries]
  rw [linesOfDays, List.filter_append, List.filter_cons_of_pos (by decide), List.filter_cons_of_neg (by simp),
    List.filter_flatMap]
  simp only [hday]
  simp

end

-- ---------------------------------------------------------------------------
-- Runs
-- ---------------------------------------------------------------------------

section
variable {lib : List Name} {d : OkfDisk} {calls : List Append} {call : Append} {dates : List Text} {date : Text}

def daysOf (calls : List Append) (dates : List Text) : List Day := dates.map fun date => (date, entriesOn calls date)

/-- The library is there, and its log has the entries of the calls by their days. -/
def IsLog (lib : List Name) (calls : List Append) (d : OkfDisk) : Prop :=
  d.node lib = some .dir ∧ ∃ dates : List Text, dates.Nodup ∧
    (∀ date, date ∈ dates ↔ ∃ call ∈ calls, call.date = date) ∧ (∀ date ∈ dates, '\n' ∉ date) ∧
    d.node (lib ++ [logMd]) = some (.file (.text (Text.ended (linesOfDays (daysOf calls dates)))))

theorem oneLined_daysOf (h : ∀ date ∈ dates, '\n' ∉ date) : OneLined (daysOf calls dates) := by
  intro day hday
  obtain ⟨date, hdate, rfl⟩ := List.mem_map.mp hday
  refine ⟨h date hdate, fun entry hentry => ?_⟩
  obtain ⟨call, -, rfl⟩ := List.mem_map.mp hentry
  exact call.oneLine

theorem map_fst_daysOf : (daysOf calls dates).map Prod.fst = dates := by
  simp [daysOf, Function.comp_def]

theorem entriesOn_own : entriesOn (calls ++ [call]) call.date = entriesOn calls call.date ++ [call.entry] := by
  simp [entriesOn]

theorem entriesOn_other (h : call.date ≠ date) : entriesOn (calls ++ [call]) date = entriesOn calls date := by
  simp [entriesOn, h]

/-- The days without that of the call stay as they are. -/
theorem daysOf_other (h : call.date ∉ dates) : daysOf (calls ++ [call]) dates = daysOf calls dates :=
  List.map_congr_left fun date hdate => by rw [entriesOn_other fun heq => h (heq ▸ hdate)]

theorem no_newline_date (h : (dateAt call.env.secs).1 ≤ 9999) : '\n' ∉ call.date := by
  obtain ⟨y1, y2, y3, y4, m1, m2, d1, d2, hdate, hdigits⟩ := dateText_dateAt h
  rw [Append.date, hdate]
  intro hmem
  have hline : '\n' ∈ [y1, y2, y3, y4, m1, m2, d1, d2] := by simpa using hmem
  exact absurd (hdigits _ hline) (by decide)

theorem logOf_text {t : Text} (h : d.node (lib ++ [logMd]) = some (.file (.text t))) : logOf lib d = some t := by
  rw [logOf, h]
  exact toText_text t

theorem IsLog.grouped (h : IsLog lib calls d) : ∃ log, logOf lib d = some log ∧ Grouped calls log := by
  obtain ⟨-, dates, hnodup, hdates, hlines, hnode⟩ := h
  refine ⟨_, logOf_text hnode, dates, hnodup, hdates, ?_⟩
  rw [Text.splitOn_ended (oneLined_daysOf hlines).no_newline, filter_linesOfDays, daysOf, List.flatMap_map]

/-- A call that finds its day puts its entry there. -/
theorem IsLog.append (h : IsLog lib calls d) (hok : (appendLog call.env lib d call.entry).2 = true)
    (hfinds : FindsItsDay lib d call) : IsLog lib (calls ++ [call]) (appendStep lib d call) := by
  obtain ⟨hlib, dates, hnodup, hdates, hlines, hnode⟩ := h
  have hdate := no_newline_date hfinds.1
  have hfirst := hfinds.2 _ (logOf_text hnode)
  have hlog := appendLog_of_text hlib hok hnode
  rw [take_isoNow hfinds.1] at hlog
  have hlib' : (appendStep lib d call).node lib = some .dir := by
    rw [appendStep, node_appendLog hlib (by simp), hlib]
  have hmem (date : Text) : (∃ c ∈ calls ++ [call], c.date = date) ↔ date ∈ dates ∨ date = call.date := by
    rw [hdates]
    simp [or_and_right, exists_or, eq_comm]
  by_cases hthere : call.date ∈ dates
  · refine ⟨hlib', dates, hnodup, fun date => ?_, hlines, ?_⟩
    · rw [hmem]
      exact ⟨.inl, fun hor => hor.elim (fun hin => hin) fun heq => heq ▸ hthere⟩
    · obtain ⟨before, after, rfl⟩ := List.append_of_mem hthere
      obtain ⟨-, hnodup', hapart⟩ := List.nodup_append.mp hnodup
      have hbefore : call.date ∉ before := fun hin => hapart _ hin _ (List.mem_cons_self ..) rfl
      have hsplit : daysOf calls (before ++ call.date :: after) =
          daysOf calls before ++ (call.date, entriesOn calls call.date) :: daysOf calls after := by
        simp [daysOf]
      rw [hsplit] at hfirst hlog
      have hwhole : OneLined (daysOf calls (before ++ call.date :: after)) := oneLined_daysOf hlines
      rw [hsplit] at hwhole
      rw [appendStep, hlog, ← Append.date,
        insertLog_day hwhole hfirst (by rwa [map_fst_daysOf]), ← entriesOn_own,
        ← daysOf_other hbefore, ← daysOf_other (List.nodup_cons.mp hnodup').1]
      simp [daysOf]
  · refine ⟨hlib', dates ++ [call.date], ?_, fun date => ?_, ?_, ?_⟩
    · exact List.nodup_append.mpr ⟨hnodup, List.nodup_singleton _, fun a ha b hb heq =>
        hthere (List.mem_singleton.mp hb ▸ heq ▸ ha)⟩
    · rw [hmem, List.mem_append, List.mem_singleton]
    · intro date hin
      rcases List.mem_append.mp hin with hin | hin
      · exact hlines date hin
      · rw [List.mem_singleton.mp hin]
        exact hdate
    · have hnone : entriesOn calls call.date = [] := by
        rw [entriesOn, List.map_eq_nil_iff, List.filter_eq_nil_iff]
        intro c hc heq
        exact hthere ((hdates _).mpr ⟨c, hc, by simpa using heq⟩)
      have hnew : daysOf (calls ++ [call]) (dates ++ [call.date]) = daysOf calls dates ++ [(call.date, [call.entry])] := by
        rw [daysOf, List.map_append, ← daysOf, daysOf_other hthere, List.map_singleton, entriesOn_own, hnone,
          List.nil_append]
      rw [appendStep, hlog, hnew, ← Append.date,
        insertLog_new (oneLined_daysOf hlines) hdate hfirst (by rwa [map_fst_daysOf])]

theorem isLog_new (hlib : d.node lib = some .dir) (hlog : d.node (lib ++ [logMd]) = some (.file (.text logHead))) :
    IsLog lib [] d :=
  ⟨hlib, [], List.nodup_nil, by simp, by simp, hlog⟩

theorem isLog_run (hnew : IsLog lib [] d)
    (hok : AllSteps (appendStep lib) (fun d call => (appendLog call.env lib d call.entry).2 = true) d calls)
    (hfinds : AllSteps (appendStep lib) (FindsItsDay lib) d calls) : IsLog lib calls (run (appendStep lib) d calls) := by
  induction calls using List.reverseRecOn with
  | nil => exact hnew
  | append_singleton calls call ih =>
    obtain ⟨hok, hlast, -⟩ := AllSteps.append.mp hok
    obtain ⟨hfinds, hday, -⟩ := AllSteps.append.mp hfinds
    rw [run_append]
    exact (ih hok hfinds).append hlast hday

/-- While every call finds the heading of its day in no other line, the log of a new
library has all entries by their days. -/
theorem log_grouped (lib : List Name) (d : OkfDisk) (hlib : d.node lib = some .dir)
    (hlog : d.node (lib ++ [logMd]) = some (.file (.text logHead))) (calls : List Append)
    (hok : AllSteps (appendStep lib) (fun d call => (appendLog call.env lib d call.entry).2 = true) d calls)
    (hfinds : AllSteps (appendStep lib) (FindsItsDay lib) d calls) :
    ∀ before after, calls = before ++ after →
      ∃ log, logOf lib (run (appendStep lib) d before) = some log ∧ Grouped before log := by
  rintro before after rfl
  exact (isLog_run (isLog_new hlib hlog) (AllSteps.append.mp hok).1 (AllSteps.append.mp hfinds).1).grouped

end

/-- A call at the beginning of some day after 1970-01-01. -/
def appendAt (day : Nat) (entry : String) (h : '\n' ∉ entry.toList) : Append where
  env := { Env.quiet with secs := 86400 * day }
  entry := entry.toList
  oneLine := h

/-- A library with a new log. -/
def loggedDisk : OkfDisk := ((Disk.bare).write [] logMd .none (.text logHead)).1

/-- The clock goes back to the first day. -/
theorem log_grouped_back : ∃ log, logOf [] (run (appendStep []) loggedDisk [appendAt 0 "a" (by decide),
      appendAt 1 "b" (by decide), appendAt 0 "c" (by decide)]) = some log ∧
    Grouped [appendAt 0 "a" (by decide), appendAt 1 "b" (by decide), appendAt 0 "c" (by decide)] log := by
  refine log_grouped [] loggedDisk rfl rfl _ ?_ ?_ _ [] (List.append_nil _).symm
  · decide +kernel
  · decide +kernel

/-- An entry that ends with the heading of a day takes the entries of the day. -/
theorem day_in_an_entry : ¬ ∀ (lib : List Name) (d : OkfDisk), d.node lib = some .dir →
    d.node (lib ++ [logMd]) = some (.file (.text logHead)) → ∀ calls : List Append,
      AllSteps (appendStep lib) (fun d call => (appendLog call.env lib d call.entry).2 = true) d calls →
      ∀ before after, calls = before ++ after →
        ∃ log, logOf lib (run (appendStep lib) d before) = some log ∧ Grouped before log := by
  intro h
  let calls := [appendAt 0 "moved to ## 1970-01-02" (by decide), appendAt 1 "b" (by decide)]
  obtain ⟨log, hlog, dates, -, hdates, hlines⟩ := h [] loggedDisk rfl rfl calls (by decide +kernel) calls []
    (List.append_nil _).symm
  have hdate : "1970-01-02".toList ∈ dates := (hdates _).mpr ⟨_, .tail _ (.head _), by decide⟩
  have hheading : "## 1970-01-02".toList ∈ log.splitOn '\n' := by
    refine List.mem_of_mem_filter (p := fun line => line ≠ []) ?_
    rw [hlines]
    exact List.mem_cons_of_mem _ (List.mem_flatMap.mpr ⟨_, hdate, List.mem_cons_self ..⟩)
  have hnot : (logOf [] (run (appendStep []) loggedDisk calls)).all fun log => "## 1970-01-02".toList ∉ log.splitOn '\n' := by
    decide +kernel
  rw [hlog, Option.all_some] at hnot
  exact absurd hheading (of_decide_eq_true hnot)

end Nsmt.Okf
