import Mathlib
import Reprint.Proofs.Jobs
/-!
What a run does to files. All jobs are done before the first file is written, and each file that is written could be
read, so all writes succeed (`reportAll_run`). Two writes to one file write the same text (`writes_congr`), so neither
the order of paths nor how often they are given shows in the files, and the numbers of the report are sums over the
jobs, which have no order (`ofReports_perm`). Main statement: what a run in order does to files, how it ends, and that
the order of its paths does not matter.
-/

namespace Reprint

namespace Disk
variable {d d' : Disk}

theorem run_write {path new : Text} (h : d.write path new = .ok d') :
    d.run (FileSystem.write path new) = (.ok (), d') := by
  refine (run_bind d get _).trans ?_
  simp only [show d.run get = (d, d) from rfl, h]
  rfl

end Disk

/-! ### Reports in turn -/

/-- A job with its answer. -/
abbrev Result := Job × Except ProcessError Processed

namespace Result

/-- The path and the text that a job wants written. -/
def write? (x : Result) : Option (Text × Text) := do
  let p ← x.2.toOption
  let new ← p.new
  return (x.1.source, new)

/-- What the report says of a job. -/
def fileReport (x : Result) : FileReport :=
  match x.2 with
  | .error e => { path := x.1.source, error := some e.message }
  | .ok p =>
    match p.new with
    | none => { path := x.1.source, warnings := p.warnings }
    | some _ => { path := x.1.source, edits := p.edits, warnings := p.warnings }

/-- The report with one more job. -/
def addTo (fix : Bool) (r : Report) (x : Result) : Report :=
  match x.2 with
  | .error e => r.fail x.1.source e.message
  | .ok p =>
    match p.new with
    | none => r.skip x.1.source p.warnings
    | some new =>
      if fix then r.fix x.1.source p.edits p.warnings else r.check x.1.source p.edits p.warnings p.old new

/-- What is written for some jobs. -/
def writes (fix : Bool) (xs : List Result) : List (Text × Text) := if fix then xs.filterMap write? else []

end Result

theorem Report.summary_printLines (r : Report) (lines : List Text) : (r.printLines lines).summary = r.summary := by
  unfold printLines
  induction lines generalizing r with
  | nil => rfl
  | cons line lines ih => exact ih (r.printLine line)

/-- Whatever is printed on the way, one more file is counted. -/
theorem Result.summary_addTo (fix : Bool) (r : Report) (x : Result) :
    (addTo fix r x).summary = r.summary.add x.fileReport := by
  obtain ⟨job, _ | p⟩ := x
  · unfold addTo fileReport Report.fail
    dsimp only
    split <;> rfl
  · unfold addTo fileReport
    dsimp only
    cases p.new with
    | none =>
      unfold Report.skip
      dsimp only
      split <;> rfl
    | some new =>
      cases fix with
      | true =>
        show (Report.fix ..).summary = _
        unfold Report.fix
        cases r.format <;> simp [Report.add, Report.summary_printLines]
      | false =>
        show (Report.check ..).summary = _
        unfold Report.check
        cases r.format <;> simp [Report.add, Report.summary_printLines]
        rfl

namespace Command
open Disk

/-- A job is reported, and its text is written if that is asked for. -/
theorem reportOn_run {fix : Bool} {d : Disk} (r : Report) (x : Result) (h : ∀ w ∈ Result.writes fix [x], d.IsFile w.1) :
    d.run (reportOn fix r x.1.source x.2) = (.ok (x.addTo fix r), d.written (Result.writes fix [x])) := by
  obtain ⟨job, _ | ⟨edits, warnings, old, _ | new⟩⟩ := x
  · cases fix <;> rfl
  · cases fix <;> rfl
  · cases fix with
    | false => rfl
    | true =>
      -- The source is a file, so the write does not fail.
      obtain ⟨location, t, hpath, htext⟩ := h (job.source, new) (List.mem_cons_self ..)
      obtain ⟨d', hwrite, -⟩ := write_ok hpath htext new
      have hwritten : d.written (Result.writes true [(job, .ok ⟨edits, warnings, old, some new⟩)]) = d' := by
        show (d.write job.source new).toOption.getD d = d'
        rw [hwrite]
        rfl
      rw [hwritten]
      refine (Disk.run_bind d (FileSystem.write job.source new) _).trans ?_
      rw [run_write hwrite]
      rfl

theorem reportAll_run {fix : Bool} {d : Disk} (r : Report) (xs : List Result)
    (h : ∀ w ∈ Result.writes fix xs, d.IsFile w.1) :
    d.run (reportAll fix r xs) = ((xs.foldl (Result.addTo fix) r, none), d.written (Result.writes fix xs)) := by
  induction xs generalizing r d with
  | nil => cases fix <;> rfl
  | cons x xs ih =>
    have hcons : Result.writes fix (x :: xs) = Result.writes fix [x] ++ Result.writes fix xs := by
      cases fix with
      | false => rfl
      | true => exact List.filterMap_append (l := [x])
    rw [hcons] at h ⊢
    have hfirst : ∀ w ∈ Result.writes fix [x], d.IsFile w.1 := fun w hw => h w (List.mem_append_left _ hw)
    have hrest : ∀ w ∈ Result.writes fix xs, (d.written (Result.writes fix [x])).IsFile w.1 := fun w hw =>
      (overwrites_written hfirst).sameFiles.isFile (h w (List.mem_append_right _ hw))
    rw [reportAll, Disk.run_bind, reportOn_run r x hfirst, written_append]
    exact ih (x.addTo fix r) hrest

end Command

/-! ### Numbers -/

namespace Summary

/-- The numbers of some files. -/
def ofReports (l : List FileReport) : Summary := l.foldl add {}

theorem add_right_comm (s : Summary) (f g : FileReport) : (s.add f).add g = (s.add g).add f := by
  simp only [add, Nat.add_right_comm]

/-- The numbers have no order. -/
theorem ofReports_perm {l l' : List FileReport} (h : l.Perm l') : ofReports l = ofReports l' := by
  have : RightCommutative add := ⟨add_right_comm⟩
  exact h.foldl_eq ({} : Summary)

theorem errors_foldl (s : Summary) (l : List FileReport) :
    (l.foldl add s).errors = s.errors + l.countP (·.error.isSome) := by
  induction l generalizing s with
  | nil => rfl
  | cons f l ih =>
    simp only [List.foldl_cons, ih, List.countP_cons, add]
    omega

theorem changed_foldl (s : Summary) (l : List FileReport) :
    (l.foldl add s).changed = s.changed + l.countP (!·.edits.isEmpty) := by
  induction l generalizing s with
  | nil => rfl
  | cons f l ih =>
    simp only [List.foldl_cons, ih, List.countP_cons, add]
    cases f.edits.isEmpty <;> simp
    omega

theorem errors_pos_iff {l : List FileReport} : 0 < (ofReports l).errors ↔ ∃ f ∈ l, f.error.isSome := by
  rw [ofReports, errors_foldl, Nat.zero_add, List.countP_pos_iff]

theorem changed_pos_iff {l : List FileReport} : 0 < (ofReports l).changed ↔ ∃ f ∈ l, f.edits ≠ [] := by
  rw [ofReports, changed_foldl, Nat.zero_add, List.countP_pos_iff]
  simp

end Summary

/-! ### Whole runs -/

namespace Job

/-- The job ends with a fault. -/
def Faulty (style : RunStyle) (d : Disk) (job : Job) : Prop := ∃ e, job.outcome style d = .error e

/-- The job finds something to change. -/
def Changes (style : RunStyle) (d : Disk) (job : Job) : Prop := ∃ p, job.outcome style d = .ok p ∧ p.edits ≠ []

/-- A job with its answer on a disk. -/
def result (style : RunStyle) (d : Disk) (job : Job) : Result := (job, job.outcome style d)

variable {style : RunStyle} {d : Disk} {job : Job}

theorem write?_result {w : Text × Text} : (job.result style d).write? = some w ↔
    ∃ p, job.outcome style d = .ok p ∧ p.edits ≠ [] ∧ p.new = some w.2 ∧ job.source = w.1 := by
  constructor
  · intro h
    obtain ⟨p, hp, h⟩ := Option.bind_eq_some_iff.mp h
    obtain ⟨new, hnew, h⟩ := Option.bind_eq_some_iff.mp h
    cases h
    have hp := toOption_eq_some_iff.mp hp
    obtain ⟨-, -, -, -, -, ⟨-, hnone⟩ | ⟨-, hne, -⟩⟩ := outcome_inv hp
    · cases hnone.symm.trans hnew
    · exact ⟨p, hp, hne, hnew, rfl⟩
  · rintro ⟨p, hp, -, hnew, hsource⟩
    rw [Result.write?, result, hp]
    simp [Except.toOption, hnew, hsource]

theorem error_fileReport : (job.result style d).fileReport.error.isSome ↔ job.Faulty style d := by
  unfold Faulty Result.fileReport result
  rcases job.outcome style d with e | p
  · simp
  · dsimp only
    cases p.new <;> simp

theorem edits_fileReport : (job.result style d).fileReport.edits ≠ [] ↔ job.Changes style d := by
  unfold Changes Result.fileReport result
  rcases hp : job.outcome style d with e | p
  · simp
  · obtain ⟨-, -, -, -, -, ⟨hedits, hnew⟩ | ⟨new, -, -, hnew⟩⟩ := outcome_inv hp <;> simp [hnew]
    exact hedits

end Job

namespace Command
open Disk

/-- A run whose options and settings are in order, and what it works on. -/
structure Start (d : Disk) (arguments : List Text) where
  options : Options
  settings : Settings
  format : OutputFormat
  style : RunStyle
  jobs : List Job
  missing : List Text
  options_eq : Options.ofArguments arguments = .ok options
  settings_eq : (d.run (settingsFor options)).1 = .ok settings
  format_eq : formatFor options settings = .ok format
  style_eq : styleFor options settings = .ok style
  jobs_eq : (d.run (jobsFor options settings)).1 = .ok (jobs, missing)

theorem exitCode_eq_one_iff (fix : Bool) (s : Summary) : exitCode fix s = 1 ↔ 0 < s.errors := by
  unfold exitCode
  split
  · simp [*]
  · split <;> simp [*]

theorem exitCode_eq_two_iff (fix : Bool) (s : Summary) :
    exitCode fix s = 2 ↔ ¬0 < s.errors ∧ fix = false ∧ 0 < s.changed := by
  unfold exitCode
  split
  · simp [*]
  · split <;> simp_all

theorem exitCode_cases (fix : Bool) (s : Summary) : exitCode fix s = 0 ∨ exitCode fix s = 1 ∨ exitCode fix s = 2 := by
  unfold exitCode
  split
  · exact .inr (.inl rfl)
  · split
    · exact .inr (.inr rfl)
    · exact .inl rfl

/-- How a run ends after the report `r`. -/
def conclude (fix : Bool) (r : Report) : Outcome :=
  { exit := exitCode fix r.summary, out := (r.finish (!fix)).out, err := (r.finish (!fix)).err }

namespace Start
variable {d : Disk} {arguments : List Text} (start : Start d arguments)

/-- The jobs in the order of the report, with their answers. -/
def results : List Result :=
  (start.jobs.map (·.result start.style d)).mergeSort fun a b => Path.le a.1.source b.1.source

/-- What the run writes. -/
def writes : List (Text × Text) := Result.writes start.options.fix start.results

/-- What is printed before the first job. -/
def opening : Report :=
  let r : Report := { format := start.format, verbose := start.options.verbose }
  let r := if start.options.verbose && start.format = .text then
      r.printLines ((header start.options start.style).map String.toList)
    else r
  if start.format = .text then
    start.missing.foldl (fun r p => r.complain ("Warning: Path does not exist: ".toList ++ p)) r
  else r

/-- The report of the run. -/
def report : Report := start.results.foldl (Result.addTo start.options.fix) start.opening

theorem perm_results : start.results.Perm (start.jobs.map (·.result start.style d)) := List.mergeSort_perm ..

theorem summary_opening : start.opening.summary = {} := by
  have hcomplain : ∀ (ps : List Text) (r : Report),
      (ps.foldl (fun r p => r.complain ("Warning: Path does not exist: ".toList ++ p)) r).summary = r.summary := by
    intro ps
    induction ps with
    | nil => exact fun _ => rfl
    | cons p ps ih => exact fun r => ih _
  unfold opening
  dsimp only
  split <;> split <;> simp only [hcomplain, Report.summary_printLines]

theorem summary_report :
    start.report.summary = .ofReports (start.jobs.map fun j => (j.result start.style d).fileReport) := by
  have hfold : ∀ (xs : List Result) (r : Report), (xs.foldl (Result.addTo start.options.fix) r).summary =
      (xs.map Result.fileReport).foldl Summary.add r.summary := by
    intro xs
    induction xs with
    | nil => exact fun _ => rfl
    | cons x xs ih =>
      intro r
      rw [List.foldl_cons, ih, Result.summary_addTo]
      rfl
  rw [report, hfold, summary_opening, ← Summary.ofReports, Summary.ofReports_perm (start.perm_results.map _),
    List.map_map]
  rfl

theorem mem_writes {w : Text × Text} : w ∈ start.writes ↔ start.options.fix = true ∧ ∃ job ∈ start.jobs,
    ∃ p, job.outcome start.style d = .ok p ∧ p.edits ≠ [] ∧ p.new = some w.2 ∧ job.source = w.1 := by
  unfold writes Result.writes
  cases start.options.fix with
  | false => simp
  | true => simp [List.mem_filterMap, start.perm_results.mem_iff, Job.write?_result]

/-- What is written could be read. -/
theorem isFile_writes : ∀ w ∈ start.writes, d.IsFile w.1 := by
  intro w hw
  obtain ⟨-, job, -, p, hp, -, -, hsource⟩ := start.mem_writes.mp hw
  obtain ⟨text, -, -, hread, -⟩ := Job.outcome_inv hp
  obtain ⟨location, hpath, htext⟩ := read_eq_ok_iff.mp (hsource ▸ hread)
  exact ⟨location, text, hpath, htext⟩

theorem run_eq : d.run (run arguments) = (conclude start.options.fix start.report, d.written start.writes) := by
  have hwith : d.run (runWith start.options start.settings start.format start.style) =
      (conclude start.options.fix start.report, d.written start.writes) := by
    unfold runWith
    dsimp only
    -- Up to the reports the disk is only looked at, so that every job sees it as it was at the start.
    rw [(looks_jobsFor start.options start.settings).run_bind, start.jobs_eq]
    dsimp only
    rw [(looks_processAll start.style start.jobs).run_bind, processAll_fst]
    change d.run (reportAll start.options.fix start.opening start.results >>= _) = _
    rw [Disk.run_bind, reportAll_run start.opening start.results start.isFile_writes]
    rfl
  rw [run, start.options_eq]
  dsimp only
  rw [runOptions, (looks_settingsFor start.options).run_bind, start.settings_eq]
  dsimp only
  rw [start.format_eq]
  dsimp only
  rw [start.style_eq]
  exact hwith

/-- Two writes of a run to one place write the same text. -/
theorem writes_congr {w w' : Text × Text} {l : List Text} (hw : w ∈ start.writes) (hw' : w' ∈ start.writes)
    (hl : d.resolve w.1 = .ok l) (hl' : d.resolve w'.1 = .ok l) : w'.2 = w.2 := by
  obtain ⟨location, t, hpath, htext⟩ := start.isFile_writes w hw
  obtain rfl : location = l := Except.ok.inj (hpath.symm.trans hl)
  obtain ⟨-, job, hjob, p, hp, -, hnew, hsource⟩ := start.mem_writes.mp hw
  obtain ⟨-, job', hjob', p', hp', -, hnew', hsource'⟩ := start.mem_writes.mp hw'
  have hcongr := outcome_congr start.jobs_eq start.style hjob hjob' (hsource ▸ hl) (hsource' ▸ hl') htext
  rw [hp, hp'] at hcongr
  obtain rfl : p' = p := Option.some.inj hcongr
  exact Option.some.inj (hnew'.symm.trans hnew)

/-- Whatever else is written, a place to which something was written holds it in the end. -/
theorem textAt?_written {w : Text × Text} {l : List Text} (hw : w ∈ start.writes) (hl : d.resolve w.1 = .ok l) :
    (d.written start.writes).textAt? l = some w.2 := by
  obtain ⟨w', hw', hl', htext⟩ := (overwrites_written start.isFile_writes).holds w hw l hl
  rw [htext, start.writes_congr hw hw' hl hl']

end Start

/-- What a run does: which files it leaves, which it overwrites and with what, and how it ends. -/
structure Effect {d : Disk} {arguments : List Text} (start : Start d arguments) (outcome : Outcome) (after : Disk) :
    Prop where
  /-- A run that only checks changes nothing. -/
  checks : start.options.fix = false → after = d
  /-- Files stay files, and directories stay directories. -/
  sameFiles : d.SameFiles after
  /-- The source of a job with edits holds what they make of the text that it held. -/
  overwritten : start.options.fix = true → ∀ job ∈ start.jobs, ∀ p, job.outcome start.style d = .ok p → p.edits ≠ [] →
    ∃ text g new, d.read job.source = .ok text ∧ job.asks? start.style d = some (text, g) ∧
      p.edits = g.edits.map (EditInfo.ofEdit text) ∧ Edit.applyAll text g.edits = .ok new ∧
      after.read job.source = .ok new
  /-- Every other file is as it was. -/
  untouched : ∀ path, (∀ job ∈ start.jobs, job.Changes start.style d → d.resolve job.source ≠ d.resolve path) →
    after.read path = d.read path
  faulty : outcome.exit = 1 ↔ ∃ job ∈ start.jobs, job.Faulty start.style d
  pending : outcome.exit = 2 ↔ (∀ job ∈ start.jobs, ¬job.Faulty start.style d) ∧ start.options.fix = false ∧
    ∃ job ∈ start.jobs, job.Changes start.style d
  done : outcome.exit = 0 ∨ outcome.exit = 1 ∨ outcome.exit = 2
  report : outcome = conclude start.options.fix start.report
  /-- The report counts the jobs. -/
  counts : start.report.summary = .ofReports (start.jobs.map fun job => (job.result start.style d).fileReport)

namespace Start
variable {d : Disk} {arguments : List Text} (start : Start d arguments)

theorem errors_pos_iff : 0 < start.report.summary.errors ↔ ∃ job ∈ start.jobs, job.Faulty start.style d := by
  rw [start.summary_report, Summary.errors_pos_iff]
  simp only [List.mem_map, exists_exists_and_eq_and, Job.error_fileReport]

theorem changed_pos_iff : 0 < start.report.summary.changed ↔ ∃ job ∈ start.jobs, job.Changes start.style d := by
  rw [start.summary_report, Summary.changed_pos_iff]
  simp only [List.mem_map, exists_exists_and_eq_and, Job.edits_fileReport]

theorem effect : Effect start (conclude start.options.fix start.report) (d.written start.writes) where
  checks hfix := by
    rw [writes, Result.writes, hfix]
    rfl
  sameFiles := (overwrites_written start.isFile_writes).sameFiles
  overwritten hfix job hjob p hp hne := by
    obtain ⟨text, g, hasks, hread, hedits, ⟨hnil, -⟩ | ⟨new, -, happly, hnew⟩⟩ := Job.outcome_inv hp
    · exact absurd hnil hne
    · obtain ⟨location, hpath, -⟩ := read_eq_ok_iff.mp hread
      have hwrite : (job.source, new) ∈ start.writes := start.mem_writes.mpr ⟨hfix, job, hjob, p, hp, hne, hnew, rfl⟩
      refine ⟨text, g, new, hread, hasks, hedits, happly, read_eq_ok_iff.mpr ⟨location, ?_, ?_⟩⟩
      · rw [(overwrites_written start.isFile_writes).sameFiles.resolve, hpath]
      · exact start.textAt?_written hwrite hpath
  untouched path hpath := by
    have hall := overwrites_written start.isFile_writes
    refine hall.sameFiles.read fun location hlocation => hall.untouched location fun w hw hl => ?_
    obtain ⟨-, job, hjob, p, hp, hne, -, hsource⟩ := start.mem_writes.mp hw
    exact hpath job hjob ⟨p, hp, hne⟩ ((hsource ▸ hl).trans hlocation.symm)
  faulty := (exitCode_eq_one_iff ..).trans start.errors_pos_iff
  pending := by
    refine (exitCode_eq_two_iff ..).trans ?_
    rw [start.errors_pos_iff, start.changed_pos_iff]
    simp
  done := exitCode_cases ..
  report := rfl
  counts := start.summary_report

/-! ### The order of paths -/

section Order
variable {start} {arguments' : List Text} {start' : Start d arguments'}

/-- The options differ in the paths alone. -/
def Varies (start : Start d arguments) (start' : Start d arguments') : Prop :=
  start'.options = { start.options with paths := start'.options.paths }

theorem Varies.settings (h : Varies start start') : start'.settings = start.settings := by
  have hsettings := start'.settings_eq
  rw [h] at hsettings
  exact Except.ok.inj (hsettings.symm.trans start.settings_eq)

theorem Varies.style (h : Varies start start') : start'.style = start.style := by
  have hstyle := start'.style_eq
  rw [h, h.settings] at hstyle
  exact Except.ok.inj (hstyle.symm.trans start.style_eq)

theorem Varies.fix (h : Varies start start') : start'.options.fix = start.options.fix := by rw [h]

theorem Varies.trees (h : Varies start start') : start'.options.trees = start.options.trees := by rw [h]

/-- Every path brings the same jobs. -/
theorem Varies.jobs (h : Varies start start') :
    ∃ f, start.jobs = start.options.paths.flatMap f ∧ start'.jobs = start'.options.paths.flatMap f := by
  have hjobs' := start'.jobs_eq
  rw [h.settings] at hjobs'
  -- Trees are given to both runs or to none of them.
  obtain ⟨htrees, hjobs⟩ | ⟨base, edited, source, htrees, hpaths, hjobs⟩ := jobsFor_inv start.jobs_eq <;>
    obtain ⟨htrees', hjobs'⟩ | ⟨base', edited', source', htrees', hpaths', hjobs'⟩ := jobsFor_inv hjobs' <;>
    rw [h.trees, htrees] at htrees'
  · exact ⟨jobsAt d start.settings, hjobs, hjobs'⟩
  · cases htrees'
  · cases htrees'
  · cases htrees'
    refine ⟨fun source => [{ source, base, edited }], ?_, ?_⟩
    · rw [hpaths, hjobs, List.flatMap_singleton]
    · rw [hpaths', hjobs', List.flatMap_singleton]

theorem Varies.mem_jobs (h : Varies start start') (hpaths : ∀ p, p ∈ start'.options.paths ↔ p ∈ start.options.paths)
    (job : Job) : job ∈ start'.jobs ↔ job ∈ start.jobs := by
  obtain ⟨f, hjobs, hjobs'⟩ := h.jobs
  simp only [hjobs, hjobs', List.mem_flatMap, hpaths]

theorem Varies.mem_writes (h : Varies start start') (hpaths : ∀ p, p ∈ start'.options.paths ↔ p ∈ start.options.paths)
    (w : Text × Text) : w ∈ start'.writes ↔ w ∈ start.writes := by
  simp only [Start.mem_writes, h.fix, h.style, h.mem_jobs hpaths]

/-- The same writes, in whatever order and number, leave the same files. -/
theorem read_written (h : ∀ w, w ∈ start'.writes ↔ w ∈ start.writes) (path : Text) :
    (d.written start'.writes).read path = (d.written start.writes).read path := by
  have hall := overwrites_written start.isFile_writes
  have hall' := overwrites_written start'.isFile_writes
  have hsame : SameFiles (d.written start.writes) (d.written start'.writes) := hall.sameFiles.symm.trans hall'.sameFiles
  refine hsame.read fun l _ => ?_
  by_cases hl : ∃ w ∈ start.writes, d.resolve w.1 = .ok l
  · obtain ⟨w, hw, hl⟩ := hl
    rw [start.textAt?_written hw hl, start'.textAt?_written ((h w).mpr hw) hl]
  · rw [hall.untouched l fun w hw hw' => hl ⟨w, hw, hw'⟩, hall'.untouched l fun w hw hw' => hl ⟨w, (h w).mp hw, hw'⟩]

theorem Varies.exit (h : Varies start start') (hpaths : ∀ p, p ∈ start'.options.paths ↔ p ∈ start.options.paths) :
    exitCode start'.options.fix start'.report.summary = exitCode start.options.fix start.report.summary := by
  have herrors : 0 < start'.report.summary.errors ↔ 0 < start.report.summary.errors := by
    simp only [Start.errors_pos_iff, h.style, h.mem_jobs hpaths]
  have hchanged : 0 < start'.report.summary.changed ↔ 0 < start.report.summary.changed := by
    simp only [Start.changed_pos_iff, h.style, h.mem_jobs hpaths]
  simp only [exitCode, h.fix, herrors, hchanged]

theorem Varies.summary (h : Varies start start') (hpaths : start'.options.paths.Perm start.options.paths) :
    start'.report.summary = start.report.summary := by
  obtain ⟨f, hjobs, hjobs'⟩ := h.jobs
  rw [summary_report, summary_report, h.style, hjobs, hjobs']
  exact Summary.ofReports_perm ((hpaths.flatMap_right f).map _)

end Order

end Start

/-- A run does what its jobs ask for. It does not matter in which order its paths are given, nor, apart from what is
counted, how often. -/
theorem run_effect {d : Disk} {arguments : List Text} (start : Start d arguments) :
    Effect start (d.run (run arguments)).1 (d.run (run arguments)).2 ∧
      ∀ {arguments' : List Text} (start' : Start d arguments'), start.Varies start' →
        ((∀ p, p ∈ start'.options.paths ↔ p ∈ start.options.paths) →
          (d.run (run arguments')).1.exit = (d.run (run arguments)).1.exit ∧
          ∀ path, (d.run (run arguments')).2.read path = (d.run (run arguments)).2.read path) ∧
        (start'.options.paths.Perm start.options.paths → start'.report.summary = start.report.summary) := by
  rw [start.run_eq]
  refine ⟨start.effect, fun start' hvaries => ?_⟩
  rw [start'.run_eq]
  exact ⟨fun hpaths => ⟨hvaries.exit hpaths, Start.read_written (hvaries.mem_writes hpaths)⟩, hvaries.summary⟩

/-- A file with trees that ask for another name in it, and a file without trees. -/
def nameDisk : Disk :=
  { root := .directory
      [(['a'], .file ['x']), ("a.orig.json".toList, .file "[\"a\",[\"ident\",null,[0,1],false,\"x\"]]".toList),
        ("a.edit.json".toList, .file "[\"a\",[\"ident\",null,[0,1],false,\"y\"]]".toList), (['b'], .file ['z'])] }

def nameArguments (paths : List Text) : List Text := ["--fix".toList, "--no-config".toList] ++ paths

def nameOptions (paths : List Text) : Options := { fix := true, noConfig := true, paths }

def nameStart (paths : List Text) (jobs : List Job)
    (hoptions : Options.ofArguments (nameArguments paths) = .ok (nameOptions paths))
    (hjobs : (nameDisk.run (jobsFor (nameOptions paths) {})).1 = .ok (jobs, [])) :
    Start nameDisk (nameArguments paths) where
  options := nameOptions paths
  settings := {}
  format := .text
  style := {}
  jobs := jobs
  missing := []
  options_eq := hoptions
  settings_eq := rfl
  format_eq := by cbv
  style_eq := by cbv
  jobs_eq := hjobs

def nameEdit : Edit := { start := 0, stop := 1, replacement := ['y'], message := "Regenerate ident" }

theorem asks?_name :
    (Job.ofSource ['a']).asks? {} nameDisk = some (['x'], { edits := [nameEdit], diagnostics := [] }) := by
  cbv

theorem outcome_name : (Job.ofSource ['a']).outcome {} nameDisk =
    .ok { edits := [.ofEdit ['x'] nameEdit], warnings := [], old := ['x'], new := some ['y'] } := by
  have hanswer := Job.outcome_toOption {} nameDisk (.ofSource ['a'])
  rw [asks?_name, Option.bind_some] at hanswer
  exact toOption_eq_some_iff.mp (hanswer.trans (by cbv))

theorem faulty_treeless : (Job.ofSource ['b']).Faulty {} nameDisk := by
  have hanswer := Job.outcome_toOption {} nameDisk (.ofSource ['b'])
  rw [show (Job.ofSource ['b']).asks? {} nameDisk = none by cbv] at hanswer
  unfold Job.Faulty
  cases h : (Job.ofSource ['b']).outcome {} nameDisk with
  | error e => exact ⟨e, rfl⟩
  | ok p =>
    rw [h] at hanswer
    cases hanswer

def nameRun (paths : List Text) : Outcome × Disk := nameDisk.run (run (nameArguments paths))

/-- The file with trees is overwritten and the other one left alone, whichever comes first. The run ends with a
fault. -/
theorem run_name_effect :
    ((nameRun [['a'], ['b']]).1.exit = 1 ∧ (nameRun [['a'], ['b']]).2.read ['a'] = .ok ['y'] ∧
      (nameRun [['a'], ['b']]).2.read ['b'] = .ok ['z']) ∧
    (nameRun [['b'], ['a']]).1.exit = 1 ∧ (nameRun [['b'], ['a']]).2.read ['a'] = .ok ['y'] := by
  let start : Start nameDisk (nameArguments [['a'], ['b']]) :=
    nameStart [['a'], ['b']] [.ofSource ['a'], .ofSource ['b']] (by cbv) (by cbv)
  let start' : Start nameDisk (nameArguments [['b'], ['a']]) :=
    nameStart [['b'], ['a']] [.ofSource ['b'], .ofSource ['a']] (by cbv) (by cbv)
  obtain ⟨heffect, horder⟩ := run_effect start
  obtain ⟨hcontents, -⟩ := horder start' rfl
  obtain ⟨hexit, hread⟩ := hcontents fun p => by simp [start, start', nameStart, nameOptions, or_comm]
  have hfaulty : (nameRun [['a'], ['b']]).1.exit = 1 :=
    heffect.faulty.mpr ⟨.ofSource ['b'], List.mem_cons_of_mem _ (List.mem_cons_self ..), faulty_treeless⟩
  have hnew : (nameRun [['a'], ['b']]).2.read ['a'] = .ok ['y'] := by
    obtain ⟨text, g, new, -, hasks, -, happly, hnew⟩ :=
      heffect.overwritten rfl _ (List.mem_cons_self ..) _ outcome_name (List.cons_ne_nil _ _)
    cases hasks.symm.trans asks?_name
    cases happly.symm.trans (show Edit.applyAll ['x'] [nameEdit] = .ok ['y'] by cbv)
    exact hnew
  have hkept : (nameRun [['a'], ['b']]).2.read ['b'] = nameDisk.read ['b'] := by
    refine heffect.untouched ['b'] fun job hjob hchanges => ?_
    rcases List.mem_cons.mp hjob with rfl | hjob
    · have ha : nameDisk.resolve ['a'] = .ok [['a']] := by cbv
      have hb : nameDisk.resolve ['b'] = .ok [['b']] := by cbv
      exact fun heq => absurd (ha.symm.trans (heq.trans hb)) (by simp)
    · obtain ⟨e, he⟩ := faulty_treeless
      obtain ⟨p, hp, -⟩ := hchanges
      rw [List.mem_singleton.mp hjob] at hp
      cases hp.symm.trans he
  exact ⟨⟨hfaulty, hnew, hkept.trans (by cbv)⟩, hexit.trans hfaulty, (hread ['a']).trans hnew⟩

end Command

end Reprint
