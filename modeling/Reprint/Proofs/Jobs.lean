import Mathlib
import Reprint.Command.Run
import Reprint.Proofs.Disk
import Reprint.Proofs.RenamedLoad
/-!
What a run works on. Settings, paths and the files of a job are only looked at (`Looks`), so every job is done on the
disk as it was at the start, and the answer of a job is a function of that disk (`Job.outcome`). Main statement: two
jobs on one file have the same answer, whatever the paths that lead to it, since the trees of both stand beside the file
and what the file is called does not matter (`outcome_congr`).
-/

namespace Reprint

/-! ### Steps that only look -/

namespace Disk

/-- What a step gives on a disk, and the disk afterwards. -/
def run {α : Type} (d : Disk) (m : StateM Disk α) : α × Disk := m d

/-- A step leaves every disk as it is. -/
def Looks {α : Type} (m : StateM Disk α) : Prop := ∀ d : Disk, (d.run m).2 = d

section Looks
variable {α β : Type} {d : Disk} {m : StateM Disk α}

theorem run_bind (d : Disk) (m : StateM Disk α) (f : α → StateM Disk β) :
    d.run (m >>= f) = (d.run m).2.run (f (d.run m).1) := rfl

theorem Looks.run_bind (h : Looks m) (d : Disk) (f : α → StateM Disk β) : d.run (m >>= f) = d.run (f (d.run m).1) := by
  rw [Disk.run_bind, h d]

theorem Looks.pure (a : α) : Looks (Pure.pure a) := fun _ => rfl

theorem Looks.bind {f : α → StateM Disk β} (h : Looks m) (hf : ∀ a, Looks (f a)) : Looks (m >>= f) := by
  intro d
  rw [h.run_bind]
  exact hf _ d

theorem looks_kind? (path : Text) : Looks (FileSystem.kind? path) := fun _ => rfl

theorem looks_read (path : Text) : Looks (FileSystem.read path) := fun _ => rfl

theorem looks_filesUnder (path : Text) : Looks (FileSystem.filesUnder path) := fun _ => rfl

theorem looks_workingDirectory : Looks FileSystem.workingDirectory := fun _ => rfl

end Looks

end Disk

open Disk

/-! ### Jobs of paths -/

namespace Command

theorem looks_loadSettings (path : Text) : Looks (loadSettings path) := by
  refine .bind (looks_read path) fun result => ?_
  cases result with
  | error e => exact .pure _
  | ok t =>
    dsimp only
    split <;> exact .pure _

theorem looks_firstPresent (paths : List Text) : Looks (firstPresent paths) := by
  induction paths with
  | nil => exact .pure _
  | cons p ps ih =>
    refine .bind (looks_kind? p) fun kind => ?_
    split
    · exact .pure _
    · exact ih

theorem looks_settingsFor (o : Options) : Looks (settingsFor o) := by
  unfold settingsFor
  split
  · exact .pure _
  · split
    · exact looks_loadSettings _
    · refine .bind looks_workingDirectory fun directory => .bind (looks_firstPresent _) fun found => ?_
      cases found with
      | none => exact .pure _
      | some path => exact looks_loadSettings path

theorem looks_jobsOf (s : Settings) (path : Text) : Looks (jobsOf s path) := by
  refine .bind (looks_kind? path) fun kind => ?_
  rcases kind with _ | _ | _
  · exact .pure _
  · exact .pure _
  · exact .bind (looks_filesUnder path) fun _ => .pure _

theorem looks_jobsOfAll (s : Settings) (paths : List Text) : Looks (jobsOfAll s paths) := by
  induction paths with
  | nil => exact .pure _
  | cons p ps ih =>
    refine .bind (looks_jobsOf s p) fun found => .bind ih fun rest => ?_
    cases found <;> exact .pure _

theorem looks_jobsFor (o : Options) (s : Settings) : Looks (jobsFor o s) := by
  unfold jobsFor
  split
  · exact .bind (looks_jobsOfAll s o.paths) fun _ => .pure _
  · split <;> exact .pure _

/-- The jobs of a path on a disk, none if it leads nowhere. -/
def jobsAt (d : Disk) (s : Settings) (path : Text) : List Job := (d.run (jobsOf s path)).1.getD []

theorem jobsOfAll_fst (d : Disk) (s : Settings) (paths : List Text) :
    (d.run (jobsOfAll s paths)).1.1 = paths.flatMap (jobsAt d s) := by
  induction paths with
  | nil => rfl
  | cons p ps ih =>
    rw [jobsOfAll, (looks_jobsOf s p).run_bind, (looks_jobsOfAll s ps).run_bind, List.flatMap_cons, ← ih, jobsAt]
    cases (d.run (jobsOf s p)).1 <;> rfl

end Command

namespace Job

theorem ofEdited?_inv {path : Text} {job : Job} (h : ofEdited? path = some job) : ∃ source, job = ofSource source := by
  simp only [ofEdited?, Option.bind_eq_bind, Option.bind_eq_some_iff] at h
  obtain ⟨name, -, -, -, -, -, h⟩ := h
  exact ⟨_, (Option.some.inj h).symm⟩

theorem ofPath_inv (path : Text) : ∃ source, ofPath path = ofSource source := by
  unfold ofPath
  cases h : ofEdited? path with
  | none => exact ⟨path, rfl⟩
  | some job => exact ofEdited?_inv h

end Job

namespace Command
variable {d : Disk} {s : Settings} {o : Options} {jobs : List Job} {missing : List Text}

/-- The trees of a job stand beside its source. -/
theorem jobsAt_inv {path : Text} {job : Job} (h : job ∈ jobsAt d s path) : ∃ source, job = .ofSource source := by
  rw [jobsAt, jobsOf, (looks_kind? path).run_bind] at h
  generalize (d.run (FileSystem.kind? path)).1 = kind at h
  rcases kind with _ | _ | _
  · cases h
  · rw [List.mem_singleton.mp h]
    exact Job.ofPath_inv path
  · obtain ⟨path', -, hjob⟩ := List.mem_filterMap.mp (List.mem_filter.mp h).1
    exact Job.ofEdited?_inv hjob

/-- Unless the trees are given, every path brings its own jobs. If they are, there is one job. -/
theorem jobsFor_inv (h : (d.run (jobsFor o s)).1 = .ok (jobs, missing)) :
    (o.trees = none ∧ jobs = o.paths.flatMap (jobsAt d s)) ∨
      ∃ base edited source, o.trees = some (base, edited) ∧ o.paths = [source] ∧ jobs = [{ source, base, edited }] := by
  unfold jobsFor at h
  cases htrees : o.trees with
  | none =>
    rw [htrees] at h
    have hall : (d.run (jobsOfAll s o.paths)).1 = (jobs, missing) := Except.ok.inj h
    exact .inl ⟨rfl, by rw [← jobsOfAll_fst, hall]⟩
  | some trees =>
    rw [htrees] at h
    obtain ⟨base, edited⟩ := trees
    rcases hpaths : o.paths with _ | ⟨source, _ | _⟩ <;> rw [hpaths] at h
    · cases h
    · cases h
      exact .inr ⟨base, edited, source, rfl, rfl, rfl⟩
    · cases h

end Command

/-! ### The answer of a job -/

namespace Job

theorem looks_process (job : Job) (style : RunStyle) : Looks (job.process style) := by
  unfold process
  refine .bind (looks_read _) fun source => ?_
  cases source with
  | error e => exact .pure _
  | ok source =>
    refine .bind (looks_read _) fun base => ?_
    cases base with
    | error e => exact .pure _
    | ok base =>
      refine .bind (looks_read _) fun edited => ?_
      cases edited <;> exact .pure _

/-- What becomes of a job on a disk. -/
def outcome (style : RunStyle) (d : Disk) (job : Job) : Except ProcessError Processed := (d.run (job.process style)).1

/-- The text of the source, and what the trees beside it ask for. -/
def asks? (style : RunStyle) (d : Disk) (job : Job) : Option (Text × Regeneration) := do
  let source ← (d.read job.source).toOption
  let base ← (d.read job.base).toOption
  let edited ← (d.read job.edited).toOption
  let g ← regeneration? style { name := String.ofList job.source, text := source } base edited
  return (source, g)

theorem outcome_toOption (style : RunStyle) (d : Disk) (job : Job) :
    (job.outcome style d).toOption = (job.asks? style d).bind fun x => answer? x.1 x.2 := by
  have hsource : (d.run (FileSystem.read job.source)).1 = d.read job.source := rfl
  have hbase : (d.run (FileSystem.read job.base)).1 = d.read job.base := rfl
  have hedited : (d.run (FileSystem.read job.edited)).1 = d.read job.edited := rfl
  unfold outcome process asks?
  rw [(looks_read _).run_bind, hsource]
  rcases d.read job.source with _ | source
  · rfl
  · dsimp only
    rw [(looks_read _).run_bind, hbase]
    rcases d.read job.base with _ | base
    · rfl
    · dsimp only
      rw [(looks_read _).run_bind, hedited]
      rcases d.read job.edited with _ | edited
      · rfl
      · refine (run_toOption job style source base edited).trans ?_
        simp only [Except.toOption, Option.bind_eq_bind, Option.bind_some, Option.bind_assoc]
        rfl

/-- A job that succeeds has read its source and found the edits its texts ask for. If there are any, they were
applied. -/
theorem outcome_inv {style : RunStyle} {d : Disk} {job : Job} {p : Processed} (h : job.outcome style d = .ok p) :
    ∃ text g, job.asks? style d = some (text, g) ∧ d.read job.source = .ok text ∧
      p.edits = g.edits.map (EditInfo.ofEdit text) ∧
      ((p.edits = [] ∧ p.new = none) ∨
        ∃ new, p.edits ≠ [] ∧ Edit.applyAll text g.edits = .ok new ∧ p.new = some new) := by
  have hanswer := outcome_toOption style d job
  rw [h] at hanswer
  obtain ⟨⟨text, g⟩, hasks, hanswer⟩ := Option.bind_eq_some_iff.mp hanswer.symm
  have hread : d.read job.source = .ok text := by
    obtain ⟨source, hsource, h⟩ := Option.bind_eq_some_iff.mp hasks
    obtain ⟨base, -, h⟩ := Option.bind_eq_some_iff.mp h
    obtain ⟨edited, -, h⟩ := Option.bind_eq_some_iff.mp h
    obtain ⟨g', -, h⟩ := Option.bind_eq_some_iff.mp h
    cases h
    exact toOption_eq_some_iff.mp hsource
  refine ⟨text, g, hasks, hread, ?_⟩
  unfold answer? at hanswer
  split at hanswer
  · next hempty =>
    cases hanswer
    rw [List.isEmpty_iff.mp hempty]
    exact ⟨rfl, .inl ⟨rfl, rfl⟩⟩
  · next hne =>
    obtain ⟨new, hnew, h⟩ := Option.bind_eq_some_iff.mp hanswer
    cases h
    exact ⟨rfl, .inr ⟨new, by simpa using hne, toOption_eq_some_iff.mp hnew, rfl⟩⟩

theorem slash_not_mem_baseEnding : '/' ∉ baseEnding := by decide

theorem slash_not_mem_editedEnding : '/' ∉ editedEnding := by decide

/-- Jobs of one file ask for the same, whatever the paths that lead to it. -/
theorem asks?_congr (style : RunStyle) {d : Disk} {a b t : Text} {location : List Text}
    (ha : d.resolve a = .ok location) (hb : d.resolve b = .ok location) (htext : d.textAt? location = some t) :
    (ofSource b).asks? style d = (ofSource a).asks? style d := by
  -- Trees are named after the source, so both jobs find the same trees beside the file.
  have hread : ∀ e, '/' ∉ e → d.read (b ++ e) = d.read (a ++ e) := by
    intro e he
    rw [read_eq, read_eq, resolve_append ha htext he, resolve_append hb htext he]
  have hsource : d.read b = d.read a := by rw [read_eq, read_eq, ha, hb]
  simp only [asks?, ofSource, hsource, hread _ slash_not_mem_baseEnding, hread _ slash_not_mem_editedEnding,
    regeneration?_congr style (String.ofList a) (String.ofList b)]

end Job

namespace Command
variable {d : Disk} {s : Settings} {o : Options} {jobs : List Job} {missing : List Text}

/-- Two jobs of a run that work on one file have the same answer, if they have one. -/
theorem outcome_congr (h : (d.run (jobsFor o s)).1 = .ok (jobs, missing)) (style : RunStyle) {j j' : Job}
    (hj : j ∈ jobs) (hj' : j' ∈ jobs) {location : List Text} {t : Text} (hsource : d.resolve j.source = .ok location)
    (hsource' : d.resolve j'.source = .ok location) (htext : d.textAt? location = some t) :
    (j'.outcome style d).toOption = (j.outcome style d).toOption := by
  obtain ⟨-, rfl⟩ | ⟨base, edited, source, -, -, rfl⟩ := jobsFor_inv h
  · obtain ⟨p, -, hj⟩ := List.mem_flatMap.mp hj
    obtain ⟨p', -, hj'⟩ := List.mem_flatMap.mp hj'
    obtain ⟨a, rfl⟩ := jobsAt_inv hj
    obtain ⟨b, rfl⟩ := jobsAt_inv hj'
    rw [Job.outcome_toOption, Job.outcome_toOption, Job.asks?_congr (a := a) (b := b) style hsource hsource' htext]
  · rw [List.mem_singleton.mp hj, List.mem_singleton.mp hj']

theorem looks_processAll (style : RunStyle) (jobs : List Job) : Looks (processAll style jobs) := by
  induction jobs with
  | nil => exact .pure _
  | cons j js ih => exact .bind (j.looks_process style) fun _ => .bind ih fun _ => .pure _

/-- All jobs are done on the disk as it is at the start. -/
theorem processAll_fst (d : Disk) (style : RunStyle) (jobs : List Job) :
    (d.run (processAll style jobs)).1 = jobs.map fun j => (j, j.outcome style d) := by
  induction jobs with
  | nil => rfl
  | cons j js ih =>
    rw [processAll, (j.looks_process style).run_bind, (looks_processAll style js).run_bind, ih]
    rfl

end Command

end Reprint
