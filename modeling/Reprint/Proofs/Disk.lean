import Mathlib
import Reprint.Files
import Reprint.Proofs.Lines
/-!
What stands where on a disk, and what a write changes. A place is a list of names from the root. Which places are files
and which are directories decides where paths lead, and no write ever changes that (`SameFiles`): it replaces the contents
of one place. Main statements: a file that can be read can be written (`write_ok`), two paths to one file lead to the
same place when the same ending is put behind both (`resolve_append`), and a series of writes to files leaves at each
place one of the texts that were written there, or what it held before (`overwrites_written`).
-/

namespace Reprint

theorem Text.splitOn_append {t e : Text} {sep : Char} (h : sep ∉ e) :
    ∃ front last, t.splitOn sep = front ++ [last] ∧ (t ++ e).splitOn sep = front ++ [last ++ e] := by
  induction t with
  | nil => exact ⟨[], [], rfl, splitOn_of_not_mem h⟩
  | cons c t ih =>
    obtain ⟨front, last, ht, hte⟩ := ih
    by_cases hc : c = sep
    · refine ⟨[] :: front, last, ?_, ?_⟩
      · rw [splitOn, if_pos hc, ht]; rfl
      · rw [List.cons_append, splitOn, if_pos hc, hte]; rfl
    · cases front with
      | nil =>
        refine ⟨[], c :: last, ?_, ?_⟩
        · rw [splitOn, if_neg hc, ht]; rfl
        · rw [List.cons_append, splitOn, if_neg hc, hte]; rfl
      | cons first front =>
        refine ⟨(c :: first) :: front, last, ?_, ?_⟩
        · rw [splitOn, if_neg hc, ht]; rfl
        · rw [List.cons_append, splitOn, if_neg hc, hte]; rfl

/-! ### File trees -/

namespace FileTree

def kind : FileTree → FileKind
  | file _ => .file
  | directory _ => .directory

def text? : FileTree → Option Text
  | file content => some content
  | directory _ => none

theorem at?_append (t : FileTree) (l l' : List Text) : t.at? (l ++ l') = (t.at? l).bind (·.at? l') := by
  induction l generalizing t with
  | nil => rw [List.nil_append, at?, Option.bind_some]
  | cons name l ih =>
    cases t with
    | file content => rfl
    | directory entries =>
      rw [List.cons_append, at?, at?]
      cases entries.lookup name with
      | none => rfl
      | some u => exact ih u

theorem lookup_setEntry (entries : List (Text × FileTree)) (name other : Text) (t : FileTree) :
    (setEntry entries name t).lookup other = if other = name then some t else entries.lookup other := by
  induction entries with
  | nil => grind [setEntry]
  | cons e entries ih =>
    obtain ⟨n, u⟩ := e
    rw [setEntry]
    split <;> grind

/-- Putting a file in place of another exchanges the contents there and nothing else. -/
theorem at?_put {t : FileTree} {location : List Text} {old : Text} (new : Text)
    (h : t.at? location = some (.file old)) (l : List Text) :
    ((t.put location (.file new)).at? l).map kind = (t.at? l).map kind ∧
      ((t.put location (.file new)).at? l).bind text? = if l = location then some new else (t.at? l).bind text? := by
  induction location generalizing t l with
  | nil =>
    obtain rfl : t = .file old := by simpa [at?] using h
    cases l <;> exact ⟨rfl, rfl⟩
  | cons name location ih =>
    cases t with
    | file content => cases h
    | directory entries =>
      obtain ⟨u, hu, hfile⟩ := Option.bind_eq_some_iff.mp h
      rw [put]
      cases l with
      | nil => exact ⟨rfl, rfl⟩
      | cons n l =>
        simp only [at?, lookup_setEntry, hu, Option.getD_some]
        by_cases hn : n = name
        · subst hn
          rw [if_pos rfl, hu]
          simpa using ih hfile l
        · rw [if_neg hn, if_neg fun heq => hn (List.cons.inj heq).1]
          exact ⟨rfl, rfl⟩

end FileTree

/-! ### Disks -/

namespace Disk
variable {d d' d'' : Disk} {path : Text} {location : List Text}

/-- What stands at a place. -/
def kindAt? (d : Disk) (location : List Text) : Option FileKind := (d.root.at? location).map FileTree.kind

/-- The contents of the file at a place. -/
def textAt? (d : Disk) (location : List Text) : Option Text := (d.root.at? location).bind FileTree.text?

/-- The second disk has the same files and directories, with whatever contents. -/
structure SameFiles (d d' : Disk) : Prop where
  here : d'.here = d.here
  kinds : ∀ location, d'.kindAt? location = d.kindAt? location

theorem SameFiles.refl (d : Disk) : SameFiles d d := ⟨rfl, fun _ => rfl⟩

theorem SameFiles.symm (h : SameFiles d d') : SameFiles d' d := ⟨h.here.symm, fun l => (h.kinds l).symm⟩

theorem SameFiles.trans (h : SameFiles d d') (h' : SameFiles d' d'') : SameFiles d d'' :=
  ⟨h'.here.trans h.here, fun l => (h'.kinds l).trans (h.kinds l)⟩

/-- A directory has an entry if something stands there. -/
theorem isSome_lookup {entries : List (Text × FileTree)} (h : d.root.at? location = some (.directory entries))
    (part : Text) : (entries.lookup part).isSome = (d.kindAt? (location ++ [part])).isSome := by
  rw [kindAt?, FileTree.at?_append, h, Option.isSome_map]
  cases hlookup : entries.lookup part <;> simp [FileTree.at?, hlookup]

theorem SameFiles.cases (h : SameFiles d d') (location : List Text) :
    (d.root.at? location = none ∧ d'.root.at? location = none) ∨
      (∃ t t', d.root.at? location = some (.file t) ∧ d'.root.at? location = some (.file t')) ∨
      ∃ es es', d.root.at? location = some (.directory es) ∧ d'.root.at? location = some (.directory es') := by
  have hkind := h.kinds location
  unfold kindAt? at hkind
  rcases hd : d.root.at? location with _ | ⟨t | es⟩ <;> rcases hd' : d'.root.at? location with _ | ⟨t' | es'⟩ <;>
    rw [hd, hd'] at hkind
  case none.none => exact .inl ⟨rfl, rfl⟩
  case some.file.some.file => exact .inr (.inl ⟨t, t', rfl, rfl⟩)
  case some.directory.some.directory => exact .inr (.inr ⟨es, es', rfl, rfl⟩)
  all_goals cases hkind

/-- Where a step leads depends on files and directories alone. -/
theorem SameFiles.step (h : SameFiles d d') (location : List Text) (part : Text) :
    d'.step location part = d.step location part := by
  unfold Disk.step
  obtain ⟨hd, hd'⟩ | ⟨t, t', hd, hd'⟩ | ⟨es, es', hd, hd'⟩ := h.cases location
  · rw [hd, hd']
  · rw [hd, hd']
  · rw [hd, hd']
    simp only [isSome_lookup hd, isSome_lookup hd', h.kinds (location ++ [part])]

theorem SameFiles.resolve (h : SameFiles d d') (path : Text) : d'.resolve path = d.resolve path := by
  have hstep : d'.step = d.step := funext fun l => funext fun part => h.step l part
  rw [Disk.resolve, Disk.resolve, hstep, h.here]

/-- The contents at a place, or why there are none. -/
def readAt (d : Disk) (location : List Text) : Except FileError Text :=
  match d.root.at? location with
  | some (.file content) => .ok content
  | some (.directory _) => .error .isDirectory
  | none => .error .notFound

theorem read_eq (d : Disk) (path : Text) : d.read path = d.resolve path >>= d.readAt := by
  unfold read find
  cases d.resolve path with
  | error e => rfl
  | ok location =>
    simp only [bind, Except.bind, readAt]
    rcases d.root.at? location with _ | ⟨_ | entries⟩ <;> rfl

theorem readAt_eq_ok_iff {t : Text} : d.readAt location = .ok t ↔ d.textAt? location = some t := by
  unfold readAt textAt?
  rcases d.root.at? location with _ | ⟨_ | entries⟩ <;> simp [FileTree.text?]

theorem read_eq_ok_iff {t : Text} :
    d.read path = .ok t ↔ ∃ location, d.resolve path = .ok location ∧ d.textAt? location = some t := by
  rw [read_eq]
  cases d.resolve path with
  | error e => simp [bind, Except.bind]
  | ok location => simp [bind, Except.bind, readAt_eq_ok_iff]

/-- What is read at a path is what stands at its place. -/
theorem SameFiles.read (h : SameFiles d d')
    (htext : ∀ location, d.resolve path = .ok location → d'.textAt? location = d.textAt? location) :
    d'.read path = d.read path := by
  rw [read_eq, read_eq, h.resolve]
  cases hpath : d.resolve path with
  | error e => rfl
  | ok location =>
    have htext := htext location hpath
    simp only [bind, Except.bind, readAt]
    unfold textAt? at htext
    obtain ⟨hd, hd'⟩ | ⟨t, t', hd, hd'⟩ | ⟨es, es', hd, hd'⟩ := h.cases location
    · rw [hd, hd']
    · rw [hd, hd'] at htext ⊢
      cases htext
      rfl
    · rw [hd, hd']

/-- A file that can be read can be written. Its contents are exchanged, and nothing else on the disk. -/
theorem write_ok {old : Text} (hpath : d.resolve path = .ok location) (htext : d.textAt? location = some old)
    (new : Text) :
    ∃ d', d.write path new = .ok d' ∧ SameFiles d d' ∧
      ∀ l, d'.textAt? l = if l = location then some new else d.textAt? l := by
  have hread : d.read path = .ok old := read_eq_ok_iff.mpr ⟨location, hpath, htext⟩
  have hfile : d.root.at? location = some (.file old) := by
    obtain ⟨t, ht, htext⟩ := Option.bind_eq_some_iff.mp htext
    cases t with
    | file content => rw [ht, Option.some.inj htext]
    | directory entries => cases htext
  refine ⟨{ d with root := d.root.put location (.file new) }, ?_, ⟨rfl, fun l => ?_⟩, fun l => ?_⟩
  · rw [write, hread, hpath]
    rfl
  · exact (FileTree.at?_put new hfile l).1
  · exact (FileTree.at?_put new hfile l).2

/-- Around whatever stands on the disk are directories. -/
theorem textAt?_dropLast {t : FileTree} (h : d.root.at? location = some t) (hne : location ≠ []) :
    d.textAt? location.dropLast = none := by
  rw [← List.dropLast_append_getLast hne, FileTree.at?_append] at h
  obtain ⟨u, hu, h⟩ := Option.bind_eq_some_iff.mp h
  rw [textAt?, hu]
  cases u with
  | file content => cases h
  | directory entries => rfl

/-- A step that ends at a file goes on by the name of the file. -/
theorem step_file {start : List Text} {part t : Text} (h : d.step start part = .ok location)
    (htext : d.textAt? location = some t) : location = start ++ [part] := by
  have hnot : ∀ {entries}, d.root.at? start = some (.directory entries) → d.textAt? start = none := by
    intro entries hstart
    rw [textAt?, hstart]
    rfl
  unfold step at h
  -- A step that stays or goes up ends at a directory, and from a file there is no step.
  rcases hstart : d.root.at? start with _ | ⟨_ | entries⟩ <;> rw [hstart] at h
  · cases h
  · cases h
  · dsimp only at h
    split at h
    · cases h
      cases (hnot hstart).symm.trans htext
    · split at h
      · cases h
        by_cases hne : start = []
        · subst hne
          cases (hnot hstart).symm.trans htext
        · cases (textAt?_dropLast hstart hne).symm.trans htext
      · split at h
        · cases h
          rfl
        · cases h

/-- A path with an ending leads beside the file of the path, whatever the way to it. -/
theorem resolve_append {t e : Text} (hpath : d.resolve path = .ok location) (htext : d.textAt? location = some t)
    (he : '/' ∉ e) : d.resolve (path ++ e) = d.step location.dropLast (location.getLast?.getD [] ++ e) := by
  -- The two paths differ in their last part alone.
  obtain ⟨front, last, hsplit, hsplit'⟩ := Text.splitOn_append (t := path) he
  have hne : path ≠ [] := by
    rintro rfl
    cases hpath
  rw [resolve, if_neg (by simpa using hne), hsplit, List.foldlM_append] at hpath
  rw [resolve, if_neg (by simp [hne]), hsplit', List.foldlM_append, List.head?_append_of_ne_nil path hne]
  cases hfront : front.foldlM d.step (if path.head? = some '/' then [] else d.here) with
  | error e =>
    rw [hfront] at hpath
    cases hpath
  | ok start =>
    rw [hfront] at hpath
    have hlast : ∀ part, [part].foldlM d.step start = d.step start part := fun part => by simp
    have hstep : d.step start last = .ok location := (hlast last).symm.trans hpath
    refine (hlast (last ++ e)).trans ?_
    rw [step_file hstep htext, List.dropLast_concat, List.getLast?_concat]
    rfl

/-! ### Writes in turn -/

/-- The path leads to a file. -/
def IsFile (d : Disk) (path : Text) : Prop := ∃ location t, d.resolve path = .ok location ∧ d.textAt? location = some t

theorem SameFiles.isFile (h : SameFiles d d') {path : Text} (hpath : d.IsFile path) : d'.IsFile path := by
  obtain ⟨location, t, hpath, htext⟩ := hpath
  obtain ⟨hd, -⟩ | ⟨t, t', -, hd'⟩ | ⟨es, es', hd, -⟩ := h.cases location
  · rw [textAt?, hd] at htext
    cases htext
  · exact ⟨location, t', (h.resolve path).trans hpath, by rw [textAt?, hd']; rfl⟩
  · rw [textAt?, hd] at htext
    cases htext

/-- The disk after texts were written to paths, one after the other. -/
def written (d : Disk) (writes : List (Text × Text)) : Disk :=
  writes.foldl (fun d w => (d.write w.1 w.2).toOption.getD d) d

theorem written_append (d : Disk) (ws ws' : List (Text × Text)) :
    d.written (ws ++ ws') = (d.written ws).written ws' := List.foldl_append

/-- What a series of writes to files leaves behind. -/
structure Overwrites (d : Disk) (writes : List (Text × Text)) (after : Disk) : Prop where
  sameFiles : SameFiles d after
  untouched : ∀ l, (∀ w ∈ writes, d.resolve w.1 ≠ .ok l) → after.textAt? l = d.textAt? l
  holds : ∀ w ∈ writes, ∀ l, d.resolve w.1 = .ok l →
    ∃ w' ∈ writes, d.resolve w'.1 = .ok l ∧ after.textAt? l = some w'.2

theorem overwrites_written {writes : List (Text × Text)} (h : ∀ w ∈ writes, d.IsFile w.1) :
    Overwrites d writes (d.written writes) := by
  induction writes generalizing d with
  | nil => exact ⟨.refl d, fun _ _ => rfl, fun w hw => absurd hw List.not_mem_nil⟩
  | cons w writes ih =>
    obtain ⟨location, t, hpath, htext⟩ := h w (List.mem_cons_self ..)
    obtain ⟨d₁, hwrite, hsame, htexts⟩ := write_ok hpath htext w.2
    have hrest := ih fun w' hw' => hsame.isFile (h w' (List.mem_cons_of_mem _ hw'))
    have hwritten : d.written (w :: writes) = d₁.written writes := by
      rw [written, List.foldl_cons, hwrite]
      rfl
    rw [hwritten]
    refine ⟨hsame.trans hrest.sameFiles, fun l hl => ?_, fun w' hw' l hl => ?_⟩
    · have hne : l ≠ location := fun heq => hl w (List.mem_cons_self ..) (heq ▸ hpath)
      rw [hrest.untouched l fun w' hw' => hsame.resolve w'.1 ▸ hl w' (List.mem_cons_of_mem _ hw'), htexts, if_neg hne]
    · by_cases hlater : ∃ w' ∈ writes, d.resolve w'.1 = .ok l
      · obtain ⟨w', hw', hl'⟩ := hlater
        obtain ⟨w'', hw'', hl'', htext''⟩ := hrest.holds w' hw' l ((hsame.resolve _).trans hl')
        exact ⟨w'', List.mem_cons_of_mem _ hw'', (hsame.resolve _).symm.trans hl'', htext''⟩
      · -- The first write is the last one at this place.
        have hlast : ∀ w' ∈ writes, d₁.resolve w'.1 ≠ .ok l := fun w' hw' hl' =>
          hlater ⟨w', hw', (hsame.resolve _).symm.trans hl'⟩
        rcases List.mem_cons.mp hw' with rfl | hw'
        · obtain rfl : location = l := Except.ok.inj (hpath.symm.trans hl)
          exact ⟨w', List.mem_cons_self .., hl, by rw [hrest.untouched _ hlast, htexts, if_pos rfl]⟩
        · exact absurd ⟨w', hw', hl⟩ hlater

end Disk

end Reprint
