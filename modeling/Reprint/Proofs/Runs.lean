import Reprint.Regenerate
/-!
Steps of printing that end well or fail, as relations between the diagnostics before and after. A chain of steps is
taken apart with `bind_iff` and its companions, without unfolding the monad.
-/

namespace Reprint

/-- The second of two steps is taken if the first does not fail. -/
theorem run_bind {α β : Type} (m : PrintM α) (f : α → PrintM β) (ds : List Diagnostic) :
    ((m >>= f).run.run ds).run =
      match (m.run.run ds).run with
      | (.ok a, ds₁) => ((f a).run.run ds₁).run
      | (.error e, ds₁) => (.error e, ds₁) := by
  show (ExceptT.bindCont f (m.run.run ds).run.1 (m.run.run ds).run.2) = _
  rcases (m.run.run ds).run with ⟨_ | a, ds₁⟩ <;> rfl

/-- From the diagnostics `ds` a step gives `a` and leaves `ds'`. -/
def Yields {α : Type} (m : PrintM α) (ds : List Diagnostic) (a : α) (ds' : List Diagnostic) : Prop :=
  (m.run.run ds).run = (.ok a, ds')

namespace Yields
variable {α β : Type} {ds ds' : List Diagnostic}

theorem pure_iff {a b : α} : Yields (pure a) ds b ds' ↔ a = b ∧ ds = ds' := by
  show ((Except.ok a, ds) : Except RegenError α × List Diagnostic) = (.ok b, ds') ↔ _
  simp

theorem lift_iff {x : Except RegenError α} {a : α} : Yields (liftM x) ds a ds' ↔ x = .ok a ∧ ds = ds' := by
  show ((x, ds) : Except RegenError α × List Diagnostic) = (.ok a, ds') ↔ _
  simp

theorem bind_iff {m : PrintM α} {f : α → PrintM β} {b : β} :
    Yields (m >>= f) ds b ds' ↔ ∃ a ds₁, Yields m ds a ds₁ ∧ Yields (f a) ds₁ b ds' := by
  unfold Yields
  rw [run_bind]
  rcases (m.run.run ds).run with ⟨_ | a, ds₁⟩
  · simp
  · simp [and_assoc]

theorem mapM_nil_iff {f : α → PrintM β} {bs : List β} : Yields ([].mapM f) ds bs ds' ↔ [] = bs ∧ ds = ds' := by
  rw [List.mapM_nil, pure_iff]

theorem mapM_cons_iff {f : α → PrintM β} {a : α} {l : List α} {bs : List β} :
    Yields ((a :: l).mapM f) ds bs ds' ↔
      ∃ b ds₁ cs, Yields (f a) ds b ds₁ ∧ Yields (l.mapM f) ds₁ cs ds' ∧ b :: cs = bs := by
  simp only [List.mapM_cons, bind_iff, pure_iff]
  constructor
  · rintro ⟨b, ds₁, hb, cs, ds₂, hcs, heq, rfl⟩
    exact ⟨b, ds₁, cs, hb, hcs, heq⟩
  · rintro ⟨b, ds₁, cs, hb, hcs, heq⟩
    exact ⟨b, ds₁, hb, cs, ds', hcs, heq, rfl⟩

/-- Results are kept with what they belong to. -/
theorem mapM_keyed_cons {f : α → PrintM β} {a : α} {b : β} {l : List α} {bs : List (α × β)} {ds₁ : List Diagnostic}
    (ha : Yields (f a) ds b ds₁) (hl : Yields (l.mapM fun a => do return (a, ← f a)) ds₁ bs ds') :
    Yields ((a :: l).mapM fun a => do return (a, ← f a)) ds ((a, b) :: bs) ds' :=
  mapM_cons_iff.mpr ⟨(a, b), ds₁, bs, bind_iff.mpr ⟨b, ds₁, ha, pure_iff.mpr ⟨rfl, rfl⟩⟩, hl, rfl⟩

/-- Steps that leave the diagnostics alone do so one after the other. -/
theorem mapM_of_forall {f : α → PrintM β} {g : α → β} {l : List α} (h : ∀ a ∈ l, Yields (f a) ds (g a) ds) :
    Yields (l.mapM f) ds (l.map g) ds := by
  induction l with
  | nil => exact mapM_nil_iff.mpr ⟨rfl, rfl⟩
  | cons a l ih =>
    exact mapM_cons_iff.mpr ⟨g a, ds, l.map g, h a (List.mem_cons_self ..),
      ih fun b hb => h b (List.mem_cons_of_mem _ hb), rfl⟩

end Yields

/-- From the diagnostics `ds` a step fails with `e`. -/
def Fails {α : Type} (m : PrintM α) (ds : List Diagnostic) (e : RegenError) : Prop :=
  ∃ ds', (m.run.run ds).run = (.error e, ds')

namespace Fails
variable {α β : Type} {ds ds' : List Diagnostic} {e : RegenError}

theorem lift {x : Except RegenError α} (h : x = .error e) : Fails (liftM x) ds e := ⟨ds, by subst h; rfl⟩

theorem bind_left {m : PrintM α} {f : α → PrintM β} (h : Fails m ds e) : Fails (m >>= f) ds e := by
  obtain ⟨ds', h⟩ := h
  exact ⟨ds', by rw [run_bind, h]⟩

theorem bind_right {m : PrintM α} {f : α → PrintM β} {a : α} (hm : Yields m ds a ds') (h : Fails (f a) ds' e) :
    Fails (m >>= f) ds e := by
  obtain ⟨ds'', h⟩ := h
  refine ⟨ds'', ?_⟩
  rw [run_bind, show (m.run.run ds).run = (.ok a, ds') from hm]
  exact h

end Fails

/-- Whatever the diagnostics are, the step gives a result. -/
def Completes {α : Type} (m : PrintM α) : Prop := ∀ ds, ∃ a ds', Yields m ds a ds'

namespace Completes
variable {α β : Type}

theorem pure (a : α) : Completes (Pure.pure a) := fun ds => ⟨a, ds, Yields.pure_iff.mpr ⟨rfl, rfl⟩⟩

theorem lift {x : Except RegenError α} (h : ∃ a, x = .ok a) : Completes (liftM x) := fun ds =>
  h.imp fun _ ha => ⟨ds, Yields.lift_iff.mpr ⟨ha, rfl⟩⟩

theorem bind {m : PrintM α} {f : α → PrintM β} (hm : Completes m) (hf : ∀ a, Completes (f a)) :
    Completes (m >>= f) := by
  intro ds
  obtain ⟨a, ds₁, ha⟩ := hm ds
  obtain ⟨b, ds₂, hb⟩ := hf a ds₁
  exact ⟨b, ds₂, Yields.bind_iff.mpr ⟨a, ds₁, ha, hb⟩⟩

theorem bind_lift {x : Except RegenError α} {a : α} {f : α → PrintM β} (hx : x = .ok a) (hf : Completes (f a)) :
    Completes (liftM x >>= f) := by
  intro ds
  obtain ⟨b, ds', hb⟩ := hf ds
  exact ⟨b, ds', Yields.bind_iff.mpr ⟨a, ds, Yields.lift_iff.mpr ⟨hx, rfl⟩, hb⟩⟩

theorem mapM {f : α → PrintM β} {l : List α} (h : ∀ a ∈ l, Completes (f a)) : Completes (l.mapM f) := by
  induction l with
  | nil => exact pure []
  | cons a l ih =>
    rw [List.mapM_cons]
    exact bind (h a (List.mem_cons_self ..)) fun _ => bind (ih fun b hb => h b (List.mem_cons_of_mem _ hb)) fun _ => pure _

end Completes

theorem mapM_congr {m : Type → Type} [Monad m] [LawfulMonad m] {α β : Type} {f g : α → m β} {l : List α}
    (h : ∀ a ∈ l, f a = g a) : l.mapM f = l.mapM g := by
  induction l with
  | nil => rfl
  | cons a l ih =>
    rw [List.mapM_cons, List.mapM_cons, h a (List.mem_cons_self ..), ih fun b hb => h b (List.mem_cons_of_mem _ hb)]

theorem mapM_attach {α β : Type} (l : List α) (f : α → PrintM β) : (l.attach.mapM fun x => f x.1) = l.mapM f := by
  have := List.mapM_map (l := l.attach) (f := Subtype.val) (g := f)
  rw [List.attach_map_subtype_val] at this
  exact this.symm

theorem toOption_eq_some_iff {ε α : Type} {x : Except ε α} {a : α} : x.toOption = some a ↔ x = .ok a := by
  cases x <;> simp [Except.toOption]

namespace Printer

theorem completes_printNew (p : Printer) (n : Node) : Completes (p.printNew n) := by
  unfold printNew
  split
  · exact .pure _
  · exact .bind (fun ds => ⟨(), _, rfl⟩) fun _ => .pure _

theorem completes_printLeaf (p : Printer) (n : Node) : Completes (p.printLeaf n) := by
  unfold printLeaf
  split
  · exact .pure _
  · exact completes_printNew p n

theorem regenerate_eq_ok_iff {p : Printer} {root : Node} {g : Regeneration} : p.regenerate root = .ok g ↔
    (p.units.counterpart? root).isSome ∧
      Yields ((Region.find p.units root).mapM p.editOf) [] g.edits g.diagnostics := by
  unfold regenerate Yields
  cases hcp : p.units.counterpart? root with
  | none => simp
  | some base =>
    simp only [Option.isNone_some, Bool.false_eq_true, ↓reduceIte, Option.isSome_some, true_and]
    obtain ⟨edits, ds⟩ := g
    simp only [Id.run]
    rcases ((Region.find p.units root).mapM p.editOf).run.run [] with ⟨_ | es, ds'⟩
    · simp
    · simp

theorem regenerate_of_fails {p : Printer} {root : Node} {e : RegenError} (hcp : (p.units.counterpart? root).isSome)
    (h : Fails ((Region.find p.units root).mapM p.editOf) [] e) : p.regenerate root = .error e := by
  obtain ⟨ds', h⟩ := h
  simp only [Id.run] at h
  unfold regenerate
  rw [if_neg (by rw [Option.isNone_iff_eq_none]; exact Option.isSome_iff_ne_none.mp hcp), h]

theorem applyAll_nil (t : Text) : Edit.applyAll t [] = .ok t := by
  simp [Edit.applyAll, Edit.fromEnd, Edit.check, bind, Except.bind, pure, Except.pure]

/-- The text of a unit after regeneration, if nothing fails. -/
def rewrite? (p : Printer) (c : CompilationUnit) (edited : Node) : Option Text := do
  let g ← (p.regenerate edited).toOption
  (Edit.applyAll c.source.text g.edits).toOption

theorem rewrite?_eq_some_iff {p : Printer} {c : CompilationUnit} {edited : Node} {t : Text} :
    p.rewrite? c edited = some t ↔
      ∃ g, p.regenerate edited = .ok g ∧ Edit.applyAll c.source.text g.edits = .ok t := by
  rw [rewrite?]
  refine Option.bind_eq_some_iff.trans ?_
  simp only [toOption_eq_some_iff]

/-- Where nothing is found, the text stays as it is. -/
theorem rewrite?_of_find_nil {p : Printer} {c : CompilationUnit} {edited : Node}
    (hcp : (p.units.counterpart? edited).isSome) (hfind : Region.find p.units edited = []) :
    p.rewrite? c edited = some c.source.text := by
  refine rewrite?_eq_some_iff.mpr ⟨⟨[], []⟩, regenerate_eq_ok_iff.mpr ⟨hcp, ?_⟩, applyAll_nil _⟩
  rw [hfind]
  exact Yields.mapM_nil_iff.mpr ⟨rfl, rfl⟩

/-- The printer for one unit, with everything else as it comes. -/
def plain (c : CompilationUnit) : Printer := { units := .single c, fallback := fun n => n.pretty {} }

end Printer

end Reprint
