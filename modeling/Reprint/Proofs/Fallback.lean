import Mathlib
import Reprint.Proofs.Placement
import Reprint.Proofs.Runs
import Reprint.Proofs.Surroundings
/-!
What the fallback printer can decide. Two printers that differ in it alone go side by side: at each step both give a
result or both fail, with one error, and their fragments differ in texts only. Which nodes are handed to the fallback
printer can be read off the trees. Main statement: the fallback printer decides neither whether regeneration fails nor
which ranges are replaced, and each node it cannot print is reported once.
-/

namespace Reprint

/-! ### Steps side by side -/

/-- From whatever diagnostics, two steps give results in the relation `R`, or both fail with one error. -/
def Parallel {α β : Type} (R : α → β → Prop) (m : PrintM α) (m' : PrintM β) : Prop :=
  ∀ ds ds', (∃ a b ds₁ ds₁', Yields m ds a ds₁ ∧ Yields m' ds' b ds₁' ∧ R a b) ∨ ∃ e, Fails m ds e ∧ Fails m' ds' e

namespace Parallel
variable {α β γ δ : Type} {R : α → β → Prop} {S : γ → δ → Prop}

theorem pure {a : α} {b : β} (h : R a b) : Parallel R (Pure.pure a) (Pure.pure b) := fun ds ds' =>
  .inl ⟨a, b, ds, ds', Yields.pure_iff.mpr ⟨rfl, rfl⟩, Yields.pure_iff.mpr ⟨rfl, rfl⟩, h⟩

theorem lift {x : Except RegenError α} {y : Except RegenError β} (hx : ∃ a, x = .ok a) (hy : ∃ b, y = .ok b)
    (h : ∀ a b, x = .ok a → y = .ok b → R a b) : Parallel R (liftM x) (liftM y) := by
  obtain ⟨a, ha⟩ := hx
  obtain ⟨b, hb⟩ := hy
  exact fun ds ds' =>
    .inl ⟨a, b, ds, ds', Yields.lift_iff.mpr ⟨ha, rfl⟩, Yields.lift_iff.mpr ⟨hb, rfl⟩, h a b ha hb⟩

theorem bind {m : PrintM α} {m' : PrintM β} {f : α → PrintM γ} {g : β → PrintM δ} (hm : Parallel R m m')
    (hf : ∀ a b, R a b → Parallel S (f a) (g b)) : Parallel S (m >>= f) (m' >>= g) := by
  intro ds ds'
  obtain ⟨a, b, ds₁, ds₁', ha, hb, hR⟩ | ⟨e, he, he'⟩ := hm ds ds'
  · obtain ⟨c, d, ds₂, ds₂', hc, hd, hS⟩ | ⟨e, he, he'⟩ := hf a b hR ds₁ ds₁'
    · exact .inl ⟨c, d, ds₂, ds₂', Yields.bind_iff.mpr ⟨a, ds₁, ha, hc⟩, Yields.bind_iff.mpr ⟨b, ds₁', hb, hd⟩, hS⟩
    · exact .inr ⟨e, .bind_right ha he, .bind_right hb he'⟩
  · exact .inr ⟨e, he.bind_left, he'.bind_left⟩

/-- A step that both sides take alike. -/
theorem bind_lift {x : Except RegenError α} {f : α → PrintM γ} {g : α → PrintM δ}
    (hf : ∀ a, x = .ok a → Parallel S (f a) (g a)) : Parallel S (liftM x >>= f) (liftM x >>= g) := by
  cases hx : x with
  | ok a =>
    exact bind (R := fun b c => b = a ∧ c = a)
      (lift ⟨a, rfl⟩ ⟨a, rfl⟩ fun b c hb hc => ⟨(Except.ok.inj hb).symm, (Except.ok.inj hc).symm⟩)
      fun b c h => by rw [h.1, h.2]; exact hf a hx
  | error e => exact fun ds ds' => .inr ⟨e, (Fails.lift rfl).bind_left, (Fails.lift rfl).bind_left⟩

theorem mapM {f : γ → PrintM α} {g : γ → PrintM β} {l : List γ} (h : ∀ c ∈ l, Parallel R (f c) (g c)) :
    Parallel (List.Forall₂ R) (l.mapM f) (l.mapM g) := by
  induction l with
  | nil => exact pure .nil
  | cons c l ih =>
    rw [List.mapM_cons, List.mapM_cons]
    refine bind (h c (List.mem_cons_self ..)) fun a b hab => ?_
    exact bind (ih fun d hd => h d (List.mem_cons_of_mem _ hd)) fun as bs habs => pure (.cons hab habs)

/-- Steps that never fail go side by side. -/
theorem of_completes {m : PrintM α} {m' : PrintM β} (h : Completes m) (h' : Completes m') :
    Parallel (fun _ _ => True) m m' := by
  intro ds ds'
  obtain ⟨a, ds₁, ha⟩ := h ds
  obtain ⟨b, ds₁', hb⟩ := h' ds'
  exact .inl ⟨a, b, ds₁, ds₁', ha, hb, trivial⟩

end Parallel

/-! ### Two printers side by side -/

namespace Node

/-- A node that has a place has it in a known file. -/
def Known (u : Units) (n : Node) : Prop := ∀ s, n.span = some s → (u.get? s.file).isSome

theorem known_of_file {u : Units} {n root : Node} {q : Span} (hroot : u.tree? q.file = some root)
    (h : ∀ s, n.span = some s → s.file = q.file) : n.Known u := by
  intro s hs
  obtain ⟨c, hc, -⟩ := Option.map_eq_some_iff.mp hroot
  rw [h s hs, hc]
  rfl

theorem known_of_counterpart {u : Units} {n base : Node} (h : u.counterpart? n = some base) : base.Known u := by
  obtain ⟨q, root, -, hroot, hmem, -⟩ := Units.counterpart?_inv h
  obtain ⟨t, ht, hrange⟩ := standsAt_iff.mp (mem_atRange hmem).2
  refine known_of_file hroot fun s hs => ?_
  cases ht.symm.trans hs
  exact (Span.sameRange_iff.mp hrange).1

theorem known_of_parent {u : Units} {n parent : Node} (h : u.parent? n = some parent) : parent.Known u := by
  obtain ⟨q, root, -, hroot, -, hincludes⟩ := Units.parent?_inv h
  exact known_of_file hroot fun s hs => (Span.includes_iff.mp (hincludes s hs)).1

end Node

/-- The range and the message of an edit. -/
def Edit.target (e : Edit) : Nat × Nat × String := (e.start, e.stop, e.message)

namespace Printer
open Node
variable {u : Units} {style : Style}

/-- Moving a fragment never fails, since the nodes whose indentations it compares belong to known files. -/
theorem relocate_ok {p : Printer} {f : Fragment} {base : Node} {context : Option Node}
    (hcontext : ∀ d, context = some d → d.Known p.units) :
    ∃ f', p.relocate f base context = .ok f' ∧ (f.fresh = false → f'.fresh = false) := by
  have hindent : ∀ {d : Node} {t : Span}, d.Known p.units → d.span = some t → ∃ x, p.indentationOf t = .ok x := by
    intro d t hd ht
    obtain ⟨c, hc⟩ := Option.isSome_iff_exists.mp (hd t ht)
    refine ⟨c.source.text.indentationAt t.start, ?_⟩
    rw [indentationOf, sourceOf, Units.source?, hc]
    rfl
  unfold relocate
  split
  · next context parent hparent =>
    split
    · exact ⟨f, rfl, id⟩
    · split
      · next old new hold hnew =>
        obtain ⟨x, hx⟩ := hindent (known_of_parent hparent) hold
        obtain ⟨y, hy⟩ := hindent (hcontext context rfl) hnew
        rw [hx, hy]
        refine ⟨_, rfl, fun hf => ?_⟩
        split
        · exact hf
        · rfl
      · exact ⟨f, rfl, id⟩
  · exact ⟨f, rfl, id⟩

/-- Two printers with the same units print a node side by side, both from scratch or both not. -/
theorem parallel_printIn (F G : Node → Except PrintError Text) (changed : NodeSet) {context : Option Node} {n : Node}
    (hcontext : ∀ d, context = some d → d.Known u) :
    Parallel (fun f g => f.fresh = g.fresh) (printIn ⟨u, F, style⟩ changed context n)
      (printIn ⟨u, G, style⟩ changed context n) := by
  have hnew : ∀ m : Node, Parallel (fun _ _ => True) (printNew ⟨u, F, style⟩ m) (printNew ⟨u, G, style⟩ m) := fun m =>
    .of_completes (completes_printNew _ m) (completes_printNew _ m)
  induction n using children_induction generalizing context with
  | step n ih =>
    rw [printIn, printIn]
    dsimp only
    cases hcp : u.counterpart? n with
    | none => exact .bind (hnew n) fun _ _ _ => .pure rfl
    | some base =>
      have hbase := known_of_counterpart hcp
      dsimp only
      cases hspan : base.span with
      | none => exact .bind (hnew n) fun _ _ _ => .pure rfl
      | some span =>
        refine .bind_lift fun layout _ => ?_
        have hmoved : ∀ H a, ∃ f, relocate ⟨u, H, style⟩ ⟨layout.leading, a, layout.trailing, false⟩ base context = .ok f ∧
            f.fresh = false := by
          intro H a
          obtain ⟨f, hf, hfresh⟩ := relocate_ok (p := ⟨u, H, style⟩) hcontext
          exact ⟨f, hf, hfresh rfl⟩
        -- Whether a moved fragment is fresh does not depend on its text, and so not on the fallback printer.
        have hlast : ∀ a b : Text, True → Parallel (fun f g => f.fresh = g.fresh)
            (liftM (relocate ⟨u, F, style⟩ ⟨layout.leading, a, layout.trailing, false⟩ base context))
            (liftM (relocate ⟨u, G, style⟩ ⟨layout.leading, b, layout.trailing, false⟩ base context)) := by
          intro a b _
          obtain ⟨f, hf, hfresh⟩ := hmoved F a
          obtain ⟨g, hg, hgfresh⟩ := hmoved G b
          refine .lift ⟨f, hf⟩ ⟨g, hg⟩ fun f' g' hf' hg' => ?_
          obtain rfl := Except.ok.inj (hf.symm.trans hf')
          obtain rfl := Except.ok.inj (hg.symm.trans hg')
          rw [hfresh, hgfresh]
        split
        · exact .bind_lift fun t _ => hlast t t trivial
        · split
          · exact .bind (.of_completes (completes_printLeaf _ n) (completes_printLeaf _ n)) hlast
          · refine .bind_lift fun source _ => .bind_lift fun o _ => ?_
            cases o with
            | none => exact .bind (hnew n) hlast
            | some affixes =>
              refine .bind (.mapM fun x _ => .bind (ih x.1 x.2 ?_) fun f g _ => .pure (R := fun _ _ => True) trivial)
                fun _ _ _ => .bind (.pure trivial) hlast
              rintro d ⟨⟩
              exact hbase

theorem parallel_editOf (F G : Node → Except PrintError Text) (r : Region) :
    Parallel (fun e e' => e.target = e'.target) (editOf ⟨u, F, style⟩ r) (editOf ⟨u, G, style⟩ r) := by
  refine .bind (R := fun _ _ => True) (.bind (parallel_printIn F G r.changed fun d hd => nomatch hd) ?_)
    fun a b _ => .pure rfl
  intro f g hfresh
  rw [← hfresh]
  split
  · exact .bind_lift fun _ _ => .pure trivial
  · exact .pure trivial

/-! ### What is reported -/

/-- What is reported of a node that the fallback printer is given. -/
def complaint? (fallback : Node → Except PrintError Text) (n : Node) : Option Diagnostic :=
  match fallback n with
  | .ok _ => none
  | .error e => some { tag := n.tag, message := e.message }

end Printer

/-- The nodes that go to the fallback printer when a node is printed. -/
def Units.requests (u : Units) (changed : NodeSet) (n : Node) : List Node :=
  match u.counterpart? n with
  | none => [n]
  | some base =>
    if n.isPristine changed base then []
    else if n.children.isEmpty then if (Printer.leafText? n).isSome then [] else [n]
    else if base.layoutSpan.isSome && base.children.any (·.layoutSpan.isSome) then
      n.children.attach.flatMap fun ⟨c, _⟩ => u.requests changed c
    else [n]
termination_by n.weight
decreasing_by exact Node.weight_lt_of_mem_children ‹_›

/-- Whenever a step ends well, it has reported `xs`. -/
def Reports {α : Type} (m : PrintM α) (xs : List Diagnostic) : Prop :=
  ∀ ds a ds', Yields m ds a ds' → ds' = ds ++ xs

namespace Reports
variable {α β : Type} {xs ys : List Diagnostic}

theorem pure (a : α) : Reports (Pure.pure a) [] := by
  intro ds b ds' h
  rw [← (Yields.pure_iff.mp h).2, List.append_nil]

theorem bind {m : PrintM α} {f : α → PrintM β} (hm : Reports m xs) (hf : ∀ a, Reports (f a) ys) :
    Reports (m >>= f) (xs ++ ys) := by
  intro ds b ds' h
  obtain ⟨a, ds₁, ha, hb⟩ := Yields.bind_iff.mp h
  rw [hf a ds₁ b ds' hb, hm ds a ds₁ ha, List.append_assoc]

/-- A step after which nothing is reported. -/
theorem bind_nil {m : PrintM α} {f : α → PrintM β} (hm : Reports m xs) (hf : ∀ a, Reports (f a) []) :
    Reports (m >>= f) xs := by
  have := bind hm hf
  rwa [List.append_nil] at this

theorem bind_lift {x : Except RegenError α} {f : α → PrintM β} (hf : ∀ a, x = .ok a → Reports (f a) ys) :
    Reports (liftM x >>= f) ys := by
  intro ds b ds' h
  obtain ⟨a, ds₁, ha, hb⟩ := Yields.bind_iff.mp h
  obtain ⟨hx, rfl⟩ := Yields.lift_iff.mp ha
  exact hf a hx ds b ds' hb

theorem lift (x : Except RegenError α) : Reports (liftM x) [] := by
  intro ds a ds' h
  rw [← (Yields.lift_iff.mp h).2, List.append_nil]

theorem mapM {γ : Type} {f : γ → PrintM α} {g : γ → List Diagnostic} {l : List γ} (h : ∀ c ∈ l, Reports (f c) (g c)) :
    Reports (l.mapM f) (l.flatMap g) := by
  induction l with
  | nil => exact pure []
  | cons c l ih =>
    rw [List.mapM_cons, List.flatMap_cons]
    exact bind (h c (List.mem_cons_self ..)) fun _ =>
      bind_nil (ih fun d hd => h d (List.mem_cons_of_mem _ hd)) fun _ => pure _

end Reports

namespace Printer
open Node
variable {p : Printer}

theorem reports_printNew (n : Node) : Reports (p.printNew n) ([n].filterMap (complaint? p.fallback)) := by
  unfold printNew
  cases h : p.fallback n with
  | ok t => simpa [complaint?, h] using Reports.pure t
  | error e =>
    intro ds a ds' hy
    obtain ⟨_, ds₁, hnoted, hpure⟩ := Yields.bind_iff.mp hy
    obtain ⟨-, rfl⟩ := Yields.pure_iff.mp hpure
    have hds : ds₁ = ds ++ [{ tag := n.tag, message := e.message }] := (congrArg Prod.snd hnoted).symm
    simp [hds, complaint?, h]

theorem reports_printLeaf (n : Node) :
    Reports (p.printLeaf n) ((if (leafText? n).isSome then [] else [n]).filterMap (complaint? p.fallback)) := by
  unfold printLeaf
  cases leafText? n with
  | some t => exact .pure t
  | none => exact reports_printNew n

/-- A node has text around its children if it and one of them can be measured. -/
theorem affixes?_isSome {source : Source} {base : Node} {o : Option Layout}
    (h : Layout.affixes? source base = .ok o) :
    o.isSome = (base.layoutSpan.isSome && base.children.any (·.layoutSpan.isSome)) := by
  unfold Layout.affixes? at h
  dsimp only at h
  cases hplace : base.layoutSpan with
  | none =>
    rw [hplace] at h
    cases h
    rfl
  | some bounds =>
    rw [hplace] at h
    cases hspans : base.children.filterMap (·.layoutSpan) with
    | nil =>
      rw [hspans] at h
      cases h
      have hnone := List.filterMap_eq_nil_iff.mp hspans
      exact (List.any_eq_false.mpr fun c hc => by rw [hnone c hc]; exact Bool.false_ne_true).symm
    | cons s ss =>
      obtain ⟨c, hc, hs⟩ := List.mem_filterMap.mp (hspans ▸ List.mem_cons_self (a := s) (l := ss))
      have hany : base.children.any (·.layoutSpan.isSome) = true := List.any_eq_true.mpr ⟨c, hc, by rw [hs]; rfl⟩
      rw [hspans, List.head?_cons, List.getLast?_cons] at h
      obtain ⟨leading, -, h⟩ := Layout.exists_of_bind_eq_ok h
      obtain ⟨trailing, -, ⟨⟩⟩ := Layout.exists_of_bind_eq_ok h
      rw [hany]
      rfl

/-- Printing a node reports those of its requests that the fallback printer cannot print. -/
theorem reports_printIn (changed : NodeSet) (context : Option Node) (n : Node) :
    Reports (p.printIn changed context n) ((p.units.requests changed n).filterMap (complaint? p.fallback)) := by
  induction n using children_induction generalizing context with
  | step n ih =>
    rw [printIn, Units.requests]
    cases hcp : p.units.counterpart? n with
    | none => exact .bind_nil (reports_printNew n) fun _ => .pure _
    | some base =>
      obtain ⟨span, hspan⟩ := Units.counterpart?_span hcp
      dsimp only
      rw [hspan]
      refine .bind_lift fun layout _ => ?_
      split
      · exact .bind_lift fun _ _ => .lift _
      · split
        · exact .bind_nil (reports_printLeaf n) fun _ => .lift _
        · refine .bind_lift fun source _ => .bind_lift fun o ho => ?_
          rw [← affixes?_isSome ho]
          cases o with
          | none => exact .bind_nil (reports_printNew n) fun _ => .lift _
          | some affixes =>
            have hchildren :
                ((n.children.attach.flatMap fun x => p.units.requests changed x.1).filterMap (complaint? p.fallback)) =
                n.children.attach.flatMap fun x => (p.units.requests changed x.1).filterMap (complaint? p.fallback) :=
              List.filterMap_flatMap
            rw [Option.isSome_some, if_pos rfl, hchildren]
            refine .bind_nil (.mapM fun x _ => .bind_nil (ih x.1 x.2 _) fun _ => .pure _) fun _ => ?_
            exact .bind_nil (.pure _) fun _ => .lift _

theorem reports_editOf (r : Region) :
    Reports (p.editOf r) ((p.units.requests r.changed r.top).filterMap (complaint? p.fallback)) := by
  refine .bind_nil (.bind_nil (reports_printIn r.changed none r.top) fun f => ?_) fun _ => .pure _
  split
  · exact .bind_lift fun _ _ => .pure _
  · exact .pure _

/-- The nodes that go to the fallback printer when an edited tree is regenerated. -/
def requests (u : Units) (root : Node) : List Node :=
  (Region.find u root).flatMap fun r => u.requests r.changed r.top

section Agreement
variable {u : Units} {style : Style} {F G : Node → Except PrintError Text}

theorem printNew_congr {n : Node} (h : F n = G n) : printNew ⟨u, F, style⟩ n = printNew ⟨u, G, style⟩ n := by
  unfold printNew
  dsimp only
  rw [h]

theorem printLeaf_congr {n : Node} (h : ∀ m ∈ if (leafText? n).isSome then [] else [n], F m = G m) :
    printLeaf ⟨u, F, style⟩ n = printLeaf ⟨u, G, style⟩ n := by
  unfold printLeaf
  cases hleaf : leafText? n with
  | some t => rfl
  | none => exact printNew_congr (h n (by rw [hleaf]; exact List.mem_singleton_self n))

theorem bind_lift_congr {α β : Type} {x : Except RegenError α} {f g : α → PrintM β}
    (h : ∀ a, x = .ok a → f a = g a) : (liftM x : PrintM α) >>= f = liftM x >>= g := by
  cases x with
  | ok a => exact h a rfl
  | error e => rfl

/-- Fallback printers that agree on the requests of a node print it alike. -/
theorem printIn_congr (changed : NodeSet) (context : Option Node) {n : Node}
    (h : ∀ m ∈ u.requests changed n, F m = G m) :
    printIn ⟨u, F, style⟩ changed context n = printIn ⟨u, G, style⟩ changed context n := by
  induction n using children_induction generalizing context with
  | step n ih =>
    rw [Units.requests] at h
    rw [printIn, printIn]
    dsimp only
    cases hcp : u.counterpart? n with
    | none =>
      rw [hcp] at h
      exact congrArg (· >>= _) (printNew_congr (h n (List.mem_singleton_self n)))
    | some base =>
      obtain ⟨span, hspan⟩ := Units.counterpart?_span hcp
      rw [hcp] at h
      dsimp only at h ⊢
      rw [hspan]
      refine bind_lift_congr fun layout _ => ?_
      -- Requests are collected in the cases in which the node is printed.
      split at h
      · next hpristine =>
        rw [if_pos hpristine, if_pos hpristine]
        rfl
      · next hpristine =>
        rw [if_neg hpristine, if_neg hpristine]
        split at h
        · next hleaf =>
          rw [if_pos hleaf, if_pos hleaf, printLeaf_congr h]
          rfl
        · next hleaf =>
          rw [if_neg hleaf, if_neg hleaf]
          refine bind_lift_congr fun source _ => bind_lift_congr fun o ho => ?_
          rw [← affixes?_isSome ho] at h
          cases o with
          | none =>
            dsimp only
            rw [printNew_congr (h n (List.mem_singleton_self n))]
            rfl
          | some affixes =>
            dsimp only
            rw [mapM_congr fun x hx => ?_]
            · rfl
            · rw [ih x.1 x.2 _ fun m hm => h m (List.mem_flatMap.mpr ⟨x, hx, hm⟩)]

theorem editOf_congr {r : Region} (h : ∀ m ∈ u.requests r.changed r.top, F m = G m) :
    editOf ⟨u, F, style⟩ r = editOf ⟨u, G, style⟩ r := by
  unfold editOf printRegion print
  rw [printIn_congr r.changed none h]
  rfl

end Agreement

/-! ### Regeneration -/

section Regeneration
variable {u : Units} {style : Style}

theorem regenerate_parallel (F G : Node → Except PrintError Text) (root : Node) :
    (∃ e, regenerate ⟨u, F, style⟩ root = .error e ∧ regenerate ⟨u, G, style⟩ root = .error e) ∨
      ∃ g g', regenerate ⟨u, F, style⟩ root = .ok g ∧ regenerate ⟨u, G, style⟩ root = .ok g' ∧
        g.edits.map Edit.target = g'.edits.map Edit.target := by
  cases hcp : u.counterpart? root with
  | none =>
    have hnone : ∀ H, regenerate ⟨u, H, style⟩ root = .error .noCounterpart := by
      intro H
      unfold regenerate
      dsimp only
      rw [hcp]
      rfl
    exact .inl ⟨_, hnone F, hnone G⟩
  | some base =>
    have hsome : (u.counterpart? root).isSome := by rw [hcp]; rfl
    have hedits : Parallel (List.Forall₂ fun e e' => e.target = e'.target)
        ((Region.find u root).mapM (editOf ⟨u, F, style⟩)) ((Region.find u root).mapM (editOf ⟨u, G, style⟩)) :=
      .mapM fun r _ => parallel_editOf F G r
    obtain ⟨es, es', ds, ds', hes, hes', htargets⟩ | ⟨e, he, he'⟩ := hedits [] []
    · refine .inr ⟨⟨es, ds⟩, ⟨es', ds'⟩, regenerate_eq_ok_iff.mpr ⟨hsome, hes⟩,
        regenerate_eq_ok_iff.mpr ⟨hsome, hes'⟩, ?_⟩
      rw [← List.forall₂_eq_eq_eq, List.forall₂_map_left_iff, List.forall₂_map_right_iff]
      exact htargets
    · exact .inl ⟨e, regenerate_of_fails hsome he, regenerate_of_fails hsome he'⟩

theorem regenerate_congr {F G : Node → Except PrintError Text} {root : Node}
    (h : ∀ n ∈ requests u root, F n = G n) :
    regenerate ⟨u, F, style⟩ root = regenerate ⟨u, G, style⟩ root := by
  unfold regenerate
  rw [mapM_congr fun r hr => editOf_congr fun m hm => h m (List.mem_flatMap.mpr ⟨r, hr, hm⟩)]

theorem diagnostics_of_regenerate {p : Printer} {root : Node} {g : Regeneration} (h : p.regenerate root = .ok g) :
    g.diagnostics = (requests p.units root).filterMap (complaint? p.fallback) := by
  obtain ⟨-, hedits⟩ := regenerate_eq_ok_iff.mp h
  rw [Reports.mapM (fun r _ => reports_editOf r) [] g.edits g.diagnostics hedits, List.nil_append, requests]
  exact List.filterMap_flatMap.symm

end Regeneration

/-- What the fallback printer decides. Whether regeneration fails, and how, does not depend on it, nor do the ranges
and the messages of the edits. It is asked for the requests only. What is reported are those requests that it cannot
print, one by one: none of them if it always gives a text, each of them if it never does. -/
theorem regenerate_fallback (u : Units) (style : Style) (root : Node) (F G : Node → Except PrintError Text) :
    (∀ e, regenerate ⟨u, F, style⟩ root = .error e ↔ regenerate ⟨u, G, style⟩ root = .error e) ∧
    ((∀ n ∈ requests u root, F n = G n) → regenerate ⟨u, F, style⟩ root = regenerate ⟨u, G, style⟩ root) ∧
    ∀ g, regenerate ⟨u, F, style⟩ root = .ok g →
      (∃ g', regenerate ⟨u, G, style⟩ root = .ok g' ∧ g.edits.map Edit.target = g'.edits.map Edit.target) ∧
      g.diagnostics = (requests u root).filterMap (complaint? F) ∧
      ((∀ n, ∃ t, F n = .ok t) → g.diagnostics = []) ∧
      ((∀ n, ∃ e, F n = .error e) → g.diagnostics.map (·.tag) = (requests u root).map (·.tag)) := by
  refine ⟨fun e => ?_, regenerate_congr, fun g hg => ?_⟩
  · obtain ⟨e', hF, hG⟩ | ⟨g, g', hF, hG, -⟩ := regenerate_parallel F G root
    · rw [hF, hG]
    · rw [hF, hG]
      exact ⟨nofun, nofun⟩
  · have hreported : g.diagnostics = (requests u root).filterMap (complaint? F) := diagnostics_of_regenerate hg
    refine ⟨?_, hreported, fun hall => ?_, fun hnone => ?_⟩
    · obtain ⟨e, hF, -⟩ | ⟨g₁, g', hF, hG, htargets⟩ := regenerate_parallel F G root
      · rw [hF] at hg
        cases hg
      · cases hF.symm.trans hg
        exact ⟨g', hG, htargets⟩
    · rw [hreported]
      refine List.filterMap_eq_nil_iff.mpr fun n _ => ?_
      obtain ⟨t, ht⟩ := hall n
      rw [complaint?, ht]
    · rw [hreported, List.map_filterMap, ← List.filterMap_eq_map]
      refine List.filterMap_congr fun n _ => ?_
      obtain ⟨e, he⟩ := hnone n
      rw [complaint?, he]
      rfl

/-- The text `f(a)` and its tree. -/
def oneCall : CompilationUnit where
  source := { name := "A.scala", text := ['f', '(', 'a', ')'] }
  root := .mk (.built 2) (some (.range "A.scala" 0 4))
    (.apply (.mk (.built 0) (some (.range "A.scala" 0 1)) (.ident "f"))
      [.mk (.built 1) (some (.range "A.scala" 2 3)) (.ident "a")])

/-- The call with a new argument. -/
def longerCall : Node :=
  .mk (.built 4) (some (.range "A.scala" 0 4))
    (.apply (.mk (.built 0) (some (.range "A.scala" 0 1)) (.ident "f"))
      [.mk (.built 1) (some (.range "A.scala" 2 3)) (.ident "a"), .mk (.built 3) none (.ident "x")])

set_option maxRecDepth 2000 in
/-- A printer that fails on the new argument replaces the call all the same, and reports that argument. -/
theorem regenerate_fallback_longerCall :
    ∃ g, regenerate ⟨.single oneCall, fun n => .error (.unsupported n.tag), {}⟩ longerCall = .ok g ∧
      g.edits.map Edit.target = [(0, 4, "Regenerate apply")] ∧ g.diagnostics.map (·.tag) = [.ident] := by
  let F : Node → Except PrintError Text := fun n => .error (.unsupported n.tag)
  let G : Node → Except PrintError Text := fun _ => .ok ['x']
  have hG : regenerate ⟨.single oneCall, G, {}⟩ longerCall =
      .ok { edits := [{ start := 0, stop := 4, replacement := ['f', '(', 'a', ',', ' ', 'x', ')'],
                        message := "Regenerate apply" }],
            diagnostics := [] } := by cbv
  have hrequests : (requests (.single oneCall) longerCall).map (·.tag) = [.ident] := by cbv
  obtain ⟨-, -, h⟩ := regenerate_fallback (.single oneCall) {} longerCall G F
  obtain ⟨⟨g, hF, htargets⟩, -⟩ := h _ hG
  obtain ⟨-, -, h⟩ := regenerate_fallback (.single oneCall) {} longerCall F G
  obtain ⟨-, -, -, htags⟩ := h g hF
  exact ⟨g, hF, htargets.symm, (htags fun n => ⟨_, rfl⟩).trans hrequests⟩

end Printer

end Reprint
