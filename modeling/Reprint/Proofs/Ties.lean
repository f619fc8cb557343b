import Mathlib
import Reprint.Proofs.Substitution
/-!
Edits that start together. They are taken in the order of the list, and each of them has to end where the one before it
starts, so all but the first have to be insertions. Main statement: edits are accepted in a given order, in some order or
in every order exactly if they are so apart from ties and, of every two that start together, the later one, one or both
are insertions. So the order decides about insertions at the start of a range, and about nothing else.
-/

namespace Reprint

namespace Edit
open Text

/-- An edit that takes nothing away. -/
def Inserts (e : Edit) : Prop := e.stop = e.start

instance : DecidablePred Inserts := fun e => inferInstanceAs (Decidable (e.stop = e.start))

/-- Whether edits can be applied to a text. -/
def Accepted (t : Text) (es : List Edit) : Prop := ∃ t', applyAll t es = .ok t'

/-- Every range is in bounds, and none reaches beyond the start of an edit that starts later. -/
structure Sound (t : Text) (es : List Edit) : Prop where
  bounds : ∀ e ∈ es, e.InBounds t
  separate : Separate es

/-- Of every two edits that start together, the earlier and the later one of the list are related. -/
def Ties (r : Edit → Edit → Prop) (es : List Edit) : Prop := es.Pairwise fun a b => a.start = b.start → r a b

section Order
variable {t : Text} {es es' : List Edit}

/-- Edits that start together stay in the order of the list. -/
theorem filter_fromEnd (es : List Edit) (n : Nat) :
    (fromEnd es).filter (·.start == n) = es.filter (·.start == n) := by
  rw [fromEnd, filter_mergeSort (fun a b c => by simp; omega) (fun a b => by simp; omega)]
  refine List.mergeSort_of_pairwise (List.pairwise_of_forall_mem_list fun a ha b hb => ?_)
  have ha := beq_iff_eq.mp (List.mem_filter.mp ha).2
  have hb := beq_iff_eq.mp (List.mem_filter.mp hb).2
  exact decide_eq_true (hb.trans ha.symm).le

theorem ties_iff_filter {r : Edit → Edit → Prop} :
    Ties r es ↔ ∀ n, (es.filter (·.start == n)).Pairwise r := by
  simp only [Ties, List.pairwise_filter, beq_iff_eq]
  constructor
  · intro h n
    exact h.imp fun hab ha hb => hab (ha.trans hb.symm)
  · intro h
    rw [List.pairwise_iff_forall_sublist]
    intro a b hab heq
    exact List.pairwise_iff_forall_sublist.mp (h a.start) hab rfl heq.symm

-- The sort is stable, so going from the end on does not touch ties.
theorem ties_fromEnd {r : Edit → Edit → Prop} : Ties r (fromEnd es) ↔ Ties r es := by
  simp only [ties_iff_filter, filter_fromEnd]

theorem Sound.perm (h : Sound t es) (hperm : es'.Perm es) : Sound t es' where
  bounds e he := h.bounds e (hperm.mem_iff.mp he)
  separate a ha b hb := h.separate a (hperm.mem_iff.mp ha) b (hperm.mem_iff.mp hb)

theorem Ties.perm {r : Edit → Edit → Prop} (h : Ties r es) (hsymm : ∀ {a b}, r a b → r b a) (hperm : es'.Perm es) :
    Ties r es' :=
  (hperm.pairwise_iff fun hab heq => hsymm (hab heq.symm)).mpr h

/-- From the end on, each edit ends where the previous one starts exactly if different starts are kept apart and no
edit but the first of those that start together goes beyond its start. -/
theorem pairwise_fromEnd_iff : ((fromEnd es).Pairwise fun a b => b.stop ≤ a.start) ↔
    Separate es ∧ Ties (fun a b => b.stop ≤ a.start) es := by
  rw [← ties_fromEnd]
  constructor
  · intro h
    -- Of two edits the one that starts later comes first, so only pairs from behind have to be looked at.
    have hahead : (fromEnd es).Pairwise fun a b => a.start < b.start → a.stop ≤ b.start :=
      (fromEnd_sorted es).imp fun hle hlt => absurd hlt (Nat.not_lt.mpr hle)
    have hbehind : (fromEnd es).Pairwise (flip fun a b => a.start < b.start → a.stop ≤ b.start) := by
      refine h.imp ?_
      intro a b hab _
      exact hab
    constructor
    · intro a ha b hb
      exact hahead.forall_of_forall_of_flip (fun a _ hlt => absurd hlt (Nat.lt_irrefl _)) hbehind (mem_fromEnd.mpr ha)
        (mem_fromEnd.mpr hb)
    · refine h.imp ?_
      intro a b hab _
      exact hab
  · rintro ⟨hseparate, hties⟩
    refine List.Pairwise.imp_of_mem (fun {a b} ha hb hab => ?_) ((fromEnd_sorted es).and hties)
    rcases Nat.lt_or_eq_of_le hab.1 with hlt | heq
    · exact hseparate b (mem_fromEnd.mp hb) a (mem_fromEnd.mp ha) hlt
    · exact hab.2 heq.symm

end Order

/-! ### Acceptance -/

section Acceptance
variable {t : Text} {es : List Edit}

/-- In the order given, the later ones of edits that start together have to be insertions. -/
theorem accepted_iff : Accepted t es ↔ Sound t es ∧ Ties (fun _ b => b.Inserts) es := by
  simp only [Accepted, applyAll_eq_ok_iff, exists_and_left, exists_eq', and_true]
  simp only [fitting_iff, pairwise_fromEnd_iff, mem_fromEnd]
  constructor
  · rintro ⟨hbounds, hseparate, hties⟩
    refine ⟨⟨hbounds, hseparate⟩, List.Pairwise.imp_of_mem (fun {a b} _ hb hab heq => ?_) hties⟩
    exact Nat.le_antisymm (heq ▸ hab heq) (hbounds b hb).forward
  · rintro ⟨⟨hbounds, hseparate⟩, hties⟩
    refine ⟨hbounds, hseparate, List.Pairwise.imp (fun {a b} hab heq => ?_) hties⟩
    exact ((hab heq).trans heq.symm).le

/-- There is an order that is accepted if one of every two edits that start together is an insertion: all insertions
come last. -/
theorem exists_accepted_iff : (∃ es', es'.Perm es ∧ Accepted t es') ↔
    Sound t es ∧ Ties (fun a b => a.Inserts ∨ b.Inserts) es := by
  constructor
  · rintro ⟨es', hperm, h⟩
    obtain ⟨hsound, hties⟩ := accepted_iff.mp h
    have hsome : Ties (fun a b => a.Inserts ∨ b.Inserts) es' := hties.imp fun hab heq => .inr (hab heq)
    exact ⟨hsound.perm hperm.symm, hsome.perm Or.symm hperm.symm⟩
  · rintro ⟨hsound, hties⟩
    have hperm : (es.filter (fun e => decide ¬e.Inserts) ++ es.filter fun e => decide e.Inserts).Perm es := by
      simpa using List.filter_append_perm (fun e => decide ¬e.Inserts) es
    refine ⟨_, hperm, accepted_iff.mpr ⟨hsound.perm hperm, List.pairwise_append.mpr ⟨?_, ?_, ?_⟩⟩⟩
    · refine List.pairwise_filter.mpr (hties.imp fun hab ha hb heq => ?_)
      exact (hab heq).elim (fun h => absurd h (of_decide_eq_true ha)) id
    · exact List.pairwise_of_forall_mem_list fun _ _ b hb _ => of_decide_eq_true (List.mem_filter.mp hb).2
    · exact fun _ _ b hb _ => of_decide_eq_true (List.mem_filter.mp hb).2

/-- Every order is accepted if all edits that start together are insertions. The list and its reverse decide. -/
theorem forall_accepted_iff : (∀ es', es'.Perm es → Accepted t es') ↔
    Sound t es ∧ Ties (fun a b => a.Inserts ∧ b.Inserts) es := by
  constructor
  · intro h
    obtain ⟨hsound, hlater⟩ := accepted_iff.mp (h es (.refl es))
    have hearlier := List.pairwise_reverse.mp (accepted_iff.mp (h es.reverse es.reverse_perm)).2
    exact ⟨hsound, hlater.imp₂ (fun a b hb ha heq => ⟨ha heq.symm, hb heq⟩) hearlier⟩
  · rintro ⟨hsound, hties⟩ es' hperm
    exact accepted_iff.mpr ⟨hsound.perm hperm, (hties.perm And.symm hperm).imp fun hab heq => (hab heq).2⟩

/-- An accepted list is accepted in every order exactly if no insertion stands at the start of a range. -/
theorem Accepted.forall_iff (h : Accepted t es) : (∀ es', es'.Perm es → Accepted t es') ↔
    ∀ a ∈ es, ∀ b ∈ es, a.start = b.start → a.Inserts → b.Inserts := by
  obtain ⟨hsound, hlater⟩ := accepted_iff.mp h
  rw [forall_accepted_iff]
  constructor
  · rintro ⟨-, hties⟩ a ha b hb
    exact List.Pairwise.forall_of_forall_of_flip (R := fun a b : Edit => a.start = b.start → a.Inserts → b.Inserts)
      (fun _ _ _ => id) (hties.imp fun hab heq _ => (hab heq).2) (hties.imp fun hab heq _ => (hab heq.symm).1) ha hb
  · intro hrange
    refine ⟨hsound, List.Pairwise.imp_of_mem (fun {a b} ha hb hab heq => ?_) hlater⟩
    exact ⟨hrange b hb a ha heq.symm (hab heq), hab heq⟩

end Acceptance

/-- Which orders of a list of edits are accepted. Ties apart, it takes ranges in bounds that do not reach beyond the
start of a later edit. Of every two edits that start together, the later one has to be an insertion for the order
given, one of them for some order, and both for every order. So acceptance is a matter of the order exactly for a list
that is accepted and has an insertion at the start of a range. -/
theorem accepted_in_any_order_iff (t : Text) (es : List Edit) :
    (Accepted t es ↔ Sound t es ∧ Ties (fun _ b => b.Inserts) es) ∧
    ((∃ es', es'.Perm es ∧ Accepted t es') ↔ Sound t es ∧ Ties (fun a b => a.Inserts ∨ b.Inserts) es) ∧
    ((∀ es', es'.Perm es → Accepted t es') ↔ Sound t es ∧ Ties (fun a b => a.Inserts ∧ b.Inserts) es) ∧
    ((Accepted t es ↔ ∀ es', es'.Perm es → Accepted t es') ↔
      (Accepted t es → ∀ a ∈ es, ∀ b ∈ es, a.start = b.start → a.Inserts → b.Inserts)) := by
  refine ⟨accepted_iff, exists_accepted_iff, forall_accepted_iff, fun h haccepted => ?_, fun h => ?_⟩
  · exact haccepted.forall_iff.mp (h.mp haccepted)
  · exact ⟨fun haccepted => haccepted.forall_iff.mpr (h haccepted), fun hall => hall es (.refl es)⟩

/-- An insertion at the start of a text. -/
def insertedAhead : Edit := { start := 0, stop := 0, replacement := ['x'] }

/-- A range that starts there. -/
def replacedStart : Edit := { start := 0, stop := 2, replacement := ['y'] }

/-- Given ahead of the range the insertion makes an overlap, and given behind it the text becomes `xy`. -/
theorem insertion_refused_ahead_of_range :
    applyAll ['a', 'b'] [replacedStart, insertedAhead] = .ok ['x', 'y'] ∧
      applyAll ['a', 'b'] [insertedAhead, replacedStart] = .error (.overlapping 0) ∧
      ¬(Accepted ['a', 'b'] [replacedStart, insertedAhead] ↔
        ∀ es, es.Perm [replacedStart, insertedAhead] → Accepted ['a', 'b'] es) := by
  have hbehind : applyAll ['a', 'b'] [replacedStart, insertedAhead] = .ok ['x', 'y'] := by cbv
  have hahead : applyAll ['a', 'b'] [insertedAhead, replacedStart] = .error (.overlapping 0) := by cbv
  refine ⟨hbehind, hahead, fun h => ?_⟩
  obtain ⟨t', ht'⟩ := h.mp ⟨_, hbehind⟩ _ (List.Perm.swap ..)
  rw [hahead] at ht'
  cases ht'

end Edit

end Reprint
