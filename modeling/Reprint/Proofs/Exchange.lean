import Mathlib.Data.List.Pairwise
import Reprint.Proofs.Splice
import Reprint.Proofs.Widest
/-!
Edits in the order of the text. `Exchanged` says from left to right what a text becomes: each range is exchanged for
the replacement of its edit, and everything between two ranges is kept. Edits are applied from the end to the start,
but if every range fits the text and ends before the next one starts, the outcome is the same. Main statement: the
widest ranges of a list are in this order, as long as any two of the list are nested or disjoint.
-/

namespace Reprint

namespace Edit
open Text

/-- Each range ends before the next one starts, and no two start together. -/
def Ordered (es : List Edit) : Prop := es.Pairwise fun a b => a.start < b.start ∧ a.stop ≤ b.start

/-- What becomes of a text that begins at an offset of the file: the ranges of the edits are exchanged for their
replacements, and the rest is kept. -/
inductive Exchanged : Nat → List Edit → Text → Text → Prop where
  | rest {offset : Nat} {t : Text} : Exchanged offset [] t t
  | next {offset : Nat} {e : Edit} {es : List Edit} {kept old t t' : Text} : e.start = offset + size kept →
      e.stop = e.start + size old → Exchanged e.stop es t t' →
      Exchanged offset (e :: es) (kept ++ old ++ t) (kept ++ e.replacement ++ t')

section Ordered
variable {t : Text} {es : List Edit}

/-- Edits that fit the text and of which each ends before the previous one starts pass the check. -/
theorem check_eq_ok {limit : Option Nat} (hfits : ∀ e ∈ es, e.fits t)
    (hlimit : ∀ n, limit = some n → ∀ e ∈ es, e.stop ≤ n) (horder : es.Pairwise fun a b => b.stop ≤ a.start) :
    check t limit es = .ok () := by
  induction es generalizing limit with
  | nil => rfl
  | cons e es ih =>
    obtain ⟨hhead, htail⟩ := List.pairwise_cons.mp horder
    refine check_cons_iff.mpr ⟨hfits e (List.mem_cons_self ..), fun n hn => hlimit n hn e (List.mem_cons_self ..), ?_⟩
    refine ih (fun f hf => hfits f (List.mem_cons_of_mem _ hf)) (fun n hn f hf => ?_) htail
    cases hn
    exact hhead f hf

theorem eq_of_start_eq (h : es.Pairwise fun a b => a.start < b.start) {a b : Edit} (ha : a ∈ es) (hb : b ∈ es)
    (hab : a.start = b.start) : a = b :=
  Node.eq_of_pairwise h ha hb (Nat.not_lt.mpr (Nat.le_of_eq hab.symm)) (Nat.not_lt.mpr (Nat.le_of_eq hab))

theorem fromEnd_sorted (es : List Edit) : (fromEnd es).Pairwise fun a b => b.start ≤ a.start := by
  have hsorted : (fromEnd es).Pairwise fun a b => decide (b.start ≤ a.start) = true :=
    List.pairwise_mergeSort (fun a b c => by simp; omega) (fun a b => by simp; omega) es
  exact hsorted.imp of_decide_eq_true

/-- Edits that start at different offsets have one order, in whatever order they are given. -/
theorem fromEnd_eq_reverse {l : List Edit} (h : l.Pairwise fun a b => a.start < b.start) (hperm : es.Perm l) :
    fromEnd es = l.reverse := by
  have hreverse : l.reverse.Pairwise fun a b => b.start ≤ a.start := List.pairwise_reverse.mpr (h.imp Nat.le_of_lt)
  refine List.Perm.eq_of_pairwise (fun a b ha hb hab hba => ?_) (fromEnd_sorted es) hreverse
    ((List.mergeSort_perm es _).trans (hperm.trans l.reverse_perm.symm))
  exact eq_of_start_eq h (hperm.mem_iff.mp (mem_fromEnd.mp ha)) (List.mem_reverse.mp hb) (Nat.le_antisymm hba hab)

/-- Edits in order, all behind the first part of a text, have an outcome. -/
theorem exists_exchanged {w : Text} (hfits : ∀ e ∈ es, e.fits (w ++ t)) (horder : Ordered es)
    (hbehind : ∀ e ∈ es, size w ≤ e.start) : ∃ t', Exchanged (size w) es t t' := by
  induction es generalizing w t with
  | nil => exact ⟨t, .rest⟩
  | cons e es ih =>
    obtain ⟨hhead, htail⟩ := List.pairwise_cons.mp horder
    obtain ⟨a, old, b, hab, hstart, hstop⟩ := fits_iff.mp (hfits e (List.mem_cons_self ..))
    obtain ⟨kept, rfl, rfl⟩ := append_eq_append_of_size_le (hab.trans (List.append_assoc ..))
      (hstart ▸ hbehind e (List.mem_cons_self ..))
    obtain ⟨t', ht'⟩ := ih (w := w ++ kept ++ old) (t := b)
      (fun f hf => by rw [← hab]; exact hfits f (List.mem_cons_of_mem _ hf)) htail
      (fun f hf => by rw [← hstop]; exact (hhead f hf).2)
    rw [← hstop] at ht'
    refine ⟨kept ++ e.replacement ++ t', ?_⟩
    rw [← List.append_assoc kept]
    refine .next (by rw [hstart, size_append]) ?_ ht'
    rw [hstop, hstart, size_append (w ++ kept)]

/-- Applying the edits from the end on gives what the text becomes from its start on. -/
theorem Exchanged.foldl_replace {offset : Nat} {t' : Text} (h : Exchanged offset es t t') {w : Text}
    (hw : size w = offset) : es.reverse.foldl replace (w ++ t) = w ++ t' := by
  induction h generalizing w with
  | rest => rfl
  | @next offset e es kept old t t' hstart hstop _ ih =>
    subst hw
    have hw : size (w ++ kept ++ old) = e.stop := by
      simp only [size_append]
      omega
    have hbehind := ih hw
    simp only [List.append_assoc] at hbehind
    rw [List.reverse_cons, List.foldl_append, List.append_assoc kept, hbehind]
    have hfirst := replace_append (a := w ++ kept) (m := old) (b := t') (e := e) (by rw [hstart, size_append]) hw.symm
    simpa only [List.foldl_cons, List.foldl_nil, List.append_assoc] using hfirst

/-- Edits in order that fit the text are applied, and exchange their ranges for their replacements. -/
theorem applyAll_of_ordered (hfits : ∀ e ∈ es, e.fits t) (horder : Ordered es) :
    ∃ t', applyAll t es = .ok t' ∧ Exchanged 0 es t t' := by
  obtain ⟨t', ht'⟩ := exists_exchanged (w := []) hfits horder fun _ _ => Nat.zero_le _
  refine ⟨t', applyAll_eq_ok_iff.mpr ?_, ht'⟩
  rw [fromEnd_eq_reverse (horder.imp And.left) (.refl es)]
  refine ⟨(check_eq_ok_iff (List.append_nil t).symm (.inl ⟨rfl, rfl⟩)).mp (check_eq_ok ?_ (fun n hn => ?_) ?_),
    ht'.foldl_replace rfl⟩
  · exact fun e he => hfits e (List.mem_reverse.mp he)
  · cases hn
  · exact List.pairwise_reverse.mpr (horder.imp And.right)

end Ordered

end Edit

/-! ### The order of the widest ranges -/

/-- Two ranges of one file that go forward, one in the other or one behind the other. -/
structure Span.Aligned (a b : Span) : Prop where
  file : a.file = b.file
  forwardLeft : a.start ≤ a.stop
  forwardRight : b.start ≤ b.stop
  nested : a.includes b ∨ b.includes a ∨ ¬a.overlaps b

/-- Of two aligned ranges neither of which includes the other, the one that starts first ends before the other
starts. -/
theorem Span.Aligned.ordered {a b : Span} (h : a.Aligned b) (hab : ¬a.includes b) (hba : ¬b.includes a)
    (hle : a.start ≤ b.start) : a.start < b.start ∧ a.stop ≤ b.start := by
  obtain ⟨hfile, ha, hb, hnested⟩ := h
  have hapart := (hnested.resolve_left hab).resolve_left hba
  simp only [includes_iff, overlaps_iff, hfile, true_and] at hab hba hapart
  omega

section Duplicates
variable {α : Type} {r : α → α → Bool}

theorem eraseDupsBy_sublist (r : α → α → Bool) (l : List α) : (l.eraseDupsBy r).Sublist l := by
  match l with
  | [] => exact .slnil
  | x :: l =>
    rw [List.eraseDupsBy_cons]
    exact ((eraseDupsBy_sublist r _).trans List.filter_sublist).cons_cons x
termination_by l.length
decreasing_by exact Nat.lt_succ_of_le (List.length_filter_le ..)

theorem pairwise_eraseDupsBy (r : α → α → Bool) (l : List α) : (l.eraseDupsBy r).Pairwise fun a b => ¬r b a := by
  match l with
  | [] => exact .nil
  | x :: l =>
    rw [List.eraseDupsBy_cons]
    refine List.pairwise_cons.mpr ⟨fun b hb => ?_, pairwise_eraseDupsBy r _⟩
    simpa using (List.mem_filter.mp ((eraseDupsBy_sublist r _).subset hb)).2
termination_by l.length
decreasing_by exact Nat.lt_succ_of_le (List.length_filter_le ..)

theorem eraseDupsBy_eq_self {l : List α} (h : l.Pairwise fun a b => ¬r b a) : l.eraseDupsBy r = l := by
  induction l with
  | nil => rfl
  | cons x l ih =>
    obtain ⟨hx, hl⟩ := List.pairwise_cons.mp h
    have hkeep : l.filter (fun b => r b x = false) = l := by simpa using hx
    rw [List.eraseDupsBy_cons, hkeep, ih hl]

theorem eraseDupsBy_map {β : Type} {f : α → β} {s : β → β → Bool}
    (h : ∀ a b, s (f a) (f b) = r a b) (l : List α) : (l.map f).eraseDupsBy s = (l.eraseDupsBy r).map f := by
  match l with
  | [] => rfl
  | a :: l =>
    have hfilter : (l.map f).filter (fun b => decide (s b (f a) = false)) =
        (l.filter fun b => decide (r b a = false)).map f := by
      rw [List.filter_map]
      simp only [Function.comp_def, h]
    rw [List.map_cons, List.eraseDupsBy_cons, List.eraseDupsBy_cons, hfilter, eraseDupsBy_map h, List.map_cons]
termination_by l.length
decreasing_by exact Nat.lt_succ_of_le (List.length_filter_le ..)

end Duplicates

namespace Region
variable {α : Type} {f : α → Span} {l : List α}

/-- Neither of two widest ranges includes the other. -/
theorem pairwise_widest (f : α → Span) (l : List α) :
    (widest f l).Pairwise fun a b => ¬(f a).includes (f b) ∧ ¬(f b).includes (f a) := by
  have houter : ∀ a ∈ l.filter (fun a => !l.any fun b => (f b).properlyIncludes (f a)), ∀ b ∈ l,
      ¬(f b).properlyIncludes (f a) := by
    intro a ha
    simpa using (List.mem_filter.mp ha).2
  refine ((List.mergeSort_perm ..).symm.pairwise_iff fun h => ⟨h.2, h.1⟩).mp ?_
  refine List.Pairwise.imp_of_mem (fun {a b} ha hb hdup => ?_) (pairwise_eraseDupsBy ..)
  have ha := (eraseDupsBy_sublist ..).subset ha
  have hb := (eraseDupsBy_sublist ..).subset hb
  -- Outermost ranges that include each other cover the same offsets.
  constructor
  · intro h
    have hback := Span.includes_symm_of_not_proper h (houter b hb a (List.mem_filter.mp ha).1)
    exact hdup (by simp [h, hback])
  · intro h
    have hback := Span.includes_symm_of_not_proper h (houter a ha b (List.mem_filter.mp hb).1)
    exact hdup (by simp [h, hback])

theorem mem_of_mem_widest {a : α} (h : a ∈ widest f l) : a ∈ l := by
  obtain ⟨-, pre, post, rfl, -⟩ := mem_widest_split h
  simp

theorem widest_sorted (f : α → Span) (l : List α) : (widest f l).Pairwise fun a b => (f a).start ≤ (f b).start := by
  have hsorted : (widest f l).Pairwise fun a b => decide ((f a).start ≤ (f b).start) = true :=
    List.pairwise_mergeSort (fun a b c => by simp; omega) (fun a b => by simp; omega) _
  exact hsorted.imp of_decide_eq_true

/-- Which entries are kept is read off their ranges alone. -/
theorem widest_map {β : Type} {f : β → Span} {g : α → β} {h : α → Span} (hstart : ∀ a, (f (g a)).start = (h a).start)
    (hincludes : ∀ a b, (f (g a)).includes (f (g b)) = (h a).includes (h b))
    (hproperly : ∀ a b, (f (g a)).properlyIncludes (f (g b)) = (h a).properlyIncludes (h b)) (l : List α) :
    widest f (l.map g) = (widest h l).map g := by
  have houter : ((l.map g).filter fun a => !(l.map g).any fun b => (f b).properlyIncludes (f a)) =
      (l.filter fun a => !l.any fun b => (h b).properlyIncludes (h a)).map g := by
    rw [List.filter_map]
    simp only [Function.comp_def, List.any_map, hproperly]
  unfold widest
  dsimp only
  rw [houter, eraseDupsBy_map (r := fun a b => (h a).includes (h b) && (h b).includes (h a)), List.map_mergeSort]
  · intro a _ b _
    rw [hstart, hstart]
  · intro a b
    rw [hincludes, hincludes]

/-- The widest of ranges that are nested or disjoint stand one behind the other. -/
theorem widest_ordered (h : ∀ a ∈ l, ∀ b ∈ l, (f a).Aligned (f b)) :
    (widest f l).Pairwise fun a b => (f a).start < (f b).start ∧ (f a).stop ≤ (f b).start := by
  refine List.Pairwise.imp_of_mem (fun {a b} ha hb hab => ?_) ((widest_sorted f l).and (pairwise_widest f l))
  obtain ⟨hle, hab, hba⟩ := hab
  exact (h a (mem_of_mem_widest ha) b (mem_of_mem_widest hb)).ordered hab hba hle

/-- Where no range includes another one, all are widest. -/
theorem widest_perm (h : l.Pairwise fun a b => ¬(f a).includes (f b) ∧ ¬(f b).includes (f a)) : (widest f l).Perm l := by
  have hall : l.filter (fun a => !l.any fun b => (f b).properlyIncludes (f a)) = l := by
    rw [List.filter_eq_self]
    intro a ha
    rw [Bool.not_eq_true', List.any_eq_false]
    intro b hb hba
    obtain ⟨hinc, hne⟩ := Span.properlyIncludes_iff.mp hba
    have hdiffer : b ≠ a := fun hba => hne (by rw [hba]; exact ⟨rfl, rfl⟩)
    have : Std.Symm fun a b => ¬(f a).includes (f b) ∧ ¬(f b).includes (f a) := ⟨fun _ _ hxy => ⟨hxy.2, hxy.1⟩⟩
    exact (h.forall hb ha hdiffer).1 hinc
  rw [widest, hall, eraseDupsBy_eq_self (h.imp fun hab => by simp [hab])]
  exact List.mergeSort_perm ..

/-- One region is the widest. -/
theorem find_of_search {u : Units} {n : Node} {r : Region} (h : search u n = [r]) : find u n = [r] := by
  rw [find, h]
  exact List.perm_singleton.mp (widest_perm (List.pairwise_singleton ..))

end Region

end Reprint
