import Mathlib
import Reprint.Proofs.Exchange
/-!
Edits as one substitution. The text changes with every edit that is applied, but the edits are applied from its end to its
start, so each of them finds what is ahead of it as it was. Main statement: edits that start at different offsets are
applied exactly if each has a range of the text and ends before the next one begins; then all ranges are exchanged at
once, and the order of the list does not matter. What is reported otherwise is the fault of the edit that starts last
among the faulty ones.
-/

namespace Reprint

namespace Edit
open Text

/-- Edits in the order in which they start. -/
def inTextOrder (es : List Edit) : List Edit := es.mergeSort fun a b => a.start ≤ b.start

/-- A text from an offset on, cut at the ranges of some edits and with their replacements in place of them. -/
def pieces (t : Text) : Nat → List Edit → List Text
  | offset, [] => [t.after offset]
  | offset, e :: es => (t.before e.start).after offset :: e.replacement :: pieces t e.stop es

/-- The range of an edit goes forward, lies in the text and begins and ends between characters. -/
structure InBounds (t : Text) (e : Edit) : Prop where
  forward : e.start ≤ e.stop
  within : e.stop ≤ t.size
  start : t.isBoundary e.start
  stop : t.isBoundary e.stop

/-- No edit ends behind the start of one that starts later. -/
def Separate (es : List Edit) : Prop := ∀ a ∈ es, ∀ b ∈ es, a.start < b.start → a.stop ≤ b.start

/-- Every range is in bounds, and no edit ends behind the start of the next one. -/
structure Applicable (t : Text) (es : List Edit) : Prop where
  bounds : ∀ e ∈ es, e.InBounds t
  order : (inTextOrder es).IsChain fun a b => a.stop ≤ b.start

theorem fits_iff_inBounds {t : Text} {e : Edit} : e.fits t ↔ e.InBounds t := by
  simp only [fits, Bool.and_eq_true, decide_eq_true_eq]
  constructor
  · rintro ⟨⟨hforward, hstart⟩, hstop⟩
    obtain ⟨a, b, rfl, hsize⟩ := isBoundary_iff.mp hstop
    exact ⟨hforward, by rw [← hsize, size_append]; exact Nat.le_add_right .., hstart, hstop⟩
  · rintro ⟨hforward, -, hstart, hstop⟩
    exact ⟨⟨hforward, hstart⟩, hstop⟩

/-! ### The order of the edits -/

section Order
variable {es es' : List Edit}

theorem inTextOrder_perm (es : List Edit) : (inTextOrder es).Perm es := List.mergeSort_perm ..

theorem mem_inTextOrder {e : Edit} : e ∈ inTextOrder es ↔ e ∈ es := (inTextOrder_perm es).mem_iff

theorem inTextOrder_strict (h : (es.map (·.start)).Nodup) :
    (inTextOrder es).Pairwise fun a b => a.start < b.start := by
  have hsorted : (inTextOrder es).Pairwise fun a b => decide (a.start ≤ b.start) = true :=
    List.pairwise_mergeSort (fun a b c => by simp; omega) (fun a b => by simp; omega) es
  have hdistinct : (inTextOrder es).Pairwise fun a b => a.start ≠ b.start :=
    List.pairwise_map.mp (((inTextOrder_perm es).map _).nodup_iff.mpr h)
  exact hsorted.imp₂ (fun a b hle hne => Nat.lt_of_le_of_ne (of_decide_eq_true hle) hne) hdistinct

theorem fromEnd_inTextOrder (h : (es.map (·.start)).Nodup) (hperm : es'.Perm es) :
    fromEnd es' = (inTextOrder es).reverse :=
  fromEnd_eq_reverse (inTextOrder_strict h) (hperm.trans (inTextOrder_perm es).symm)

/-- Only the order from the end counts. -/
theorem applyAll_congr {t : Text} (h : fromEnd es = fromEnd es') : applyAll t es = applyAll t es' := by
  simp only [applyAll, h]

end Order

/-! ### Acceptance -/

section Acceptance
variable {t : Text} {es l : List Edit}

theorem Fitting.fits (h : Fitting t l) : ∀ e ∈ l, e.fits t := by
  induction h with
  | nil => simp
  | @cons a m b e es hstart hstop _ ih =>
    refine List.forall_mem_cons.mpr ⟨fits_iff.mpr ⟨a, m, b, rfl, hstart, hstop⟩, fun f hf => ?_⟩
    obtain ⟨x, y, z, rfl, hx, hy⟩ := fits_iff.mp (ih f hf)
    exact fits_iff.mpr ⟨x, y, z ++ m ++ b, by simp only [List.append_assoc], hx, hy⟩

theorem Fitting.pairwise (h : Fitting t l) : l.Pairwise fun a b => b.stop ≤ a.start := by
  induction h with
  | nil => exact .nil
  | cons hstart _ hrest ih => exact .cons (fun f hf => hstart ▸ hrest.stop_le f hf) ih

/-- An edit that ends before another one starts. -/
def Precedes (a b : Edit) : Prop := a.start < b.start ∧ a.stop ≤ b.start

instance : Trans Precedes Precedes Precedes where
  trans hab hbc := ⟨Nat.lt_trans hab.1 hbc.1, Nat.le_trans hab.2 (Nat.le_of_lt hbc.1)⟩

theorem Applicable.ordered (h : Applicable t es) (hstarts : (es.map (·.start)).Nodup) : Ordered (inTextOrder es) := by
  have hchain : (inTextOrder es).IsChain Precedes := List.isChain_iff_getElem.mpr fun i hi =>
    ⟨List.isChain_iff_getElem.mp (inTextOrder_strict hstarts).isChain i hi, List.isChain_iff_getElem.mp h.order i hi⟩
  exact (List.isChain_iff_pairwise (R := Precedes)).mp hchain

/-- Edits fit from the end on if all are in bounds and each ends where the previous one starts, or ahead of it. -/
theorem fitting_iff : Fitting t l ↔ (∀ e ∈ l, e.InBounds t) ∧ l.Pairwise fun a b => b.stop ≤ a.start := by
  constructor
  · intro h
    exact ⟨fun e he => fits_iff_inBounds.mp (h.fits e he), h.pairwise⟩
  · rintro ⟨hbounds, horder⟩
    refine (check_eq_ok_iff (List.append_nil t).symm (.inl ⟨rfl, rfl⟩)).mp
      (check_eq_ok (fun e he => fits_iff_inBounds.mpr (hbounds e he)) (fun n hn => ?_) horder)
    cases hn

/-- The check accepts exactly the applicable edits. -/
theorem check_fromEnd_iff (hstarts : (es.map (·.start)).Nodup) : check t none (fromEnd es) = .ok () ↔ Applicable t es := by
  rw [check_eq_ok_iff (List.append_nil t).symm (.inl ⟨rfl, rfl⟩), fitting_iff,
    fromEnd_inTextOrder hstarts (.refl es), List.pairwise_reverse]
  simp only [List.mem_reverse, mem_inTextOrder]
  constructor
  · rintro ⟨hbounds, hpairs⟩
    exact ⟨hbounds, hpairs.isChain⟩
  · intro h
    exact ⟨h.bounds, (h.ordered hstarts).imp And.right⟩

theorem applyAll_eq_error_iff {err : EditError} :
    applyAll t es = .error err ↔ check t none (fromEnd es) = .error err := by
  show ((check t none (fromEnd es)).bind fun _ => .ok ((fromEnd es).foldl replace t)) = .error err ↔ _
  cases check t none (fromEnd es) with
  | error e => simp [Except.bind]
  | ok _ => simp [Except.bind]

end Acceptance

/-! ### Outcome -/

/-- What a text becomes from left to right is put together from its pieces. -/
theorem Exchanged.eq_pieces {offset : Nat} {es : List Edit} {t t' : Text} (h : Exchanged offset es t t') {w : Text}
    (hw : size w = offset) : t' = (pieces (w ++ t) offset es).flatten := by
  induction h generalizing w with
  | rest => rw [pieces, ← hw, after_append_size, List.flatten_singleton]
  | @next offset e es kept old t t' hstart hstop _ ih =>
    subst hw
    have hstart' : e.start = size (w ++ kept) := by rw [hstart, size_append]
    have hstop' : size (w ++ kept ++ old) = e.stop := by rw [hstop, hstart', size_append]
    have hrest := ih hstop'
    simp only [List.append_assoc] at hrest
    have hkept : ((w ++ (kept ++ (old ++ t))).before e.start).after (size w) = kept := by
      rw [← List.append_assoc, hstart', before_append_size, after_append_size]
    simp only [pieces, List.append_assoc, List.flatten_cons, hkept, ← hrest]

/-! ### Faults -/

/-- The fault of an edit, given where the next one starts. -/
def Fault (t : Text) (next : Option Nat) (e : Edit) (err : EditError) : Prop :=
  (¬e.InBounds t ∧ err = .outOfBounds e.start e.stop t.size) ∨
    (e.InBounds t ∧ (∃ n, next = some n ∧ n < e.stop) ∧ err = .overlapping e.start)

section Faults
variable {t : Text} {limit : Option Nat} {e : Edit} {l : List Edit} {err : EditError}

theorem check_cons_error_iff : check t limit (e :: l) = .error err ↔ Fault t limit e err ∨
    (check t limit [e] = .ok () ∧ check t (some e.start) l = .error err) := by
  rw [Fault, ← fits_iff_inBounds]
  cases hfits : e.fits t <;> cases limit <;> simp only [check, hfits, Option.any_none, Option.any_some] <;> grind

theorem check_eq_error_iff : check t limit l = .error err ↔ ∃ pre e post, l = pre ++ e :: post ∧
    check t limit pre = .ok () ∧ Fault t ((pre.getLast?.map (·.start)).or limit) e err := by
  induction l generalizing limit with
  | nil => simp [check]
  | cons e l ih =>
    rw [check_cons_error_iff, ih]
    constructor
    · rintro (hfault | ⟨he, pre, f, post, rfl, hpre, hfault⟩)
      · exact ⟨[], e, l, rfl, rfl, hfault⟩
      · refine ⟨e :: pre, f, post, rfl, ?_, ?_⟩
        · rw [check_cons_iff] at he ⊢
          exact ⟨he.1, he.2.1, hpre⟩
        · rw [List.getLast?_cons]
          cases hlast : pre.getLast? <;> simpa [hlast] using hfault
    · rintro ⟨pre, f, post, hl, hpre, hfault⟩
      cases pre with
      | nil =>
        obtain ⟨rfl, rfl⟩ := List.cons.inj hl
        exact .inl hfault
      | cons _ pre =>
        obtain ⟨rfl, rfl⟩ := List.cons.inj hl
        rw [check_cons_iff] at hpre
        refine .inr ⟨check_cons_iff.mpr ⟨hpre.1, hpre.2.1, rfl⟩, pre, f, post, rfl, hpre.2.2, ?_⟩
        rw [List.getLast?_cons] at hfault
        cases hlast : pre.getLast? <;> simpa [hlast] using hfault

/-- The fault that is reported is that of the last faulty edit: all that start later can be applied. -/
theorem applyAll_error_iff {es : List Edit} (hstarts : (es.map (·.start)).Nodup) : applyAll t es = .error err ↔
    ∃ pre e post, inTextOrder es = pre ++ e :: post ∧ Applicable t post ∧ Fault t (post.head?.map (·.start)) e err := by
  have hstrict := inTextOrder_strict hstarts
  have hpost : ∀ {pre e post}, inTextOrder es = pre ++ e :: post →
      (check t none post.reverse = .ok () ↔ Applicable t post) := by
    intro pre e post hes
    rw [hes] at hstrict
    have hsorted := (List.pairwise_cons.mp (List.pairwise_append.mp hstrict).2.1).2
    rw [← fromEnd_eq_reverse hsorted (.refl post)]
    exact check_fromEnd_iff (List.pairwise_map.mpr (hsorted.imp Nat.ne_of_lt))
  rw [applyAll_eq_error_iff, fromEnd_inTextOrder hstarts (.refl es), check_eq_error_iff]
  constructor
  · rintro ⟨pre, e, post, hes, hpre, hfault⟩
    have hes' : inTextOrder es = post.reverse ++ e :: pre.reverse := by
      rw [← List.reverse_reverse (inTextOrder es), hes]
      simp
    refine ⟨post.reverse, e, pre.reverse, hes', (hpost hes').mp (by rwa [List.reverse_reverse]), ?_⟩
    simpa using hfault
  · rintro ⟨pre, e, post, hes, happly, hfault⟩
    refine ⟨post.reverse, e, pre.reverse, by simp [hes], (hpost hes).mpr happly, ?_⟩
    simpa using hfault

end Faults

/-- Edits that start at different offsets are one substitution. They are applied exactly if every range is in bounds and
none ends behind the start of the next one. The outcome is the text between the ranges, as it was, with the replacements
between the pieces. The order of the list does not matter. What fails is a range out of bounds or an overlap: that of the
last edit with a fault, and a range out of bounds wherever no two edits overlap. -/
theorem applyAll_substitutes (t : Text) (es : List Edit) (hstarts : (es.map (·.start)).Nodup) :
    ((∃ t', applyAll t es = .ok t') ↔ Applicable t es) ∧
    (Applicable t es → applyAll t es = .ok (pieces t 0 (inTextOrder es)).flatten) ∧
    (∀ es', es'.Perm es → applyAll t es' = applyAll t es) ∧
    (∀ err, applyAll t es = .error err ↔ ∃ pre e post, inTextOrder es = pre ++ e :: post ∧ Applicable t post ∧
      Fault t (post.head?.map (·.start)) e err) ∧
    (Separate es → (∃ e ∈ es, ¬e.InBounds t) →
      ∃ e ∈ es, ¬e.InBounds t ∧ applyAll t es = .error (.outOfBounds e.start e.stop t.size)) := by
  have hperm : ∀ es', es'.Perm es → applyAll t es' = applyAll t es := fun es' hperm =>
    applyAll_congr ((fromEnd_inTextOrder hstarts hperm).trans (fromEnd_inTextOrder hstarts (.refl es)).symm)
  have hok : Applicable t es → applyAll t es = .ok (pieces t 0 (inTextOrder es)).flatten := by
    intro happly
    obtain ⟨t', ht', hexchanged⟩ := applyAll_of_ordered
      (fun e he => fits_iff_inBounds.mpr (happly.bounds e (mem_inTextOrder.mp he))) (happly.ordered hstarts)
    rw [← hperm _ (inTextOrder_perm es), ht', hexchanged.eq_pieces (w := []) rfl, List.nil_append]
  have hiff : (∃ t', applyAll t es = .ok t') ↔ Applicable t es := by
    refine ⟨fun ⟨t', ht'⟩ => ?_, fun happly => ⟨_, hok happly⟩⟩
    exact (check_fromEnd_iff hstarts).mp
      ((check_eq_ok_iff (List.append_nil t).symm (.inl ⟨rfl, rfl⟩)).mpr (applyAll_eq_ok_iff.mp ht').1)
  refine ⟨hiff, hok, hperm, fun err => applyAll_error_iff hstarts, fun hseparate ⟨e, he, hout⟩ => ?_⟩
  cases hresult : applyAll t es with
  | ok t' => exact absurd ((hiff.mp ⟨t', hresult⟩).bounds e he) hout
  | error err =>
    obtain ⟨pre, f, post, hes, -, hfault⟩ := (applyAll_error_iff hstarts).mp hresult
    have hmem : ∀ g ∈ f :: post, g ∈ es := fun g hg =>
      mem_inTextOrder.mp (by rw [hes]; exact List.mem_append_right _ hg)
    rcases hfault with ⟨hbounds, rfl⟩ | ⟨-, ⟨n, hn, hlt⟩, -⟩
    · exact ⟨f, hmem f (List.mem_cons_self ..), hbounds, rfl⟩
    · -- An overlap would be with an edit that starts later.
      obtain ⟨g, hg, rfl⟩ := Option.map_eq_some_iff.mp hn
      have hgpost := List.mem_of_head? hg
      have hstrict := inTextOrder_strict hstarts
      rw [hes, List.pairwise_append, List.pairwise_cons] at hstrict
      have hle := hseparate f (hmem f (List.mem_cons_self ..)) g (hmem g (List.mem_cons_of_mem _ hgpost))
        (hstrict.2.1.1 g hgpost)
      exact absurd hlt (Nat.not_lt.mpr hle)

/-- Edits of `aébc`, given out of order: an insertion behind a deletion behind a replacement, each right at the end of the
one ahead of it. -/
def touchingEdits : List Edit :=
  [{ start := 3, stop := 3, replacement := ['x'] }, { start := 0, stop := 1, replacement := ['y', 'y'] },
   { start := 1, stop := 3, replacement := [] }]

/-- They are applied at once, and in any order. -/
theorem touchingEdits_substituted :
    (touchingEdits.map (·.start)).Nodup ∧ Applicable ['a', 'é', 'b', 'c'] touchingEdits ∧
      ∀ es, es.Perm touchingEdits → applyAll ['a', 'é', 'b', 'c'] es = .ok ['y', 'y', 'x', 'b', 'c'] := by
  have hstarts : (touchingEdits.map (·.start)).Nodup := by decide
  have hresult : applyAll ['a', 'é', 'b', 'c'] touchingEdits = .ok ['y', 'y', 'x', 'b', 'c'] := by cbv
  obtain ⟨hiff, -, hperm, -⟩ := applyAll_substitutes ['a', 'é', 'b', 'c'] touchingEdits hstarts
  exact ⟨hstarts, hiff.mp ⟨_, hresult⟩, fun es hes => (hperm es hes).trans hresult⟩

end Edit

end Reprint
