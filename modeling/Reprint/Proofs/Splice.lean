import Reprint.Edit
import Reprint.Proofs.Cuts
/-!
Applying edits. Edits that can be applied have ranges one before the other (`Fitting`), and what stands behind
the last of them is carried over as it is. Main statement: a part of the text that no edit touches is kept; the
edits ahead of it turn what was ahead of it into what is now ahead of it, and likewise behind it.
-/

namespace Reprint

/-! ### Sorting a part of a list -/

section Sorting
variable {α : Type} {le : α → α → Bool}

theorem append_unique_of_switch {p : α → Bool} {a b c d : List α} (h : a ++ b = c ++ d) (ha : ∀ x ∈ a, p x = false)
    (hb : ∀ x ∈ b, p x = true) (hc : ∀ x ∈ c, p x = false) (hd : ∀ x ∈ d, p x = true) : a = c ∧ b = d := by
  rcases List.append_eq_append_iff.mp h with ⟨m, rfl, rfl⟩ | ⟨m, rfl, rfl⟩
  · cases m with
    | nil => simp
    | cons x m => exact absurd (hb x (by simp)) (by simp [hc x (by simp)])
  · cases m with
    | nil => simp
    | cons x m => exact absurd (hd x (by simp)) (by simp [ha x (by simp)])

/-- Sorting keeps the order of equals, so it does not matter whether elements are dropped before or after. -/
theorem filter_mergeSort (trans : ∀ a b c, le a b → le b c → le a c) (total : ∀ a b, le a b || le b a)
    (p : α → Bool) (l : List α) : (l.mergeSort le).filter p = (l.filter p).mergeSort le := by
  induction l with
  | nil => simp
  | cons a l ih =>
    obtain ⟨l₁, l₂, hal, hl, hl₁⟩ := List.mergeSort_cons trans total a l
    rw [hl, List.filter_append] at ih
    by_cases hp : p a
    · obtain ⟨m₁, m₂, ham, hm, hm₁⟩ := List.mergeSort_cons trans total a (l.filter p)
      -- Both lists part where `a` has to go: in front of the first element that is not smaller.
      have behind : ∀ {k k₁ k₂ : List α}, k.mergeSort le = k₁ ++ a :: k₂ → ∀ x ∈ k₂, le a x = true := by
        intro k k₁ k₂ hk x hx
        have hsorted := List.pairwise_mergeSort trans total k
        rw [hk] at hsorted
        exact (List.pairwise_cons.mp (List.pairwise_append.mp hsorted).2.1).1 x hx
      obtain ⟨h₁, h₂⟩ := append_unique_of_switch (p := le a) (ih.trans hm)
        (fun x hx => by simpa using hl₁ x (List.mem_filter.mp hx).1)
        (fun x hx => behind hal x (List.mem_filter.mp hx).1)
        (fun x hx => by simpa using hm₁ x hx) (behind ham)
      rw [hal, List.filter_append, List.filter_cons_of_pos hp, List.filter_cons_of_pos hp, ham, h₁, h₂]
    · rw [hal, List.filter_append, List.filter_cons_of_neg hp, List.filter_cons_of_neg hp, ih]

end Sorting

namespace Edit
open Text

/-- An edit of a text, as an edit of what is left after the first `n` bytes. -/
def shift (n : Nat) (e : Edit) : Edit := { e with start := e.start - n, stop := e.stop - n }

/-- Whether an edit ends within the first `n` bytes. -/
def endsBy (n : Nat) (e : Edit) : Bool := e.stop ≤ n

/-! ### Edits from the end -/

/-- Edits from the end of a text to its start. Each has a range of what stands ahead of the previous one. -/
inductive Fitting : Text → List Edit → Prop where
  | nil {t : Text} : Fitting t []
  | cons {a m b : Text} {e : Edit} {es : List Edit} : e.start = size a → e.stop = size (a ++ m) → Fitting a es →
      Fitting (a ++ m ++ b) (e :: es)

theorem fits_iff {t : Text} {e : Edit} : e.fits t ↔
    ∃ a m b, t = a ++ m ++ b ∧ e.start = size a ∧ e.stop = size (a ++ m) := by
  have hslice : e.fits t ↔ ∃ m, t.slice? e.start e.stop = some m := by
    simp only [fits, slice?, Bool.and_eq_true, decide_eq_true_eq, and_assoc]
    split <;> simp_all
  simp only [hslice, slice?_eq_some_iff]
  constructor
  · rintro ⟨m, a, b, ht, hstart, hstop⟩
    exact ⟨a, m, b, ht, hstart.symm, hstop.symm⟩
  · rintro ⟨a, m, b, ht, hstart, hstop⟩
    exact ⟨m, a, b, ht, hstart.symm, hstop.symm⟩

theorem check_cons_iff {t : Text} {limit : Option Nat} {e : Edit} {es : List Edit} :
    check t limit (e :: es) = .ok () ↔
      e.fits t ∧ (∀ n, limit = some n → e.stop ≤ n) ∧ check t (some e.start) es = .ok () := by
  rw [check]
  cases hfits : e.fits t
  · simp
  · cases limit with
    | none => simp
    | some n =>
      by_cases hn : n < e.stop
      · simp [hn, Nat.not_le.mpr hn]
      · simp [hn, Nat.not_lt.mp hn]

theorem check_eq_ok_iff {t a b : Text} {limit : Option Nat} {es : List Edit} (ht : t = a ++ b)
    (hlimit : (limit = none ∧ b = []) ∨ limit = some (size a)) :
    check t limit es = .ok () ↔ Fitting a es := by
  induction es generalizing limit a b with
  | nil => simp [check, Fitting.nil]
  | cons e es ih =>
    rw [check_cons_iff, fits_iff]
    constructor
    · rintro ⟨⟨x, m, y, hxy, hstart, hstop⟩, hle, hrest⟩
      have hsize : size (x ++ m) ≤ size a := by
        rcases hlimit with ⟨-, rfl⟩ | hlimit
        · have := congrArg size (ht.symm.trans hxy)
          simp only [size_append, size_nil] at this ⊢
          omega
        · exact hstop ▸ hle _ hlimit
      obtain ⟨g, rfl, -⟩ := append_eq_append_of_size_le (hxy.symm.trans ht) hsize
      refine .cons hstart hstop ((ih (b := m ++ y) ?_ (.inr (congrArg some hstart))).mp hrest)
      rw [hxy, List.append_assoc]
    · intro h
      cases h with
      | @cons x m y _ _ hstart hstop hrest =>
        refine ⟨⟨x, m, y ++ b, by rw [ht, List.append_assoc], hstart, hstop⟩, fun n hn => ?_,
          (ih (b := m ++ y ++ b) (by rw [ht]; simp) (.inr (congrArg some hstart))).mpr hrest⟩
        rcases hlimit with ⟨hnone, -⟩ | hlimit
        · rw [hnone] at hn
          cases hn
        · rw [hlimit] at hn
          cases hn
          rw [hstop, size_append (x ++ m)]
          exact Nat.le_add_right ..

theorem applyAll_eq_ok_iff {t t' : Text} {es : List Edit} : applyAll t es = .ok t' ↔
    Fitting t (fromEnd es) ∧ (fromEnd es).foldl replace t = t' := by
  have hcheck : check t none (fromEnd es) = .ok () ↔ Fitting t (fromEnd es) :=
    check_eq_ok_iff (List.append_nil t).symm (.inl ⟨rfl, rfl⟩)
  rw [← hcheck]
  show ((check t none (fromEnd es)).bind fun _ => .ok ((fromEnd es).foldl replace t)) = .ok t' ↔ _
  cases check t none (fromEnd es) with
  | error e => simp [Except.bind]
  | ok _ => simp [Except.bind]

/-! ### What is not touched -/

theorem replace_append {a m b : Text} {e : Edit} (hstart : e.start = size a) (hstop : e.stop = size (a ++ m)) :
    replace (a ++ m ++ b) e = a ++ e.replacement ++ b := by
  rw [replace, hstart, hstop, after_append_size, List.append_assoc a m b, before_append_size]

theorem foldl_replace_append {t : Text} {es : List Edit} (h : Fitting t es) (w : Text) :
    es.foldl replace (t ++ w) = es.foldl replace t ++ w := by
  induction h generalizing w with
  | nil => rfl
  | @cons a m b e es hstart hstop _ ih =>
    simp only [List.foldl_cons]
    rw [List.append_assoc (a ++ m) b w, replace_append hstart hstop, replace_append hstart hstop]
    simp only [List.append_assoc, ih]

theorem Fitting.stop_le {t : Text} {es : List Edit} (h : Fitting t es) : ∀ e ∈ es, e.stop ≤ size t := by
  induction h with
  | nil => simp
  | @cons a m b e es _ hstop _ ih =>
    intro e' he'
    rcases List.mem_cons.mp he' with rfl | he'
    · rw [hstop, size_append (a ++ m)]
      omega
    · have := ih e' he'
      simp only [size_append]
      omega

/-- Edits around a part of a text leave it alone. Those ahead of it act on what is ahead, the others on what is
behind it. -/
theorem Fitting.around {a x b : Text} {es : List Edit} (h : Fitting (a ++ x ++ b) es)
    (hclear : ∀ e ∈ es, e.stop ≤ size a ∨ size (a ++ x) ≤ e.start) :
    Fitting a (es.filter (endsBy (size a))) ∧
      Fitting b ((es.filter fun e => !endsBy (size a) e).map (shift (size (a ++ x)))) ∧
      es.foldl replace (a ++ x ++ b) = (es.filter (endsBy (size a))).foldl replace a ++ x ++
        ((es.filter fun e => !endsBy (size a) e).map (shift (size (a ++ x)))).foldl replace b := by
  induction es generalizing b with
  | nil => exact ⟨.nil, .nil, rfl⟩
  | cons e es ih =>
    generalize ht : a ++ x ++ b = t at h
    cases h with
    | @cons p m q _ _ hstart hstop hrest =>
      by_cases hends : e.stop ≤ size a
      · -- This edit ends ahead of the part, and so do all that follow.
        obtain ⟨g, rfl, hq⟩ := append_eq_append_of_size_le (c := a) (d := x ++ b)
          (by rw [← ht, List.append_assoc]) (hstop ▸ hends)
        have hall : ∀ f ∈ es, endsBy (size (p ++ m ++ g)) f = true := by
          intro f hf
          have := hrest.stop_le f hf
          simp only [endsBy, size_append, decide_eq_true_eq]
          omega
        have hkeep : (e :: es).filter (endsBy (size (p ++ m ++ g))) = e :: es := by
          rw [List.filter_eq_self]
          intro f hf
          rcases List.mem_cons.mp hf with rfl | hf
          · simpa [endsBy] using hends
          · exact hall f hf
        have hdrop : (e :: es).filter (fun e => !endsBy (size (p ++ m ++ g)) e) = [] := by
          rw [List.filter_eq_nil_iff]
          intro f hf
          rw [← hkeep] at hf
          rw [(List.mem_filter.mp hf).2]
          simp
        rw [hkeep, hdrop]
        refine ⟨.cons hstart hstop hrest, .nil, ?_⟩
        rw [← ht, List.append_assoc, foldl_replace_append (.cons hstart hstop hrest)]
        simp
      · -- This edit starts behind the part; those that follow have a shorter text behind it.
        have hsize : size (a ++ x) ≤ size p := by
          rw [← hstart]
          exact (hclear e (List.mem_cons_self ..)).resolve_left hends
        obtain ⟨c, rfl, hb⟩ := append_eq_append_of_size_le (ht.trans (List.append_assoc ..)) hsize
        obtain ⟨h₁, h₂, h₃⟩ := ih hrest fun f hf => hclear f (List.mem_cons_of_mem _ hf)
        have hbool : endsBy (size a) e = false := by simpa [endsBy] using hends
        have hstart' : (shift (size (a ++ x)) e).start = size c := by
          simp only [shift, hstart, size_append]
          omega
        have hstop' : (shift (size (a ++ x)) e).stop = size (c ++ m) := by
          simp only [shift, hstop, size_append]
          omega
        rw [List.filter_cons_of_neg (by simp [hbool]), List.filter_cons_of_pos (by simp [hbool]), List.map_cons, hb,
          ← List.append_assoc c]
        refine ⟨h₁, .cons hstart' hstop' h₂, ?_⟩
        rw [List.foldl_cons, List.foldl_cons, replace_append hstart hstop, replace_append hstart' hstop',
          List.append_assoc _ _ q, foldl_replace_append hrest, h₃, List.append_assoc c, foldl_replace_append h₂]
        simp [shift]

theorem fromEnd_filter (p : Edit → Bool) (es : List Edit) : fromEnd (es.filter p) = (fromEnd es).filter p :=
  (filter_mergeSort (fun a b c => by simp; omega) (fun a b => by simp; omega) p es).symm

theorem fromEnd_shift {n : Nat} {es : List Edit} (h : ∀ e ∈ es, n ≤ e.start) :
    fromEnd (es.map (shift n)) = (fromEnd es).map (shift n) := by
  refine (List.map_mergeSort fun a ha b hb => ?_).symm
  have := h a ha
  have := h b hb
  rw [decide_eq_decide]
  simp only [shift]
  omega

theorem mem_fromEnd {e : Edit} {es : List Edit} : e ∈ fromEnd es ↔ e ∈ es := List.mem_mergeSort

/-- A part of a text that no edit touches is kept. The edits that end ahead of it are applied to what is ahead of
it, the others to what is behind it. -/
theorem applyAll_around {t t' x : Text} {es : List Edit} {start stop : Nat} (h : applyAll t es = .ok t')
    (hx : t.slice? start stop = some x) (hclear : ∀ e ∈ es, e.stop ≤ start ∨ stop ≤ e.start) :
    ∃ ahead behind, t' = ahead ++ x ++ behind ∧
      applyAll (t.before start) (es.filter (endsBy start)) = .ok ahead ∧
      applyAll (t.after stop) ((es.filter fun e => !endsBy start e).map (shift stop)) = .ok behind := by
  obtain ⟨a, b, rfl, rfl, rfl⟩ := slice?_eq_some_iff.mp hx
  obtain ⟨hfit, rfl⟩ := applyAll_eq_ok_iff.mp h
  obtain ⟨h₁, h₂, h₃⟩ := hfit.around fun e he => hclear e (mem_fromEnd.mp he)
  have hbehind : ∀ e ∈ es.filter (fun e => !endsBy (size a) e), size (a ++ x) ≤ e.start := by
    intro e he
    obtain ⟨he, hends⟩ := List.mem_filter.mp he
    exact (hclear e he).resolve_left (by simpa [endsBy] using hends)
  refine ⟨_, _, h₃, applyAll_eq_ok_iff.mpr ?_, applyAll_eq_ok_iff.mpr ?_⟩
  · rw [List.append_assoc a x b, before_append_size, fromEnd_filter]
    exact ⟨h₁, rfl⟩
  · rw [after_append_size, fromEnd_shift hbehind, fromEnd_filter]
    exact ⟨h₂, rfl⟩

end Edit

end Reprint
