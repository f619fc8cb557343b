import Reprint.Source
/-!
Cutting a text at its boundaries. A boundary is an offset at which the text falls apart into two, and at a
boundary the two ways of cutting give exactly these parts. Proofs about offsets become proofs about
concatenations that way.
-/

namespace Reprint

/-- Of two elements of a list one is ahead of the other, or they are the same. -/
theorem append_cons_cases {α : Type} {pre post pre' post' : List α} {a a' : α}
    (h : pre ++ a :: post = pre' ++ a' :: post') : (pre = pre' ∧ a = a' ∧ post = post') ∨
      (∃ m, pre' = pre ++ a :: m ∧ post = m ++ a' :: post') ∨ ∃ m, pre = pre' ++ a' :: m ∧ post' = m ++ a :: post := by
  rcases List.append_eq_append_iff.mp h with ⟨m, hpre, hrest⟩ | ⟨m, hpre, hrest⟩
  · cases m with
    | nil =>
      obtain ⟨ha, hpost⟩ := List.cons.inj hrest
      exact .inl ⟨by rw [hpre, List.append_nil], ha, hpost⟩
    | cons x m =>
      obtain ⟨rfl, hpost⟩ := List.cons.inj hrest
      exact .inr (.inl ⟨m, hpre, hpost⟩)
  · cases m with
    | nil =>
      obtain ⟨ha, hpost⟩ := List.cons.inj hrest
      exact .inl ⟨by rw [hpre, List.append_nil], ha.symm, hpost.symm⟩
    | cons x m =>
      obtain ⟨rfl, hpost⟩ := List.cons.inj hrest
      exact .inr (.inr ⟨m, hpre, hpost⟩)

namespace Text
variable {a b c d t x : Text} {n start stop : Nat}

theorem size_eq_zero_iff : size t = 0 ↔ t = [] := by
  cases t with
  | nil => simp
  | cons c t =>
    have := c.utf8Size_pos
    simp only [size_cons, reduceCtorEq, iff_false]
    omega

/-! ### Boundaries -/

theorem before_append_size (a b : Text) : (a ++ b).before (size a) = a := by
  induction a with
  | nil =>
    cases b with
    | nil => rfl
    | cons c b =>
      have := c.utf8Size_pos
      simp [before, Nat.not_le.mpr this]
  | cons c a ih =>
    simp only [List.cons_append, size_cons, before]
    rw [if_pos (Nat.le_add_right ..), Nat.add_sub_cancel_left, ih]

theorem after_append_size (a b : Text) : (a ++ b).after (size a) = b := by
  have h := before_append_after (a ++ b) (size a)
  rw [before_append_size] at h
  exact List.append_cancel_left h

theorem isBoundary_append_size (a b : Text) : (a ++ b).isBoundary (size a) := by
  induction a with
  | nil => cases b <;> rfl
  | cons c a ih =>
    simp only [List.cons_append, size_cons, isBoundary, Nat.add_sub_cancel_left, ih, Nat.le_add_right, decide_true,
      Bool.and_self, Bool.or_true]

/-- A boundary is where a text falls apart into two. -/
theorem isBoundary_iff : t.isBoundary n ↔ ∃ a b, t = a ++ b ∧ size a = n := by
  constructor
  · intro h
    exact ⟨t.before n, t.after n, (before_append_after t n).symm, size_before_of_isBoundary h⟩
  · rintro ⟨a, b, rfl, rfl⟩
    exact isBoundary_append_size a b

@[simp] theorem isBoundary_zero (t : Text) : t.isBoundary 0 := isBoundary_iff.mpr ⟨[], t, rfl, rfl⟩

@[simp] theorem isBoundary_size (t : Text) : t.isBoundary t.size :=
  isBoundary_iff.mpr ⟨t, [], (List.append_nil t).symm, rfl⟩

/-- Of two ways to part a text, one parts a side of the other. -/
theorem append_eq_append_of_size_le (h : a ++ b = c ++ d) (hle : size a ≤ size c) :
    ∃ m, c = a ++ m ∧ b = m ++ d := by
  rcases List.append_eq_append_iff.mp h with ⟨m, hc, hb⟩ | ⟨m, ha, hd⟩
  · exact ⟨m, hc, hb⟩
  · have hm : m = [] := by
      rw [ha, size_append] at hle
      exact size_eq_zero_iff.mp (by omega)
    subst hm
    exact ⟨[], by simpa using ha.symm, by simpa using hd.symm⟩

theorem append_eq_append_of_size_eq (h : a ++ b = c ++ d) (hsize : size a = size c) : a = c ∧ b = d := by
  have hbefore := before_append_size a b
  rw [h, hsize, before_append_size] at hbefore
  subst hbefore
  exact ⟨rfl, List.append_cancel_left h⟩

/-! ### Slices -/

theorem slice?_append (a x b : Text) : (a ++ x ++ b).slice? (size a) (size (a ++ x)) = some x := by
  have hstart : (a ++ x ++ b).isBoundary (size a) := by
    rw [List.append_assoc]
    exact isBoundary_append_size a _
  rw [slice?, if_pos ⟨by simp, hstart, isBoundary_append_size (a ++ x) b⟩, before_append_size, after_append_size]

theorem slice?_eq_some_iff : t.slice? start stop = some x ↔
    ∃ a b, t = a ++ x ++ b ∧ size a = start ∧ size (a ++ x) = stop := by
  constructor
  · intro h
    unfold slice? at h
    by_cases hfits : start ≤ stop ∧ t.isBoundary start ∧ t.isBoundary stop
    · rw [if_pos hfits] at h
      obtain ⟨hle, hstart, hstop⟩ := hfits
      obtain ⟨a, b, rfl, rfl⟩ := isBoundary_iff.mp hstart
      obtain ⟨c, d, hcd, rfl⟩ := isBoundary_iff.mp hstop
      obtain ⟨m, rfl, rfl⟩ := append_eq_append_of_size_le hcd hle
      rw [hcd, before_append_size, after_append_size] at h
      cases h
      exact ⟨a, d, by rw [List.append_assoc], rfl, rfl⟩
    · rw [if_neg hfits] at h
      cases h
  · rintro ⟨a, b, rfl, rfl, rfl⟩
    exact slice?_append a x b

end Text

namespace Source

theorem slice_eq_ok_iff {s : Source} {start stop : Nat} {x : Text} : s.slice start stop = .ok x ↔
    ∃ a b, s.text = a ++ x ++ b ∧ Text.size a = start ∧ Text.size (a ++ x) = stop := by
  rw [← Text.slice?_eq_some_iff, slice]
  cases s.text.slice? start stop <;> simp

/-- What can be cut out of a source is what begins and ends between characters, in this order. -/
theorem exists_slice_iff {s : Source} {start stop : Nat} : (∃ x, s.slice start stop = .ok x) ↔
    start ≤ stop ∧ s.text.isBoundary start ∧ s.text.isBoundary stop := by
  unfold slice Text.slice?
  by_cases h : start ≤ stop ∧ s.text.isBoundary start ∧ s.text.isBoundary stop
  · rw [if_pos h]
    exact ⟨fun _ => h, fun _ => ⟨_, rfl⟩⟩
  · rw [if_neg h]
    exact ⟨nofun, fun h' => absurd h' h⟩

theorem size_of_slice {s : Source} {start stop : Nat} {x : Text} (h : s.slice start stop = .ok x) :
    start + x.size = stop := by
  obtain ⟨a, b, -, rfl, rfl⟩ := slice_eq_ok_iff.mp h
  exact (Text.size_append a x).symm

/-- Slices that meet make one. -/
theorem slice_append {s : Source} {start mid stop : Nat} {x y : Text} (hx : s.slice start mid = .ok x)
    (hy : s.slice mid stop = .ok y) : s.slice start stop = .ok (x ++ y) := by
  obtain ⟨a, b, htext, rfl, rfl⟩ := slice_eq_ok_iff.mp hx
  obtain ⟨a', b', htext', hsize, rfl⟩ := slice_eq_ok_iff.mp hy
  rw [htext, List.append_assoc a' y] at htext'
  obtain ⟨rfl, hrest⟩ := Text.append_eq_append_of_size_eq htext' hsize.symm
  refine slice_eq_ok_iff.mpr ⟨a, b', ?_, rfl, by simp⟩
  rw [htext, hrest]
  simp

end Source

end Reprint
