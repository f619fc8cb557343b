import Reprint.Change.Region
import Reprint.Proofs.Placement
/-!
Keeping the widest ranges of a list. What is kept stands in the list ahead of everything that covers the same
offsets, and nothing in the list is wider. What is dropped lies within something that is kept.
-/

namespace Reprint

namespace Span
variable {a b c : Span}

theorem properlyIncludes_of_includes (hab : a.properlyIncludes b) (hbc : b.includes c) : a.properlyIncludes c := by
  obtain ⟨h, hne⟩ := properlyIncludes_iff.mp hab
  have h' := includes_iff.mp h
  have hbc' := includes_iff.mp hbc
  exact properlyIncludes_iff.mpr ⟨includes_trans h hbc, fun heq => hne (by omega)⟩

theorem includes_symm_of_not_proper (h : a.includes b) (hp : ¬a.properlyIncludes b) : b.includes a := by
  have heq : a.start = b.start ∧ a.stop = b.stop := by
    by_cases heq : a.start = b.start ∧ a.stop = b.stop
    · exact heq
    · exact absurd (properlyIncludes_iff.mpr ⟨h, heq⟩) hp
  exact includes_iff.mpr ⟨(includes_iff.mp h).1.symm, Nat.le_of_eq heq.1.symm, Nat.le_of_eq heq.2⟩

end Span

/-! ### Duplicates -/

section Duplicates
variable {α : Type} {r : α → α → Bool}

theorem eraseDupsBy_split (trans : ∀ a b c, r a b → r b c → r a c) {a : α} {l : List α} (h : a ∈ l.eraseDupsBy r) :
    ∃ pre post, l = pre ++ a :: post ∧ ∀ b ∈ pre, ¬r a b := by
  match l with
  | [] => cases h
  | x :: l =>
    rw [List.eraseDupsBy_cons] at h
    rcases List.mem_cons.mp h with rfl | h
    · exact ⟨[], l, rfl, by simp⟩
    · obtain ⟨pre, post, hl, hpre⟩ := eraseDupsBy_split trans h
      obtain ⟨l₁, l₂, rfl, rfl, hl₂⟩ := List.filter_eq_append_iff.mp hl
      obtain ⟨l₃, l₄, rfl, hl₃, hax, -⟩ := List.filter_eq_cons_iff.mp hl₂
      have hax : ¬r a x := by simpa using hax
      refine ⟨x :: l₁ ++ l₃, l₄, by simp, ?_⟩
      -- Whatever was dropped in favour of `x` is no duplicate of `a`, since `x` is none.
      intro b hb hab
      rcases List.mem_append.mp hb with hb | hb
      · rcases List.mem_cons.mp hb with rfl | hb
        · exact hax hab
        · by_cases hbx : r b x
          · exact hax (trans a b x hab hbx)
          · exact hpre b (List.mem_filter.mpr ⟨hb, by simpa using hbx⟩) hab
      · exact hax (trans a b x hab (by simpa using hl₃ b hb))
termination_by l.length
decreasing_by exact Nat.lt_succ_of_le (List.length_filter_le ..)

theorem exists_mem_eraseDupsBy {a : α} {l : List α} (h : a ∈ l) : ∃ b ∈ l.eraseDupsBy r, a = b ∨ r a b := by
  match l with
  | [] => cases h
  | x :: l =>
    rw [List.eraseDupsBy_cons]
    rcases List.mem_cons.mp h with rfl | h
    · exact ⟨a, List.mem_cons_self .., .inl rfl⟩
    · by_cases hax : r a x
      · exact ⟨x, List.mem_cons_self .., .inr hax⟩
      · obtain ⟨b, hb, hab⟩ := exists_mem_eraseDupsBy (l := l.filter fun b => r b x = false)
          (List.mem_filter.mpr ⟨h, by simpa using hax⟩)
        exact ⟨b, List.mem_cons_of_mem _ hb, hab⟩
termination_by l.length
decreasing_by exact Nat.lt_succ_of_le (List.length_filter_le ..)

end Duplicates

/-! ### Widest ranges -/

namespace Region
variable {α : Type} {f : α → Span} {l : List α}

theorem exists_bound (g : α → Nat) (l : List α) : ∃ m, ∀ a ∈ l, g a ≤ m := by
  induction l with
  | nil => exact ⟨0, by simp⟩
  | cons a l ih =>
    obtain ⟨m, hm⟩ := ih
    refine ⟨m + g a, fun b hb => ?_⟩
    rcases List.mem_cons.mp hb with rfl | hb
    · omega
    · have := hm b hb
      omega

/-- Every range lies within one that is properly included in none. -/
theorem exists_outermost {a : α} (ha : a ∈ l) :
    ∃ b ∈ l, (f b).includes (f a) ∧ ∀ c ∈ l, ¬(f c).properlyIncludes (f b) := by
  obtain ⟨m, hm⟩ := exists_bound (fun a => (f a).stop) l
  -- Going to a wider range moves a start down or a stop up, and stops are bounded.
  generalize hk : (f a).start + (m - (f a).stop) = k
  induction k using Nat.strongRecOn generalizing a with
  | ind k ih =>
    by_cases h : ∃ c ∈ l, (f c).properlyIncludes (f a)
    · obtain ⟨c, hc, hca⟩ := h
      obtain ⟨hinc, hne⟩ := Span.properlyIncludes_iff.mp hca
      have hinc' := Span.includes_iff.mp hinc
      have hstop := hm c hc
      obtain ⟨b, hb, hbc, hout⟩ := ih ((f c).start + (m - (f c).stop)) (by omega) hc rfl
      exact ⟨b, hb, Span.includes_trans hbc hinc, hout⟩
    · exact ⟨a, ha, Span.includes_refl _, fun c hc hca => h ⟨c, hc, hca⟩⟩

theorem mem_widest_split {a : α} (h : a ∈ widest f l) :
    (∀ b ∈ l, ¬(f b).properlyIncludes (f a)) ∧
      ∃ pre post, l = pre ++ a :: post ∧ ∀ b ∈ pre, ¬(f b).includes (f a) := by
  have h := List.mem_mergeSort.mp h
  obtain ⟨pre, post, hl, hpre⟩ := eraseDupsBy_split (fun a b c hab hbc => by
    simp only [Bool.and_eq_true] at hab hbc ⊢
    exact ⟨Span.includes_trans hab.1 hbc.1, Span.includes_trans hbc.2 hab.2⟩) h
  obtain ⟨l₁, l₂, hl₁₂, rfl, hl₂⟩ := List.filter_eq_append_iff.mp hl
  obtain ⟨l₃, l₄, rfl, hl₃, hout, -⟩ := List.filter_eq_cons_iff.mp hl₂
  have hout : ∀ b ∈ l, ¬(f b).properlyIncludes (f a) := by simpa using hout
  refine ⟨hout, l₁ ++ l₃, l₄, by rw [hl₁₂, List.append_assoc], ?_⟩
  -- An earlier range that includes this one covers the same offsets, so it was kept in its place.
  intro b hb hba
  have hbl : b ∈ l := by
    rw [hl₁₂, ← List.append_assoc]
    exact List.mem_append_left _ hb
  have hab := Span.includes_symm_of_not_proper hba (hout b hbl)
  have hbout : ∀ c ∈ l, ¬(f c).properlyIncludes (f b) := fun c hc hcb =>
    hout c hc (Span.properlyIncludes_of_includes hcb hba)
  have hbout' : (!l.any fun c => (f c).properlyIncludes (f b)) = true := by simpa using hbout
  rcases List.mem_append.mp hb with hb | hb
  · exact hpre b (List.mem_filter.mpr ⟨hb, hbout'⟩) (by simp [hab, hba])
  · exact hl₃ b hb hbout'

theorem exists_mem_widest {a : α} (h : a ∈ l) : ∃ b ∈ widest f l, (f b).includes (f a) := by
  obtain ⟨b, hb, hba, hout⟩ := exists_outermost (f := f) h
  obtain ⟨c, hc, hcb⟩ := exists_mem_eraseDupsBy
    (r := fun a b => (f a).includes (f b) && (f b).includes (f a))
    (l := l.filter fun a => !l.any fun b => (f b).properlyIncludes (f a))
    (List.mem_filter.mpr ⟨hb, by simpa using hout⟩)
  refine ⟨c, List.mem_mergeSort.mpr hc, ?_⟩
  rcases hcb with rfl | hcb
  · exact hba
  · exact Span.includes_trans (by simpa using (Bool.and_eq_true_iff.mp hcb).2) hba

theorem widest_eq_nil_iff : widest f l = [] ↔ l = [] := by
  constructor
  · intro h
    cases l with
    | nil => rfl
    | cons a l =>
      obtain ⟨b, hb, -⟩ := exists_mem_widest (f := f) (List.mem_cons_self (a := a) (l := l))
      rw [h] at hb
      cases hb
  · rintro rfl
    simp [widest]

end Region

end Reprint
