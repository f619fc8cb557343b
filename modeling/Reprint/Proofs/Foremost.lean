import Mathlib
import Reprint.Proofs.Exchange
/-!
Which ranges of a list are kept. An entry is foremost if no range of the list is properly wider than its own and no
earlier one covers the same offsets. Main statement: the widest ranges are those of the foremost entries, each once and
in the order of their starts, and every range lies within one of them. None of them lies within another, so their stops
are in order as well; and if any two ranges of the list are nested or have no offset in common, those that are kept
follow each other without overlap.
-/

namespace Reprint

/-- No offset of a file lies in both. -/
def Span.Disjoint (a b : Span) : Prop :=
  a.file = b.file → ∀ i, ¬((a.start ≤ i ∧ i < a.stop) ∧ b.start ≤ i ∧ i < b.stop)

theorem Span.disjoint_of_not_overlaps {a b : Span} (h : ¬a.overlaps b) : a.Disjoint b := by
  intro hfile i hi
  exact h (overlaps_iff.mpr ⟨hfile, by omega⟩)

/-- An element stays if it is no duplicate of one ahead of it. -/
theorem mem_eraseDupsBy_of_split {α : Type} {r : α → α → Bool} {a : α} {pre post : List α} (h : ∀ b ∈ pre, ¬r a b) :
    a ∈ (pre ++ a :: post).eraseDupsBy r := by
  match pre with
  | [] =>
    rw [List.nil_append, List.eraseDupsBy_cons]
    exact List.mem_cons_self ..
  | x :: pre =>
    have hax : ¬r a x := h x (List.mem_cons_self ..)
    rw [List.cons_append, List.eraseDupsBy_cons, List.filter_append, List.filter_cons_of_pos (by simpa using hax)]
    refine List.mem_cons_of_mem _ (mem_eraseDupsBy_of_split fun b hb => ?_)
    exact h b (List.mem_cons_of_mem _ (List.mem_filter.mp hb).1)
termination_by pre.length
decreasing_by exact Nat.lt_succ_of_le (List.length_filter_le ..)

namespace Region
variable {α : Type} {f : α → Span} {l : List α}

/-! ### What is kept -/

theorem mem_widest_iff {a : α} : a ∈ widest f l ↔
    ∃ pre post, l = pre ++ a :: post ∧ (∀ b ∈ l, ¬(f b).properlyIncludes (f a)) ∧ ∀ b ∈ pre, ¬(f b).includes (f a) := by
  constructor
  · intro h
    obtain ⟨hout, pre, post, hl, hpre⟩ := mem_widest_split h
    exact ⟨pre, post, hl, hout, hpre⟩
  · rintro ⟨pre, post, hl, hout, hpre⟩
    have hkeep : (!l.any fun b => (f b).properlyIncludes (f a)) = true := by simpa using hout
    refine List.mem_mergeSort.mpr ?_
    rw [congrArg (List.filter _) hl, List.filter_append, List.filter_cons, if_pos hkeep]
    refine mem_eraseDupsBy_of_split fun b hb hab => ?_
    exact hpre b (List.mem_filter.mp hb).1 (Bool.and_eq_true_iff.mp hab).2

theorem exists_sublist_perm_widest (f : α → Span) (l : List α) : ∃ k, k.Sublist l ∧ (widest f l).Perm k :=
  ⟨_, (eraseDupsBy_sublist _ _).trans List.filter_sublist, List.mergeSort_perm ..⟩

/-! ### Positions -/

/-- The entry at a position is foremost: no range is properly wider, and no earlier one covers the same offsets. -/
def Foremost (f : α → Span) (l : List α) (i : Nat) : Prop :=
  ∃ a, l[i]? = some a ∧ (∀ b ∈ l, ¬(f b).properlyIncludes (f a)) ∧
    ∀ j b, j < i → l[j]? = some b → ¬((f b).start = (f a).start ∧ (f b).stop = (f a).stop)

/-- Ahead of an entry of a numbered list stand those with smaller numbers. -/
theorem mem_ahead_iff {a : α} {i : Nat} {pre post : List (α × Nat)} (h : l.zipIdx = pre ++ (a, i) :: post) {b : α}
    {j : Nat} : (b, j) ∈ pre ↔ j < i ∧ l[j]? = some b := by
  have hsorted : l.zipIdx.Pairwise fun x y => x.2 < y.2 := by
    rw [← List.pairwise_map (f := Prod.snd) (R := (· < ·)), List.zipIdx_map_snd]
    exact List.pairwise_lt_range'
  have hmem : (b, j) ∈ l.zipIdx ↔ l[j]? = some b := List.mem_zipIdx_iff_getElem?
  rw [h, List.pairwise_append, List.pairwise_cons] at hsorted
  rw [h, List.mem_append, List.mem_cons] at hmem
  obtain ⟨-, ⟨hbehind, -⟩, hahead⟩ := hsorted
  constructor
  · intro hb
    exact ⟨hahead _ hb _ (List.mem_cons_self ..), hmem.mp (.inl hb)⟩
  · rintro ⟨hj, hb⟩
    rcases hmem.mpr hb with hb | hb | hb
    · exact hb
    · cases hb
      omega
    · have := hbehind _ hb
      omega

/-- Of a numbered list exactly the foremost entries are kept. -/
theorem mem_widest_zipIdx_iff (hfile : ∀ a ∈ l, ∀ b ∈ l, (f a).file = (f b).file) {a : α} {i : Nat} :
    (a, i) ∈ widest (f ∘ Prod.fst) l.zipIdx ↔ l[i]? = some a ∧ Foremost f l i := by
  rw [mem_widest_iff]
  constructor
  · rintro ⟨pre, post, hl, hout, hpre⟩
    have hmem : (a, i) ∈ l.zipIdx := by rw [hl]; simp
    have ha : l[i]? = some a := List.mem_zipIdx_iff_getElem?.mp hmem
    refine ⟨ha, a, ha, fun b hb => ?_, fun j b hj hb hsame => ?_⟩
    · obtain ⟨j, hj⟩ := List.getElem?_of_mem hb
      exact hout (b, j) (List.mem_zipIdx_iff_getElem?.mpr hj)
    · have hfiles := hfile b (List.mem_of_getElem? hb) a (List.mem_of_getElem? ha)
      exact hpre (b, j) ((mem_ahead_iff hl).mpr ⟨hj, hb⟩) (Span.includes_iff.mpr ⟨hfiles, hsame.1.le, hsame.2.ge⟩)
  · rintro ⟨ha, a', ha', hout, hfirst⟩
    cases ha.symm.trans ha'
    have hmem : (a, i) ∈ l.zipIdx := List.mem_zipIdx_iff_getElem?.mpr ha
    obtain ⟨pre, post, hl⟩ := List.append_of_mem hmem
    refine ⟨pre, post, hl, fun b hb => hout b.1 (List.fst_mem_of_mem_zipIdx hb), ?_⟩
    rintro ⟨b, j⟩ hb hinc
    obtain ⟨hj, hbj⟩ := (mem_ahead_iff hl).mp hb
    -- An earlier range that includes this one would be wider or cover the same offsets.
    by_cases hsame : (f b).start = (f a).start ∧ (f b).stop = (f a).stop
    · exact hfirst j b hj hbj hsame
    · exact hout b (List.mem_of_getElem? hbj) (Span.properlyIncludes_iff.mpr ⟨hinc, hsame⟩)

theorem widest_positions (hfile : ∀ a ∈ l, ∀ b ∈ l, (f a).file = (f b).file) :
    ∃ is : List Nat, is.Nodup ∧ (widest f l).map some = is.map (l[·]?) ∧ ∀ i, i ∈ is ↔ Foremost f l i := by
  have hl : widest f (l.zipIdx.map Prod.fst) = (widest (f ∘ Prod.fst) l.zipIdx).map Prod.fst :=
    widest_map (fun _ => rfl) (fun _ _ => rfl) (fun _ _ => rfl) _
  rw [List.zipIdx_map_fst] at hl
  refine ⟨(widest (f ∘ Prod.fst) l.zipIdx).map Prod.snd, ?_, ?_, fun i => ?_⟩
  · obtain ⟨k, hk, hperm⟩ := exists_sublist_perm_widest (f ∘ Prod.fst) l.zipIdx
    rw [(hperm.map Prod.snd).nodup_iff]
    refine (hk.map Prod.snd).nodup ?_
    rw [List.zipIdx_map_snd]
    exact List.nodup_range'
  · rw [hl, List.map_map, List.map_map]
    refine List.map_congr_left fun x hx => ?_
    exact ((mem_widest_zipIdx_iff hfile).mp hx).1.symm
  · rw [List.mem_map]
    constructor
    · rintro ⟨x, hx, rfl⟩
      exact ((mem_widest_zipIdx_iff hfile).mp hx).2
    · intro hi
      obtain ⟨a, ha, -⟩ := id hi
      exact ⟨(a, i), (mem_widest_zipIdx_iff hfile).mpr ⟨ha, hi⟩, rfl⟩

/-- Keeping the widest ranges of a list in one file. Exactly the foremost entries are kept, each once; every range lies
within a kept one; kept starts and stops increase; and where any two ranges are nested or disjoint, each kept range ends
at the latest where a later one starts. -/
theorem widest_keeps_foremost (f : α → Span) (l : List α) (hfile : ∀ a ∈ l, ∀ b ∈ l, (f a).file = (f b).file) :
    (∃ is : List Nat, is.Nodup ∧ (widest f l).map some = is.map (l[·]?) ∧ ∀ i, i ∈ is ↔ Foremost f l i) ∧
      (∀ a ∈ l, ∃ b ∈ widest f l, (f b).includes (f a)) ∧
      (widest f l).Pairwise (fun a b => (f a).start < (f b).start ∧ (f a).stop < (f b).stop) ∧
      ((∀ a ∈ l, ∀ b ∈ l, (f a).includes (f b) ∨ (f b).includes (f a) ∨ (f a).Disjoint (f b)) →
        (widest f l).Pairwise fun a b => (f a).stop ≤ (f b).start) := by
  have hordered : (widest f l).Pairwise fun a b => (f a).start < (f b).start ∧ (f a).stop < (f b).stop := by
    refine List.Pairwise.imp_of_mem (fun {a b} ha hb h => ?_) ((widest_sorted f l).and (pairwise_widest f l))
    obtain ⟨hle, hab, hba⟩ := h
    have hfiles := hfile a (mem_of_mem_widest ha) b (mem_of_mem_widest hb)
    simp only [Span.includes_iff, hfiles, true_and] at hab hba
    omega
  refine ⟨widest_positions hfile, fun a ha => exists_mem_widest ha, hordered, fun hlaminar => ?_⟩
  refine List.Pairwise.imp_of_mem (fun {a b} ha hb hlt => ?_) (hordered.and (pairwise_widest f l))
  obtain ⟨⟨hstart, hstop⟩, hab, hba⟩ := hlt
  rcases hlaminar a (mem_of_mem_widest ha) b (mem_of_mem_widest hb) with hinc | hinc | hdisjoint
  · exact absurd hinc hab
  · exact absurd hinc hba
  · -- An earlier range that reached into `b` would hold the first offset of `b`.
    have hfirst := hdisjoint (hfile a (mem_of_mem_widest ha) b (mem_of_mem_widest hb)) (f b).start
    omega

/-- Ranges that touch, lie one in the other, are empty, or cover the same offsets with another point. -/
def sampleRanges : List Span :=
  [.range "A.scala" 8 9, { file := "A.scala", start := 4, point := 5, stop := 10 }, .range "A.scala" 12 12,
    .range "A.scala" 4 10, .range "A.scala" 3 3, .range "A.scala" 10 12, .range "A.scala" 0 2]

theorem widest_sampleRanges :
    (∃ is : List Nat, is.Nodup ∧ (widest id sampleRanges).map some = is.map (sampleRanges[·]?) ∧
        ∀ i, i ∈ is ↔ Foremost id sampleRanges i) ∧
      (widest id sampleRanges).Pairwise (fun a b => a.stop ≤ b.start) ∧
      (widest id sampleRanges).map Span.point = [0, 3, 5, 10] := by
  have hfile : (sampleRanges.all fun a => sampleRanges.all fun b => a.file == b.file) = true := by cbv
  have hlaminar : (sampleRanges.all fun a => sampleRanges.all fun b =>
      a.includes b || b.includes a || !a.overlaps b) = true := by cbv
  simp only [List.all_eq_true, beq_iff_eq, Bool.or_eq_true, Bool.not_eq_true'] at hfile hlaminar
  obtain ⟨hkept, -, -, hbehind⟩ := widest_keeps_foremost id sampleRanges hfile
  refine ⟨hkept, hbehind fun a ha b hb => ?_, by cbv⟩
  rcases hlaminar a ha b hb with (h | h) | h
  · exact .inl h
  · exact .inr (.inl h)
  · exact .inr (.inr (Span.disjoint_of_not_overlaps (Bool.eq_false_iff.mp h)))

end Region

end Reprint
