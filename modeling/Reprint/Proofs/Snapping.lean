import Reprint.Proofs.Segments
/-!
Offsets and comments. Comments do not overlap, though one may begin where another ends, so an offset is strictly inside
of one comment at most, and the ends of comments are inside of none. Moved out of comments, an offset between two
characters comes to lie between two segments. Main statement: `snap_projects`.
-/

namespace Reprint.Gap
open Text

/-! ### Offsets between and inside segments -/

theorem size_spaces (n : Nat) : size (List.replicate n ' ') = n := by
  induction n with
  | zero => rfl
  | succ n ih =>
    rw [List.replicate_succ, size_cons, ih]
    exact Nat.add_comm 1 n

theorem Segment.size_masked (s : Segment) : size s.masked = size s.raw := by
  have hcomment : ∀ t : Text, size (t.flatMap blankOut) = size t := by
    intro t
    induction t with
    | nil => rfl
    | cons c t ih =>
      rw [List.flatMap_cons, size_append, ih, size_cons, blankOut]
      split
      · subst ‹c = _›
        rfl
      · rw [size_spaces]
  cases s with
  | code c => rfl
  | line t => exact hcomment t
  | block t => exact hcomment t

/-- An offset between two characters of a view of some segments lies between two segments or inside a comment. -/
theorem boundary_cases {view : Segment → Text} (hcode : ∀ c, view (.code c) = [c])
    (hsize : ∀ s, size (view s) = size s.raw) {ss : List Segment} {i : Nat} (h : isBoundary (ss.flatMap view) i) :
    (∃ pre post, ss = pre ++ post ∧ i = size (raws pre)) ∨
      ∃ pre s post, ss = pre ++ s :: post ∧ s.isComment = true ∧ size (raws pre) < i ∧
        i < size (raws pre) + size s.raw := by
  induction ss generalizing i with
  | nil =>
    obtain ⟨a, b, hab, rfl⟩ := isBoundary_iff.mp h
    obtain ⟨rfl, -⟩ := List.append_eq_nil_iff.mp hab.symm
    exact .inl ⟨[], [], rfl, rfl⟩
  | cons s ss ih =>
    obtain ⟨a, b, hab, rfl⟩ := isBoundary_iff.mp h
    rw [List.flatMap_cons] at hab
    by_cases hle : size (view s) ≤ size a
    · obtain ⟨m, rfl, hm⟩ := append_eq_append_of_size_le hab hle
      have hrest : isBoundary (ss.flatMap view) (size m) := isBoundary_iff.mpr ⟨m, b, hm, rfl⟩
      rcases ih hrest with ⟨pre, post, rfl, hi⟩ | ⟨pre, s', post, rfl, hs, hlt, hgt⟩
      · exact .inl ⟨s :: pre, post, rfl, by simp [hi, hsize]⟩
      · refine .inr ⟨s :: pre, s', post, rfl, hs, ?_, ?_⟩ <;> simp only [raws_cons, size_append, hsize] <;> omega
    · by_cases hzero : size a = 0
      · exact .inl ⟨[], s :: ss, rfl, by simp [hzero]⟩
      · refine .inr ⟨[], s, ss, rfl, ?_, by simp; omega, by simp [← hsize]; omega⟩
        cases s with
        | code c =>
          -- A single character has no offset inside.
          exfalso
          obtain ⟨m, hm, -⟩ := append_eq_append_of_size_le hab.symm (by omega)
          rw [hcode] at hm hle
          cases a with
          | nil => exact hzero rfl
          | cons d a =>
            obtain ⟨rfl, hm⟩ := List.cons.inj hm
            simp at hle
        | line t => rfl
        | block t => rfl

theorem mem_commentsFrom {start : Nat} {ss : List Segment} {a b : Nat} : (a, b) ∈ commentsFrom start ss ↔
    ∃ pre s post, ss = pre ++ s :: post ∧ s.isComment = true ∧ a = start + size (raws pre) ∧ b = a + size s.raw := by
  induction ss generalizing start with
  | nil => simp [commentsFrom]
  | cons s ss ih =>
    have hrest : (a, b) ∈ commentsFrom (start + size s.raw) ss ↔ ∃ pre s' post, s :: ss = (s :: pre) ++ s' :: post ∧
        s'.isComment = true ∧ a = start + size (raws (s :: pre)) ∧ b = a + size s'.raw := by
      rw [ih]
      simp [Nat.add_assoc]
    constructor
    · intro h
      simp only [commentsFrom] at h
      split at h
      · rcases List.mem_cons.mp h with heq | h
        · cases heq
          exact ⟨[], s, ss, rfl, ‹_›, rfl, rfl⟩
        · obtain ⟨pre, s', post, h⟩ := hrest.mp h
          exact ⟨s :: pre, s', post, h⟩
      · obtain ⟨pre, s', post, h⟩ := hrest.mp h
        exact ⟨s :: pre, s', post, h⟩
    · rintro ⟨_ | ⟨s'', pre⟩, s', post, heq, hs, ha, hb⟩
      · obtain ⟨rfl, rfl⟩ := List.cons.inj heq
        simp only [raws_nil, size_nil, Nat.add_zero] at ha
        simp [commentsFrom, hs, ha, hb]
      · obtain ⟨rfl, -⟩ := List.cons.inj heq
        have := hrest.mpr ⟨pre, s', post, heq, hs, ha, hb⟩
        simp only [commentsFrom]
        split
        · exact List.mem_cons_of_mem _ this
        · exact this

theorem mem_comments {t : Text} {pre post : List Segment} {s : Segment} (h : segments t = pre ++ s :: post)
    (hs : s.isComment = true) : (size (raws pre), size (raws (pre ++ [s]))) ∈ comments t :=
  mem_commentsFrom.mpr ⟨pre, s, post, h, hs, (Nat.zero_add _).symm, by simp⟩

/-! ### Comments one after the other -/

theorem isBoundary_cut {t : Text} {ss ss' : List Segment} (h : segments t = ss ++ ss') : t.isBoundary (size (raws ss)) := by
  rw [(segments_raws_right h).2]
  exact isBoundary_append_size ..

/-- A comment begins and ends between two characters, and is not empty. -/
theorem comment_aligned {t : Text} {a b : Nat} (h : (a, b) ∈ comments t) :
    a < b ∧ b ≤ t.size ∧ t.isBoundary a = true ∧ t.isBoundary b = true := by
  obtain ⟨pre, s, post, hsegments, -, ha, hb⟩ := mem_commentsFrom.mp h
  have hbehind : segments t = (pre ++ [s]) ++ post := by rw [hsegments]; simp
  have hpos : 0 < size s.raw := size_raw_pos (hsegments ▸ List.mem_append_right _ (List.mem_cons_self ..))
  have hstop : b = size (raws (pre ++ [s])) := by rw [hb, ha]; simp
  rw [Nat.zero_add] at ha
  refine ⟨by omega, ?_, ha ▸ isBoundary_cut hsegments, hstop ▸ isBoundary_cut hbehind⟩
  rw [(segments_raws_right hbehind).2, size_append, ← hstop]
  exact Nat.le_add_right ..

/-- Comments come one after the other. -/
theorem pairwise_commentsFrom (start : Nat) (ss : List Segment) :
    (commentsFrom start ss).Pairwise fun a b => a.2 ≤ b.1 := by
  induction ss generalizing start with
  | nil => exact .nil
  | cons s ss ih =>
    rw [commentsFrom]
    split
    · refine List.pairwise_cons.mpr ⟨fun b hb => ?_, ih _⟩
      obtain ⟨pre, s', post, -, -, hstart, -⟩ := mem_commentsFrom.mp hb
      exact hstart ▸ Nat.le_add_right ..
    · exact ih _

section Spans
variable {t : Text} {a b s : Nat × Nat} {i j : Nat}

/-- Of two comments one ends before the other begins, or they are the same. -/
theorem comments_apart (ha : a ∈ comments t) (hb : b ∈ comments t) : a = b ∨ a.2 ≤ b.1 ∨ b.2 ≤ a.1 := by
  have hpairs : (comments t).Pairwise fun a b => a.2 ≤ b.1 := pairwise_commentsFrom ..
  obtain ⟨pre, post, hsplit⟩ := List.append_of_mem ha
  rw [hsplit] at hb hpairs
  obtain ⟨-, hpost, hpre⟩ := List.pairwise_append.mp hpairs
  rcases List.mem_append.mp hb with hb | hb
  · exact .inr (.inr (hpre b hb a (List.mem_cons_self ..)))
  · rcases List.mem_cons.mp hb with rfl | hb
    · exact .inl rfl
    · exact .inr (.inl ((List.pairwise_cons.mp hpost).1 b hb))

theorem ends_not_inside (ha : a ∈ comments t) (hb : b ∈ comments t) :
    ¬(b.1 < a.1 ∧ a.1 < b.2) ∧ ¬(b.1 < a.2 ∧ a.2 < b.2) := by
  have hlt := (comment_aligned ha).1
  rcases comments_apart ha hb with rfl | h | h <;> omega

/-! ### Out of comments -/

theorem snap_of_outside (h : ∀ s ∈ comments t, ¬(s.1 < i ∧ i < s.2)) : snap t i = i := by
  have hnone : (comments t).find? (fun s => s.1 < i && i < s.2) = none :=
    List.find?_eq_none.mpr fun s hs hin => h s hs (by simpa using hin)
  rw [snap, hnone]

theorem snap_of_inside (hs : s ∈ comments t) (h : s.1 < i ∧ i < s.2) :
    snap t i = if onOwnLine t s.1 then s.1 else s.2 := by
  have hsome : ((comments t).find? fun s => s.1 < i && i < s.2).isSome :=
    List.find?_isSome.mpr ⟨s, hs, by simpa using h⟩
  obtain ⟨c, hc⟩ := Option.isSome_iff_exists.mp hsome
  have hin : c.1 < i ∧ i < c.2 := by simpa using List.find?_some hc
  -- No two comments hold the same offset.
  obtain rfl : s = c := (comments_apart hs (List.mem_of_find?_eq_some hc)).resolve_right (by omega)
  rw [snap, hc]

/-- An offset is inside of no comment and stays, or it is moved to an end of the comment that it is in. -/
theorem snap_span_cases (t : Text) (i : Nat) :
    (snap t i = i ∧ ∀ s ∈ comments t, ¬(s.1 < i ∧ i < s.2)) ∨
      ∃ s ∈ comments t, (s.1 < i ∧ i < s.2) ∧ ((onOwnLine t s.1 = true ∧ snap t i = s.1) ∨
        (onOwnLine t s.1 = false ∧ snap t i = s.2)) := by
  by_cases h : ∃ s ∈ comments t, s.1 < i ∧ i < s.2
  · obtain ⟨s, hs, hin⟩ := h
    refine .inr ⟨s, hs, hin, ?_⟩
    rw [snap_of_inside hs hin]
    cases onOwnLine t s.1 with
    | true => exact .inl ⟨rfl, rfl⟩
    | false => exact .inr ⟨rfl, rfl⟩
  · have hout : ∀ s ∈ comments t, ¬(s.1 < i ∧ i < s.2) := fun s hs hin => h ⟨s, hs, hin⟩
    exact .inl ⟨snap_of_outside hout, hout⟩

theorem snap_not_inside (i : Nat) (hs : s ∈ comments t) : ¬(s.1 < snap t i ∧ snap t i < s.2) := by
  rcases snap_span_cases t i with ⟨hsnap, hout⟩ | ⟨c, hc, -, ⟨-, hsnap⟩ | ⟨-, hsnap⟩⟩ <;> rw [hsnap]
  · exact hout s hs
  · exact (ends_not_inside hc hs).1
  · exact (ends_not_inside hc hs).2

theorem snap_mono (h : i ≤ j) : snap t i ≤ snap t j := by
  rcases snap_span_cases t i with ⟨hi, houti⟩ | ⟨a, ha, hina, hi⟩
  · rcases snap_span_cases t j with ⟨hj, -⟩ | ⟨b, hb, hinb, hj⟩
    · omega
    · -- `i` does not lie inside the comment that `j` leaves.
      have := houti b hb
      omega
  · rcases snap_span_cases t j with ⟨hj, houtj⟩ | ⟨b, hb, hinb, hj⟩
    · have := houtj a ha
      omega
    · rcases comments_apart ha hb with rfl | hab | hba
      · exact Nat.le_of_eq ((snap_of_inside ha hina).trans (snap_of_inside ha hinb).symm)
      · omega
      · omega

end Spans

/-! ### Between segments -/

/-- An offset that lies between two segments of a text. -/
def IsCut (t : Text) (i : Nat) : Prop := ∃ ss ss', segments t = ss ++ ss' ∧ i = size (raws ss)

theorem isCut_size (t : Text) : IsCut t t.size := ⟨segments t, [], by simp, by rw [raws_segments]⟩

theorem snap_cases (t : Text) (i : Nat) :
    (snap t i = i ∧ ∀ pre s post, segments t = pre ++ s :: post → s.isComment = true →
        ¬(size (raws pre) < i ∧ i < size (raws pre) + size s.raw)) ∨
      ∃ pre s post, segments t = pre ++ s :: post ∧ s.isComment = true ∧ size (raws pre) < i ∧
        i < size (raws pre) + size s.raw ∧
        ((onOwnLine t (size (raws pre)) = true ∧ snap t i = size (raws pre)) ∨
          (onOwnLine t (size (raws pre)) = false ∧ snap t i = size (raws pre) + size s.raw)) := by
  rcases snap_span_cases t i with ⟨hsnap, hout⟩ | ⟨⟨start, stop⟩, hs, hin, hsnap⟩
  · exact .inl ⟨hsnap, fun pre s post hss hs => hout _ (mem_commentsFrom.mpr ⟨pre, s, post, hss, hs, by simp, rfl⟩)⟩
  · obtain ⟨pre, s, post, hss, hcomment, hstart, hstop⟩ := mem_commentsFrom.mp hs
    rw [Nat.zero_add] at hstart
    subst hstart hstop
    exact .inr ⟨pre, s, post, hss, hcomment, hin.1, hin.2, hsnap⟩

/-- An offset inside a comment is moved to one of its ends. -/
theorem snap_inside {t : Text} {pre post : List Segment} {s : Segment} {i : Nat} (h : segments t = pre ++ s :: post)
    (hs : s.isComment = true) (hlow : size (raws pre) < i) (hhigh : i < size (raws pre) + size s.raw) :
    snap t i = if onOwnLine t (size (raws pre)) then size (raws pre) else size (raws pre) + size s.raw :=
  snap_of_inside (mem_commentsFrom.mpr ⟨pre, s, post, h, hs, by simp, rfl⟩) ⟨hlow, hhigh⟩

/-- Offsets between characters, comments blanked out or not, end up between segments. -/
theorem isCut_snap {t : Text} {i : Nat} (h : t.isBoundary i ∨ (masked t).isBoundary i) : IsCut t (snap t i) := by
  have hcases : (∃ pre post, segments t = pre ++ post ∧ i = size (raws pre)) ∨
      ∃ pre s post, segments t = pre ++ s :: post ∧ s.isComment = true ∧ size (raws pre) < i ∧
        i < size (raws pre) + size s.raw := by
    rcases h with h | h
    · rw [← segments_raw t] at h
      exact boundary_cases (fun _ => rfl) (fun _ => rfl) h
    · exact boundary_cases (fun _ => rfl) Segment.size_masked h
  rcases snap_cases t i with ⟨hsnap, hout⟩ | ⟨pre, s, post, hss, -, -, -, ⟨-, hsnap⟩ | ⟨-, hsnap⟩⟩
  · rw [hsnap]
    rcases hcases with ⟨pre, post, hss, hi⟩ | ⟨pre, s, post, hss, hs, hin⟩
    · exact ⟨pre, post, hss, hi⟩
    · exact absurd hin (hout pre s post hss hs)
  · exact ⟨pre, s :: post, hss, hsnap⟩
  · exact ⟨pre ++ [s], post, by simp [hss], by simp [hsnap]⟩

/-- A segment that begins ahead of a cut is one of those ahead of it. -/
theorem ahead_of_cut {t : Text} {ss ss' pre post : List Segment} {s : Segment} (h : segments t = ss ++ ss')
    (hs : segments t = pre ++ s :: post) (hlt : size (raws pre) < size (raws ss)) :
    ∃ m, ss = pre ++ s :: m ∧ post = m ++ ss' := by
  rcases List.append_eq_append_iff.mp (h.symm.trans hs) with ⟨m, rfl, -⟩ | ⟨m, rfl, hrest⟩
  · simp only [raws_append, size_append] at hlt
    omega
  · cases m with
    | nil => simp at hlt
    | cons x m =>
      obtain ⟨rfl, hpost⟩ := List.cons.inj hrest
      exact ⟨m, rfl, hpost⟩

/-- An offset between two segments stays where it is. -/
theorem snap_of_isCut {t : Text} {i : Nat} (h : IsCut t i) : snap t i = i := by
  obtain ⟨ss, ss', hss, rfl⟩ := h
  rcases snap_cases t (size (raws ss)) with ⟨hsnap, -⟩ | ⟨pre, s, post, hss', -, hlt, hgt, -⟩
  · exact hsnap
  · obtain ⟨m, rfl, -⟩ := ahead_of_cut hss hss' hlt
    simp only [raws_append, raws_cons, size_append] at hgt
    omega

/-! ### Main statement -/

/-- Moving offsets out of comments keeps their order and does nothing when it is done again. No offset is left strictly
inside a comment. An offset inside none stays, and one that is inside a comment goes to its start if the comment is the
first thing on its line, to its end otherwise. An offset between two characters of the text with its comments blanked
out goes to one between two characters of the text itself. -/
theorem snap_projects (t : Text) :
    (∀ i j, i ≤ j → snap t i ≤ snap t j) ∧ (∀ i, snap t (snap t i) = snap t i) ∧
      (∀ i, ∀ s ∈ comments t, ¬(s.1 < snap t i ∧ snap t i < s.2)) ∧
      (∀ i, (∀ s ∈ comments t, ¬(s.1 < i ∧ i < s.2)) → snap t i = i) ∧
      (∀ i, ∀ s ∈ comments t, s.1 < i ∧ i < s.2 → snap t i = if onOwnLine t s.1 then s.1 else s.2) ∧
      (∀ i, (masked t).isBoundary i = true → t.isBoundary (snap t i) = true) := by
  refine ⟨fun i j => snap_mono, fun i => ?_, fun i s => snap_not_inside i, fun i => snap_of_outside,
    fun i s hs => snap_of_inside hs, fun i hi => ?_⟩
  · exact snap_of_outside fun s => snap_not_inside i
  · obtain ⟨ss, ss', hss, hsnap⟩ := isCut_snap (.inr hi)
    rw [hsnap]
    exact isBoundary_cut hss

/-- A comment behind code, one on a line of its own, and a third right behind it. -/
def crowdedGap : Text := ['a', '/', '/', 'é', '\n', ' ', '/', '*', 'b', '*', '/', '/', '*', 'c', '*', '/']

/-- An offset that is inside a character of the first comment goes to the end of that comment. The second comment gives
way to its start and the third, which begins where the second one ends, to its end. -/
theorem crowdedGap_snapped :
    (masked crowdedGap).isBoundary 4 = true ∧ crowdedGap.isBoundary 4 = false ∧
      crowdedGap.isBoundary (snap crowdedGap 4) = true ∧ snap crowdedGap 4 = 5 ∧
      snap crowdedGap 8 = 7 ∧ snap crowdedGap 12 = 12 ∧ snap crowdedGap 13 = 17 ∧
      snap crowdedGap 8 ≤ snap crowdedGap 13 := by
  obtain ⟨hmono, -, -, hstay, hmove, hboundary⟩ := snap_projects crowdedGap
  have hcomments : comments crowdedGap = [(1, 5), (7, 12), (12, 17)] := by decide +kernel
  have hmasked : (masked crowdedGap).isBoundary 4 = true := by decide +kernel
  have hfirst : (1, 5) ∈ comments crowdedGap := by rw [hcomments]; decide
  have hsecond : (7, 12) ∈ comments crowdedGap := by rw [hcomments]; decide
  have hthird : (12, 17) ∈ comments crowdedGap := by rw [hcomments]; decide
  refine ⟨hmasked, by decide, hboundary 4 hmasked, hmove 4 _ hfirst (by decide), hmove 8 _ hsecond (by decide),
    hstay 12 ?_, hmove 13 _ hthird (by decide), hmono 8 13 (by decide)⟩
  rw [hcomments]
  decide

end Reprint.Gap
