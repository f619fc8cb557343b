import Reprint.Proofs.Punctuation
/-!
What is on the two sides of a divided gap. A gap is divided between two characters and inside no comment. The left side
is what stands ahead, without its last character of code if that is a comma; the right side is what stands behind,
without its first character of code if that is a comma. Blanks do not count as code. So every comment is whole on one of
the sides.
-/

namespace Reprint

namespace Gap
open Text

/-! ### Commas next to a cut -/

section Commas
variable {t : Text} {ss ss' : List Segment}

/-- The last code of some segments is a comma, blanks apart. -/
def EndsInComma (ss : List Segment) (s s' : List Segment) : Prop :=
  ss = s ++ .code ',' :: s' ∧ Text.allBlank (masks s') = true

/-- The first code of some segments is a comma, blanks apart. -/
def BeginsWithComma (ss : List Segment) (s s' : List Segment) : Prop :=
  ss = s ++ .code ',' :: s' ∧ Text.allBlank (masks s) = true

theorem masks_append (s s' : List Segment) : masks (s ++ s') = masks s ++ masks s' := List.flatMap_append

theorem EndsInComma.trimEnd {s s' : List Segment} (h : EndsInComma ss s s') :
    (masks ss).trimEnd = masks s ++ [','] := by
  obtain ⟨rfl, hblank⟩ := h
  rw [masks_append]
  exact trimEnd_append hblank rfl

theorem exists_endsInComma (h : (masks ss).trimEnd.getLast? = some ',') : ∃ s s', EndsInComma ss s s' := by
  obtain ⟨a, ha⟩ := List.getLast?_eq_some_iff.mp h
  have hmasks : masks ss = a ++ ',' :: (masks ss).trailingBlanks := by
    rw [List.append_cons, ← ha, trimEnd_append_trailingBlanks]
  obtain ⟨s, s', hss, -, hs'⟩ := masks_split rfl hmasks
  exact ⟨s, s', hss, by rw [hs']; exact allBlank_trailingBlanks _⟩

theorem BeginsWithComma.trimStart {s s' : List Segment} (h : BeginsWithComma ss s s') :
    (masks ss).trimStart = ',' :: masks s' ∧ (masks ss).leadingBlanks = masks s := by
  obtain ⟨rfl, hblank⟩ := h
  rw [masks_append]
  exact trimStart_append hblank rfl

theorem exists_beginsWithComma (h : (masks ss).trimStart.head? = some ',') : ∃ s s', BeginsWithComma ss s s' := by
  obtain ⟨b, hb⟩ := List.head?_eq_some_iff.mp h
  have hmasks : masks ss = (masks ss).leadingBlanks ++ ',' :: b := by
    rw [← hb, leadingBlanks_append_trimStart]
  obtain ⟨s, s', hss, hs, -⟩ := masks_split rfl hmasks
  exact ⟨s, s', hss, by rw [hs]; exact allBlank_leadingBlanks _⟩

theorem removeAt_comma (s s' : List Segment) :
    removeAt (raws (s ++ .code ',' :: s')) (size (raws s)) = raws (s ++ s') := by
  rw [raws_append, raws_cons, raws_append]
  exact removeAt_append (raws s) (raws s') rfl

theorem leftOf_cut (h : segments t = ss ++ ss') :
    (∃ s s', EndsInComma ss s s' ∧ leftOf t (size (raws ss)) = raws (s ++ s')) ∨
      ((∀ s s', ¬EndsInComma ss s s') ∧ leftOf t (size (raws ss)) = raws ss) := by
  rw [leftOf, masked_before_cut h, before_cut h]
  split
  · next hlast =>
    obtain ⟨s, s', hcomma⟩ := exists_endsInComma hlast
    refine .inl ⟨s, s', hcomma, ?_⟩
    rw [hcomma.trimEnd, size_append, size_masks, hcomma.1]
    exact removeAt_comma s s'
  · next hlast =>
    refine .inr ⟨fun s s' hcomma => hlast ?_, rfl⟩
    rw [hcomma.trimEnd, List.getLast?_concat]

theorem rightOf_cut (h : segments t = ss ++ ss') :
    (∃ s s', BeginsWithComma ss' s s' ∧ rightOf t (size (raws ss)) = raws (s ++ s')) ∨
      ((∀ s s', ¬BeginsWithComma ss' s s') ∧ rightOf t (size (raws ss)) = raws ss') := by
  rw [rightOf, masked_after_cut h, after_cut h]
  split
  · next hhead =>
    obtain ⟨s, s', hcomma⟩ := exists_beginsWithComma hhead
    refine .inl ⟨s, s', hcomma, ?_⟩
    rw [hcomma.trimStart.2, size_masks, hcomma.1]
    exact removeAt_comma s s'
  · next hhead =>
    refine .inr ⟨fun s s' hcomma => hhead ?_, rfl⟩
    rw [hcomma.trimStart.1, List.head?_cons]

end Commas

/-! ### Characters outside comments -/

/-- A character that is not blank stands at an offset, outside of comments. -/
structure CodeAt (t : Text) (i : Nat) (c : Char) : Prop where
  stands : ∃ a b, t = a ++ c :: b ∧ size a = i
  outside : ∀ start stop, (start, stop) ∈ comments t → ¬(start ≤ i ∧ i < stop)
  solid : isBlank c = false

section Code
variable {t : Text} {i k : Nat} {c : Char} {ss ss' pre post : List Segment}

theorem codeAt_iff : CodeAt t i c ↔
    ∃ pre post, segments t = pre ++ .code c :: post ∧ i = size (raws pre) ∧ isBlank c = false := by
  constructor
  · rintro ⟨⟨a, b, htext, rfl⟩, houtside, hsolid⟩
    have hcomment : ∀ pre s post, segments t = pre ++ s :: post → s.isComment = true →
        ¬(size (raws pre) ≤ size a ∧ size a < size (raws pre) + size s.raw) := fun pre s post hss hs =>
      houtside _ _ (mem_commentsFrom.mpr ⟨pre, s, post, hss, hs, (Nat.zero_add _).symm, rfl⟩)
    rcases segments_cut_cases htext with ⟨pre, post, hss, hi, hrest⟩ | ⟨pre, s, post, hss, hs, hlow, hhigh⟩
    · cases post with
      | nil => cases hrest
      | cons s post =>
        rcases Bool.eq_false_or_eq_true s.isComment with hs | hs
        · have hpos : 0 < size s.raw := size_raw_pos (by rw [hss]; simp)
          exact absurd ⟨by omega, by omega⟩ (hcomment pre s post hss hs)
        · cases s with
          | code d =>
            obtain ⟨rfl, -⟩ := List.cons.inj hrest
            exact ⟨pre, post, hss, hi, hsolid⟩
          | line l => cases hs
          | block l => cases hs
    · exact absurd ⟨Nat.le_of_lt hlow, hhigh⟩ (hcomment pre s post hss hs)
  · rintro ⟨pre, post, hss, rfl, hsolid⟩
    refine ⟨⟨raws pre, raws post, (segments_raws_right hss).2, rfl⟩, fun start stop hmem hin => ?_, hsolid⟩
    obtain ⟨pre', s, post', hss', hs, rfl, rfl⟩ := mem_commentsFrom.mp hmem
    rcases append_cons_cases (hss.symm.trans hss') with ⟨-, rfl, -⟩ | ⟨m, rfl, -⟩ | ⟨m, rfl, -⟩
    · cases hs
    · have := c.utf8Size_pos
      simp only [raws_append, raws_cons, size_append, Segment.raw, size_cons] at hin
      omega
    · simp only [raws_append, raws_cons, size_append] at hin
      omega

/-- A segment that begins at a cut or behind it is one of those behind it. -/
theorem behind_cut {s : Segment} (h : segments t = ss ++ ss') (hs : segments t = pre ++ s :: post)
    (hle : size (raws ss) ≤ size (raws pre)) : ∃ m, pre = ss ++ m ∧ ss' = m ++ s :: post := by
  rcases List.append_eq_append_iff.mp (h.symm.trans hs) with ⟨m, hpre, hrest⟩ | ⟨m, rfl, hrest⟩
  · exact ⟨m, hpre, hrest⟩
  · cases m with
    | nil => exact ⟨[], by simp, hrest.symm⟩
    | cons x m =>
      have hpos : 0 < size x.raw := size_raw_pos (by rw [h]; simp)
      simp only [raws_append, raws_cons, size_append] at hle
      omega

/-- The last code ahead of an offset. -/
def LastCode (t : Text) (k i : Nat) (c : Char) : Prop :=
  CodeAt t i c ∧ i < k ∧ ∀ j d, CodeAt t j d → j < k → j ≤ i

/-- The first code behind an offset. -/
def FirstCode (t : Text) (k i : Nat) (c : Char) : Prop :=
  CodeAt t i c ∧ k ≤ i ∧ ∀ j d, CodeAt t j d → k ≤ j → i ≤ j

theorem allBlank_of_no_code (h : ∀ s d s', ss = s ++ .code d :: s' → isBlank d = true) :
    Text.allBlank (masks ss) = true := by
  refine List.all_eq_true.mpr fun d hd => ?_
  cases hblank : isBlank d with
  | true => rfl
  | false =>
    obtain ⟨a, b, hmasks⟩ := List.append_of_mem hd
    obtain ⟨s, s', hss, -⟩ := masks_split hblank hmasks
    rw [h s d s' hss] at hblank
    cases hblank

theorem isBlank_of_allBlank {s s' : List Segment} {d : Char} (h : Text.allBlank (masks (s ++ .code d :: s')) = true) :
    isBlank d = true := by
  rw [masks_append] at h
  exact List.all_eq_true.mp (allBlank_append.mp h).2 d (List.mem_cons_self ..)

theorem lastComma_iff (h : segments t = ss ++ ss') : LastCode t (size (raws ss)) i ',' ↔
    ∃ s s', EndsInComma ss s s' ∧ i = size (raws s) := by
  constructor
  · rintro ⟨hcode, hlt, hlast⟩
    obtain ⟨s, post, hs, rfl, -⟩ := codeAt_iff.mp hcode
    obtain ⟨s', rfl, -⟩ := ahead_of_cut h hs hlt
    refine ⟨s, s', ⟨rfl, allBlank_of_no_code fun x d y hs' => ?_⟩, rfl⟩
    cases hd : isBlank d with
    | true => rfl
    | false =>
      -- Code behind the comma would be later code ahead of the cut.
      subst hs'
      have hdecode : CodeAt t (size (raws (s ++ .code ',' :: x))) d :=
        codeAt_iff.mpr ⟨_, y ++ ss', by rw [h]; simp, rfl, hd⟩
      have hpos := d.utf8Size_pos
      have hle := hlast _ d hdecode (by simp [Segment.raw]; omega)
      simp only [raws_append, raws_cons, size_append, Segment.raw, size_cons] at hle
      have hcomma : ','.utf8Size = 1 := rfl
      omega
  · rintro ⟨s, s', ⟨rfl, hblank⟩, rfl⟩
    have hs : segments t = s ++ .code ',' :: (s' ++ ss') := by rw [h]; simp
    have hcomma := ','.utf8Size_pos
    refine ⟨codeAt_iff.mpr ⟨s, _, hs, rfl, rfl⟩, by simp [Segment.raw]; omega, fun j d hdecode hlt => ?_⟩
    obtain ⟨pre, post, hd, rfl, hsolid⟩ := codeAt_iff.mp hdecode
    rcases append_cons_cases (hs.symm.trans hd) with ⟨rfl, -, -⟩ | ⟨m, rfl, -⟩ | ⟨m, rfl, -⟩
    · exact Nat.le_refl _
    · obtain ⟨m', hm', -⟩ := ahead_of_cut h hd hlt
      rw [List.append_assoc, List.append_cancel_left_eq, List.cons_append, List.cons.injEq] at hm'
      rw [hm'.2] at hblank
      rw [isBlank_of_allBlank hblank] at hsolid
      cases hsolid
    · simp

theorem firstComma_iff (h : segments t = ss ++ ss') : FirstCode t (size (raws ss)) i ',' ↔
    ∃ s s', BeginsWithComma ss' s s' ∧ i = size (raws ss) + size (raws s) := by
  constructor
  · rintro ⟨hcode, hle, hfirst⟩
    obtain ⟨pre, s', hs, rfl, -⟩ := codeAt_iff.mp hcode
    obtain ⟨s, rfl, rfl⟩ := behind_cut h hs hle
    refine ⟨s, s', ⟨rfl, allBlank_of_no_code fun x d y hs' => ?_⟩, by simp⟩
    cases hd : isBlank d with
    | true => rfl
    | false =>
      subst hs'
      have hdecode : CodeAt t (size (raws (ss ++ x))) d := codeAt_iff.mpr ⟨_, _, by rw [h]; simp; rfl, rfl, hd⟩
      have hpos := d.utf8Size_pos
      have hle := hfirst _ d hdecode (by simp)
      simp only [raws_append, raws_cons, size_append, Segment.raw, size_cons] at hle
      omega
  · rintro ⟨s, s', ⟨rfl, hblank⟩, rfl⟩
    have hs : segments t = (ss ++ s) ++ .code ',' :: s' := by rw [h]; simp
    refine ⟨codeAt_iff.mpr ⟨ss ++ s, s', hs, by simp, rfl⟩, by simp, fun j d hdecode hle => ?_⟩
    obtain ⟨pre, post, hd, rfl, hsolid⟩ := codeAt_iff.mp hdecode
    rcases append_cons_cases (hs.symm.trans hd) with ⟨rfl, -, -⟩ | ⟨m, rfl, -⟩ | ⟨m, hm, -⟩
    · simp
    · simp only [raws_append, size_append]
      omega
    · obtain ⟨m', rfl, -⟩ := behind_cut h hd hle
      rw [List.append_assoc, List.append_cancel_left_eq] at hm
      rw [hm] at hblank
      rw [isBlank_of_allBlank hblank] at hsolid
      cases hsolid

/-! ### Both sides -/

/-- What stands ahead of an offset, without its last code if that is a comma. -/
def LeftSide (t : Text) (k : Nat) (left : Text) : Prop :=
  (∃ i x y, LastCode t k i ',' ∧ t.slice? 0 i = some x ∧ t.slice? (i + 1) k = some y ∧ left = x ++ y) ∨
    ((∀ i, ¬LastCode t k i ',') ∧ t.slice? 0 k = some left)

/-- What stands behind an offset, without its first code if that is a comma. -/
def RightSide (t : Text) (k : Nat) (right : Text) : Prop :=
  (∃ i x y, FirstCode t k i ',' ∧ t.slice? k i = some x ∧ t.slice? (i + 1) t.size = some y ∧ right = x ++ y) ∨
    ((∀ i, ¬FirstCode t k i ',') ∧ t.slice? k t.size = some right)

/-- A gap is divided at an offset into two sides. -/
structure Parted (t : Text) (k : Nat) (sides : Text × Text) : Prop where
  boundary : t.isBoundary k
  outside : ∀ start stop, (start, stop) ∈ comments t → ¬(start < k ∧ k < stop)
  left : LeftSide t k sides.1
  right : RightSide t k sides.2
  /-- Every comment is whole on one side. -/
  whole : ∀ start stop, (start, stop) ∈ comments t → ∃ x, t.slice? start stop = some x ∧
    ((stop ≤ k ∧ x <:+: sides.1) ∨ (k ≤ start ∧ x <:+: sides.2))

theorem slice?_segments {a m b : List Segment} {start stop : Nat} (h : segments t = a ++ (m ++ b))
    (hstart : start = size (raws a)) (hstop : stop = size (raws (a ++ m))) : t.slice? start stop = some (raws m) := by
  have htext : t = raws a ++ raws m ++ raws b := by
    rw [(segments_raws_right h).2, raws_append, List.append_assoc]
  rw [hstart, hstop, raws_append, htext]
  exact slice?_append ..

theorem leftSide_leftOf (h : segments t = ss ++ ss') : LeftSide t (size (raws ss)) (leftOf t (size (raws ss))) := by
  rcases leftOf_cut h with ⟨s, s', hcomma, hleft⟩ | ⟨hnone, hleft⟩
  · have hlast := (lastComma_iff h).mpr ⟨s, s', hcomma, rfl⟩
    obtain ⟨rfl, -⟩ := hcomma
    refine .inl ⟨size (raws s), raws s, raws s', hlast, ?_, ?_, by rw [hleft, raws_append]⟩
    · exact slice?_segments (a := []) (b := .code ',' :: (s' ++ ss')) (by rw [h]; simp) rfl rfl
    · refine slice?_segments (a := s ++ [.code ',']) (b := ss') (by rw [h]; simp) ?_ (by simp)
      rw [raws_append, size_append]
      rfl
  · refine .inr ⟨fun i hlast => ?_, ?_⟩
    · obtain ⟨s, s', hcomma, -⟩ := (lastComma_iff h).mp hlast
      exact hnone s s' hcomma
    · rw [hleft]
      exact slice?_segments (a := []) h rfl rfl

theorem rightSide_rightOf (h : segments t = ss ++ ss') : RightSide t (size (raws ss)) (rightOf t (size (raws ss))) := by
  have hsize : t.size = size (raws (ss ++ ss')) := by rw [← h, raws_segments]
  rcases rightOf_cut h with ⟨s, s', hcomma, hright⟩ | ⟨hnone, hright⟩
  · have hfirst := (firstComma_iff h).mpr ⟨s, s', hcomma, rfl⟩
    obtain ⟨rfl, -⟩ := hcomma
    refine .inl ⟨_, raws s, raws s', hfirst, ?_, ?_, by rw [hright, raws_append]⟩
    · exact slice?_segments h rfl (by rw [raws_append, size_append])
    · refine slice?_segments (a := ss ++ s ++ [.code ',']) (b := []) (by rw [h]; simp) ?_ (by rw [hsize]; simp)
      rw [raws_append, raws_append, size_append, size_append]
      rfl
  · refine .inr ⟨fun i hfirst => ?_, ?_⟩
    · obtain ⟨s, s', hcomma, -⟩ := (firstComma_iff h).mp hfirst
      exact hnone s s' hcomma
    · rw [hright]
      exact slice?_segments (b := []) (by rw [h]; simp) rfl hsize

theorem raw_infix {s : Segment} (hs : s ∈ ss) : s.raw <:+: raws ss := by
  obtain ⟨pre, post, rfl⟩ := List.append_of_mem hs
  exact ⟨raws pre, raws post, by simp⟩

/-- Only code can be missing from the sides. -/
theorem mem_of_comment {s : Segment} {a b : List Segment} (hs : s.isComment = true) (hmem : s ∈ a ++ .code c :: b) :
    s ∈ a ++ b := by
  rcases List.mem_append.mp hmem with hmem | hmem
  · exact List.mem_append_left _ hmem
  · rcases List.mem_cons.mp hmem with rfl | hmem
    · cases hs
    · exact List.mem_append_right _ hmem

theorem raw_infix_leftOf {s : Segment} (h : segments t = ss ++ ss') (hs : s.isComment = true) (hmem : s ∈ ss) :
    s.raw <:+: leftOf t (size (raws ss)) := by
  rcases leftOf_cut h with ⟨a, b, ⟨rfl, -⟩, hleft⟩ | ⟨-, hleft⟩ <;> rw [hleft]
  · exact raw_infix (mem_of_comment hs hmem)
  · exact raw_infix hmem

theorem raw_infix_rightOf {s : Segment} (h : segments t = ss ++ ss') (hs : s.isComment = true) (hmem : s ∈ ss') :
    s.raw <:+: rightOf t (size (raws ss)) := by
  rcases rightOf_cut h with ⟨a, b, ⟨rfl, -⟩, hright⟩ | ⟨-, hright⟩ <;> rw [hright]
  · exact raw_infix (mem_of_comment hs hmem)
  · exact raw_infix hmem

theorem IsCut.parted (h : IsCut t k) : Parted t k (divide t k) := by
  obtain ⟨ss, ss', hss, rfl⟩ := h
  -- A comment begins ahead of the cut and ends there too, or it begins behind it.
  have hcomment : ∀ start stop, (start, stop) ∈ comments t → ∃ x, t.slice? start stop = some x ∧
      ((stop ≤ size (raws ss) ∧ x <:+: leftOf t (size (raws ss))) ∨
        (size (raws ss) ≤ start ∧ x <:+: rightOf t (size (raws ss)))) := by
    intro start stop hmem
    obtain ⟨pre, s, post, hs, hcomment, rfl, rfl⟩ := mem_commentsFrom.mp hmem
    rw [Nat.zero_add] at hmem ⊢
    have hslice : t.slice? (size (raws pre)) (size (raws pre) + size s.raw) = some (raws [s]) :=
      slice?_segments hs rfl (by simp)
    refine ⟨s.raw, by simpa using hslice, ?_⟩
    by_cases hlt : size (raws pre) < size (raws ss)
    · obtain ⟨m, rfl, -⟩ := ahead_of_cut hss hs hlt
      refine .inl ⟨?_, raw_infix_leftOf hss hcomment (by simp)⟩
      simp only [raws_append, raws_cons, size_append]
      omega
    · obtain ⟨m, rfl, rfl⟩ := behind_cut hss hs (Nat.le_of_not_lt hlt)
      exact .inr ⟨Nat.le_of_not_lt hlt, raw_infix_rightOf hss hcomment (by simp)⟩
  refine ⟨isBoundary_cut hss, fun start stop hmem => ?_, leftSide_leftOf hss, rightSide_rightOf hss, hcomment⟩
  obtain ⟨x, -, ⟨hstop, -⟩ | ⟨hstart, -⟩⟩ := hcomment start stop hmem <;> omega

end Code

end Gap

end Reprint
