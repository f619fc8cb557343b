import Reprint.Proofs.Marks
import Reprint.Proofs.Snapping
/-!
Where gaps are divided. Whatever mark or rule decides, the place is moved out of comments, and so a gap is always
divided between two of its segments. A comma next to the division is dropped; where it is the only code of the gap,
nothing but blanks and comments is left on either side.
-/

namespace Reprint

namespace Gap
open Text

/-! ### Places between siblings and behind the last one -/

theorem isBoundary_lineBreakAt {t : Text} {n : Nat} (h : t.isBoundary n) : t.isBoundary (lineBreakAt t n) := by
  obtain ⟨a, b, rfl, rfl⟩ := isBoundary_iff.mp h
  rw [lineBreakAt, before_append_size]
  split
  · obtain ⟨a', rfl⟩ := List.getLast?_eq_some_iff.mp ‹_›
    refine isBoundary_iff.mpr ⟨a', '\r' :: b, by simp, ?_⟩
    rw [size_append]
    exact (Nat.add_sub_cancel ..).symm
  · exact isBoundary_append_size a b

theorem lineBreakAt_le (t : Text) (n : Nat) : lineBreakAt t n ≤ n := by
  unfold lineBreakAt
  split <;> omega

theorem isCut_indexBetween (t : Text) (j : Junction) : IsCut t (indexBetween t j) := by
  unfold indexBetween
  refine isCut_snap ?_
  split
  · exact .inr (Junction.between_index? ‹_›).isBoundary
  · split
    · exact (between_of_rule ‹_›).imp Between.isBoundary Between.isBoundary
    · exact .inl (isBoundary_size t)

/-! ### Dividing at a cut -/

/-- Some segments with their comments blanked out. -/
def masks (ss : List Segment) : Text := ss.flatMap Segment.masked

theorem size_masks (ss : List Segment) : size (masks ss) = size (raws ss) := by
  induction ss with
  | nil => rfl
  | cons s ss ih =>
    show size (s.masked ++ masks ss) = size (s.raw ++ raws ss)
    rw [size_append, size_append, ih, s.size_masked]

theorem size_masked (t : Text) : size (masked t) = size t :=
  (size_masks _).trans (congrArg size (raws_segments t))

/-- The gap before the first child is divided behind code, behind everything, or ahead of everything. -/
theorem indexLeading_cases (parent : Node) (t : Text) : ∃ a b, masked t = a ++ b ∧
    indexLeading parent t = snap t (size a) ∧ (b = [] ∨ ∀ c, a.getLast? = some c → isBlank c = false) := by
  unfold indexLeading
  split
  · exact ⟨masked t, [], (List.append_nil _).symm, by rw [size_masked], .inl rfl⟩
  · split
    · next i hbrace =>
      obtain ⟨n, hn, rfl⟩ := Option.map_eq_some_iff.mp hbrace
      obtain ⟨a, c, b, hmask, rfl, hc, -⟩ := find?_eq_some hn
      obtain rfl := beq_iff_eq.mp hc
      refine ⟨a ++ ['{'], b, by rw [hmask]; simp, by rw [size_append]; rfl, .inr fun c hlast => ?_⟩
      rw [List.getLast?_concat] at hlast
      cases hlast
      rfl
    · unfold afterCode?
      dsimp only
      split
      · exact ⟨[], masked t, rfl, rfl, .inr nofun⟩
      · exact ⟨_, _, (trimEnd_append_trailingBlanks _).symm, rfl, .inr fun _ => isBlank_of_getLast?_trimEnd⟩

theorem isCut_indexLeading (parent : Node) (t : Text) : IsCut t (indexLeading parent t) := by
  obtain ⟨a, b, hmask, hindex, -⟩ := indexLeading_cases parent t
  rw [hindex]
  exact isCut_snap (.inr (isBoundary_iff.mpr ⟨a, b, hmask, rfl⟩))

/-- The first code stands behind the blanks that a gap begins with. -/
theorem firstCode_eq (t : Text) : (firstCode? t).getD t.size = size (masked t).leadingBlanks := by
  have hblank : ∀ d ∈ (masked t).leadingBlanks, (!isBlank d) = false := fun d hd => by
    rw [List.all_eq_true.mp (allBlank_leadingBlanks _) d hd]
    rfl
  have hsplit := leadingBlanks_append_trimStart (masked t)
  rw [firstCode?, ← size_masked]
  cases htrim : (masked t).trimStart with
  | nil =>
    rw [htrim, List.append_nil] at hsplit
    rw [hsplit] at hblank ⊢
    rw [find?_absent hblank, Option.getD_none]
  | cons c b =>
    have hc : isBlank c = false := isBlank_of_head?_trimStart (by rw [htrim]; rfl)
    rw [htrim] at hsplit
    have hfind := find?_append_cons (p := (!isBlank ·)) (b := b) hblank (c := c) (by simp [hc])
    rw [hsplit] at hfind
    rw [hfind, Option.getD_some]

theorem isBoundary_firstCode (t : Text) : (masked t).isBoundary ((firstCode? t).getD t.size) := by
  rw [firstCode_eq]
  exact isBoundary_iff.mpr ⟨_, _, (leadingBlanks_append_trimStart _).symm, rfl⟩

/-- The gap behind the last child is divided at the last line feed ahead of code, or else behind the blanks that it
begins with. -/
theorem indexTrailing_cases (t : Text) :
    (∃ a b, (masked t).leadingBlanks = a ++ '\n' :: b ∧ findLast? (· == '\n') (masked t).leadingBlanks = some (size a) ∧
        indexTrailing t = snap t (lineBreakAt (masked t) (size a))) ∨
      (findLast? (· == '\n') (masked t).leadingBlanks = none ∧
        indexTrailing t = snap t (size (masked t).leadingBlanks)) := by
  have hbefore : (masked t).before (size (masked t).leadingBlanks) = (masked t).leadingBlanks := by
    have := before_append_size (masked t).leadingBlanks (masked t).trimStart
    rwa [leadingBlanks_append_trimStart] at this
  unfold indexTrailing
  dsimp only
  rw [firstCode_eq, hbefore]
  cases hlast : findLast? (· == '\n') (masked t).leadingBlanks with
  | some n =>
    obtain ⟨a, c, b, hblanks, rfl, hc, -⟩ := findLast?_eq_some hlast
    obtain rfl := beq_iff_eq.mp hc
    exact .inl ⟨a, b, hblanks, rfl, rfl⟩
  | none => exact .inr ⟨rfl, rfl⟩

/-- The gap behind the last child is divided ahead of code. -/
theorem indexTrailing_le (t : Text) :
    ∃ i, i ≤ size (masked t).leadingBlanks ∧ (masked t).isBoundary i ∧ indexTrailing t = snap t i := by
  have hsplit := (leadingBlanks_append_trimStart (masked t)).symm
  rcases indexTrailing_cases t with ⟨a, b, hblanks, -, hindex⟩ | ⟨-, hindex⟩
  · refine ⟨_, Nat.le_trans (lineBreakAt_le ..) ?_, isBoundary_lineBreakAt ?_, hindex⟩
    · rw [hblanks, size_append]
      omega
    · refine isBoundary_iff.mpr ⟨a, '\n' :: b ++ (masked t).trimStart, ?_, rfl⟩
      rw [← List.append_assoc, ← hblanks, ← hsplit]
  · exact ⟨_, Nat.le_refl _, isBoundary_iff.mpr ⟨_, _, hsplit, rfl⟩, hindex⟩

theorem isCut_indexTrailing (t : Text) : IsCut t (indexTrailing t) := by
  obtain ⟨i, -, hboundary, hindex⟩ := indexTrailing_le t
  rw [hindex]
  exact isCut_snap (.inr hboundary)

section Cut
variable {t : Text} {ss ss' : List Segment}

theorem before_cut (h : segments t = ss ++ ss') : t.before (size (raws ss)) = raws ss := by
  rw [(segments_raws_right h).2, before_append_size]

theorem after_cut (h : segments t = ss ++ ss') : t.after (size (raws ss)) = raws ss' := by
  rw [(segments_raws_right h).2, after_append_size]

/-- What stands ahead of a place in a text is made of whole segments, unless the place lies within a comment. -/
theorem segments_cut_cases {a b : Text} (htext : t = a ++ b) :
    (∃ pre post, segments t = pre ++ post ∧ size a = size (raws pre) ∧ raws post = b) ∨
      ∃ pre s post, segments t = pre ++ s :: post ∧ s.isComment = true ∧ size (raws pre) < size a ∧
        size a < size (raws pre) + size s.raw := by
  have hboundary : isBoundary (raws (segments t)) (size a) := by
    rw [raws_segments, htext]
    exact isBoundary_append_size a b
  rcases boundary_cases (fun _ => rfl) (fun _ => rfl) hboundary with ⟨pre, post, hss, hi⟩ | hinside
  · exact .inl ⟨pre, post, hss, hi, by rw [← after_cut hss, ← hi, htext, after_append_size]⟩
  · exact .inr hinside

theorem masked_cut (h : segments t = ss ++ ss') : masked t = masks ss ++ masks ss' := by
  rw [masked, h, List.flatMap_append]
  rfl

theorem masked_before_cut (h : segments t = ss ++ ss') : (masked t).before (size (raws ss)) = masks ss := by
  rw [masked_cut h, ← size_masks, before_append_size]

theorem masked_after_cut (h : segments t = ss ++ ss') : (masked t).after (size (raws ss)) = masks ss' := by
  rw [masked_cut h, ← size_masks, after_append_size]

end Cut

/-- Blanked out, a comment to the end of the line is nothing but spaces. -/
theorem flatMap_blankOut {l : Text} (h : '\n' ∉ l) : l.flatMap Segment.blankOut = List.replicate (size l) ' ' := by
  induction l with
  | nil => rfl
  | cons c l ih =>
    obtain ⟨hc, hl⟩ := not_or.mp (mt List.mem_cons.mpr h)
    rw [List.flatMap_cons, ih hl, Segment.blankOut, if_neg (Ne.symm hc), List.replicate_append_replicate, size_cons]

theorem not_mem_line {t l : Text} {pre post : List Segment} (h : segments t = pre ++ .line l :: post) :
    '\n' ∉ l := fun hmem => by
  obtain ⟨u, rfl, hu⟩ := raw_of_segments_eq_cons (segments_raws_right h).1
  have hmem : '\n' ∈ u := by simpa using hmem
  exact absurd (hu _ hmem) (by decide)

/-- Spaces are all that is left around an offset inside a comment to the end of the line. -/
theorem around_line {t a b l : Text} {pre post : List Segment} (h : segments t = pre ++ .line l :: post)
    (hmask : masked t = a ++ b) (hlow : size (raws pre) < size a) (hhigh : size a ≤ size (raws pre) + size l) :
    ∃ n, a.getLast? = some ' ' ∧ b = List.replicate n ' ' ++ masks post ∧ size a + n = size (raws pre) + size l := by
  have hline : masked t = masks pre ++ (List.replicate (size l) ' ' ++ masks post) := by
    rw [masked_cut h, ← flatMap_blankOut (not_mem_line h)]
    rfl
  obtain ⟨p, hp⟩ := Nat.exists_eq_add_of_lt hlow
  obtain ⟨n, hn⟩ := Nat.exists_eq_add_of_le (m := p + 1) (n := size l) (by omega)
  have hspaces : List.replicate (size l) ' ' = List.replicate (p + 1) ' ' ++ List.replicate n ' ' := by
    rw [hn, List.replicate_append_replicate]
  have hsize : size a = size (masks pre ++ List.replicate (p + 1) ' ') := by
    rw [size_append, size_masks, size_spaces, hp, Nat.add_assoc]
  obtain ⟨rfl, rfl⟩ := append_eq_append_of_size_eq (d := List.replicate n ' ' ++ masks post)
    (by rw [← hmask, hline, hspaces]; simp only [List.append_assoc]) hsize
  exact ⟨n, by rw [List.replicate_succ', ← List.append_assoc, List.getLast?_concat], rfl, by omega⟩

/-- Of a blanked out comment only spaces and line feeds are left. -/
theorem Segment.mem_masked {s : Segment} {c : Char} (h : s.isComment = true) (hc : c ∈ s.masked) :
    c = ' ' ∨ c = '\n' := by
  have hcomment : ∀ t : Text, c ∈ t.flatMap blankOut → c = ' ' ∨ c = '\n' := by
    intro t hc
    obtain ⟨d, -, hc⟩ := List.mem_flatMap.mp hc
    unfold blankOut at hc
    split at hc
    · exact .inr (List.mem_singleton.mp hc)
    · exact .inl (List.mem_replicate.mp hc).2
  cases s with
  | code c => cases h
  | line t => exact hcomment t hc
  | block t => exact hcomment t hc

/-- A character that no comment leaves behind is a segment of its own. -/
theorem masks_split_code {ss : List Segment} {a b : Text} {c : Char} (hspace : c ≠ ' ') (hfeed : c ≠ '\n')
    (h : masks ss = a ++ c :: b) : ∃ s s', ss = s ++ .code c :: s' ∧ masks s = a ∧ masks s' = b := by
  induction ss generalizing a with
  | nil =>
    have := congrArg List.length h
    simp [masks] at this
  | cons x ss ih =>
    have h : x.masked ++ masks ss = a ++ c :: b := h
    -- The first segment ends before the character in question, or it is that character.
    have hfirst : ∀ m, a = x.masked ++ m → masks ss = m ++ c :: b →
        ∃ s s', x :: ss = s ++ .code c :: s' ∧ masks s = a ∧ masks s' = b := by
      rintro m rfl hm
      obtain ⟨s, s', rfl, rfl, rfl⟩ := ih hm
      exact ⟨x :: s, s', rfl, rfl, rfl⟩
    rcases List.append_eq_append_iff.mp h with ⟨m, hm, hrest⟩ | ⟨m, hm, hrest⟩
    · exact hfirst m hm hrest
    · rcases m with _ | ⟨d, m⟩
      · exact hfirst [] (by simpa using hm.symm) hrest.symm
      · obtain ⟨rfl, rfl⟩ := List.cons.inj hrest
        have hmem : c ∈ x.masked := by rw [hm]; simp
        rcases Bool.eq_false_or_eq_true x.isComment with hx | hx
        · exact absurd (Segment.mem_masked hx hmem) (not_or.mpr ⟨hspace, hfeed⟩)
        · cases x with
          | code d =>
            obtain rfl := List.mem_singleton.mp hmem
            have hlen : [c].length = (a ++ c :: m).length := congrArg List.length hm
            rw [List.length_append, List.length_cons, List.length_cons, List.length_nil] at hlen
            obtain rfl : a = [] := List.length_eq_zero_iff.mp (by omega)
            obtain rfl : m = [] := List.length_eq_zero_iff.mp (by omega)
            exact ⟨[], ss, rfl, rfl, rfl⟩
          | line l => cases hx
          | block l => cases hx

/-- A character that is not blank is a segment of its own. -/
theorem masks_split {ss : List Segment} {a b : Text} {c : Char} (hc : isBlank c = false) (h : masks ss = a ++ c :: b) :
    ∃ s s', ss = s ++ .code c :: s' ∧ masks s = a ∧ masks s' = b := by
  refine masks_split_code ?_ ?_ h <;> rintro rfl <;> cases hc

/-! ### Blanks and comments -/

/-- A blank or a comment. -/
def Segment.Pads : Segment → Prop
  | code c => isBlank c = true
  | line t | block t => t.head? = some '/'

/-- A text of blanks and comments. -/
def Padding (t : Text) : Prop := ∃ ss, t = raws ss ∧ ∀ s ∈ ss, s.Pads

theorem pads_of_blank {t : Text} {ss : List Segment} (hmem : ∀ s ∈ ss, s ∈ segments t)
    (hblank : Text.allBlank (masks ss) = true) : ∀ s ∈ ss, s.Pads := by
  intro s hs
  cases s with
  | code c => exact List.all_eq_true.mp hblank c (List.mem_flatMap.mpr ⟨_, hs, List.mem_singleton_self c⟩)
  | line l => exact head?_raw_of_comment (hmem _ hs) rfl
  | block l => exact head?_raw_of_comment (hmem _ hs) rfl

/-- The first thing behind some padding is what follows it, or a comment. -/
theorem Padding.trimStart {t x : Text} {c : Char} (h : Padding t) (hc : isBlank c = false) :
    ∃ d r, Text.trimStart (t ++ c :: x) = d :: r ∧ (d = '/' ∨ d = c) := by
  obtain ⟨ss, rfl, hpads⟩ := h
  induction ss with
  | nil => exact ⟨c, x, by simp [Text.trimStart, hc], .inr rfl⟩
  | cons s ss ih =>
    have hcomment : ∀ l : Text, l.head? = some '/' → s.raw = l →
        ∃ d r, Text.trimStart (raws (s :: ss) ++ c :: x) = d :: r ∧ (d = '/' ∨ d = c) := by
      intro l hl hs
      obtain ⟨u, rfl⟩ := List.head?_eq_some_iff.mp hl
      have hslash : isBlank '/' = false := by decide
      exact ⟨'/', u ++ raws ss ++ c :: x, by simp [hs, Text.trimStart, hslash], .inl rfl⟩
    have hs := hpads s (List.mem_cons_self ..)
    cases s with
    | code e =>
      have he : isBlank e = true := hs
      obtain ⟨d, r, hd, hdc⟩ := ih fun s hs => hpads s (List.mem_cons_of_mem _ hs)
      refine ⟨d, r, ?_, hdc⟩
      rw [← hd]
      show Text.trimStart (e :: (raws ss ++ c :: x)) = _
      simp [Text.trimStart, he]
    | line l => exact hcomment l hs rfl
    | block l => exact hcomment l hs rfl

end Gap

end Reprint
