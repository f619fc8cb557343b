import Reprint.Proofs.LineBreaks
import Reprint.Proofs.Remarks
/-!
Gaps that differ in nothing but what their comments say. Of a gap with code in it, and where the neighbours decide, the
words of a comment make no difference to the place where it is divided. Of a gap without code they do, in one way: the
mark that opens a block comment is looked for in the text itself, so it is also found in a comment to the end of the
line.
Main statement: `reworded_index_iff`.
-/

namespace Reprint.Gap
open Text

namespace Segment

/-- Whether a segment is a comment between brackets. -/
def isBlock : Segment → Bool
  | block _ => true
  | code _ | line _ => false

/-- A segment with the characters of a comment blanked out, still of its kind. -/
def hushed : Segment → Segment
  | code c => code c
  | line t => line (t.flatMap blankOut)
  | block t => block (t.flatMap blankOut)

/-- Whether the line is blank behind a segment, given whether it is ahead of it. -/
def lineBlank (blank : Bool) : Segment → Bool
  | code c => c == '\n' || (blank && isBlank c)
  | line _ | block _ => false

/-- Whether the mark that opens a block comment is in a segment. -/
def Opens (s : Segment) : Prop := ∃ x y, s.raw = x ++ '/' :: '*' :: y

@[simp] theorem raw_hushed (s : Segment) : s.hushed.raw = s.masked := by cases s <;> rfl

@[simp] theorem isBlock_hushed (s : Segment) : s.hushed.isBlock = s.isBlock := by cases s <;> rfl

@[simp] theorem isComment_hushed (s : Segment) : s.hushed.isComment = s.isComment := by cases s <;> rfl

@[simp] theorem lineBlank_hushed (blank : Bool) (s : Segment) : s.hushed.lineBlank blank = s.lineBlank blank := by
  cases s <;> rfl

theorem hushed_eq {s s' : Segment} (hcomment : s.isComment = s'.isComment) (hblock : s.isBlock = s'.isBlock)
    (hmasked : s.masked = s'.masked) : s.hushed = s'.hushed := by
  cases s with
  | code c =>
    cases s' with
    | code c' => rw [(List.cons.inj hmasked).1]
    | line l' => cases hcomment
    | block l' => cases hcomment
  | line l =>
    cases s' with
    | code c' => cases hcomment
    | line l' => exact congrArg line hmasked
    | block l' => cases hblock
  | block l =>
    cases s' with
    | code c' => cases hcomment
    | line l' => cases hblock
    | block l' => exact congrArg block hmasked

theorem exists_line_of_hushed {s : Segment} {l : Text} (h : s.hushed = (line l).hushed) : ∃ l', s = line l' := by
  cases s with
  | code c => cases h
  | line l' => exact ⟨l', rfl⟩
  | block l' => cases h

end Segment

/-- Two gaps that differ in nothing but what their comments say: comments of the same kinds stand in the same places,
and the rest is the same. -/
structure Reworded (t u : Text) : Prop where
  spans : comments t = comments u
  kinds : ((segments t).filter Segment.isComment).map Segment.isBlock =
    ((segments u).filter Segment.isComment).map Segment.isBlock
  rest : masked t = masked u

theorem Reworded.symm {t u : Text} (h : Reworded t u) : Reworded u t := ⟨h.spans.symm, h.kinds.symm, h.rest.symm⟩

/-! ### Segment by segment -/

section Hushed
variable {t u : Text} {ss ss' pre post : List Segment} {s : Segment} {start : Nat}

theorem raws_hushed (ss : List Segment) : raws (ss.map Segment.hushed) = masks ss := by
  induction ss with
  | nil => rfl
  | cons s ss ih =>
    rw [List.map_cons, raws_cons, ih, Segment.raw_hushed]
    rfl

theorem masks_of_hushed (h : ss.map Segment.hushed = ss'.map Segment.hushed) : masks ss = masks ss' := by
  rw [← raws_hushed, h, raws_hushed]

theorem size_of_hushed (h : ss.map Segment.hushed = ss'.map Segment.hushed) : size (raws ss) = size (raws ss') := by
  rw [← size_masks, masks_of_hushed h, size_masks]

theorem isComment_iff_mem (hs : s.raw ≠ []) :
    s.isComment = true ↔ ∃ stop, (start, stop) ∈ commentsFrom start (s :: ss) := by
  constructor
  · exact fun h => ⟨_, mem_commentsFrom.mpr ⟨[], s, ss, rfl, h, rfl, rfl⟩⟩
  · rintro ⟨stop, hmem⟩
    obtain ⟨_ | ⟨x, pre⟩, s', post, heq, hs', hstart, -⟩ := mem_commentsFrom.mp hmem
    · obtain ⟨rfl, -⟩ := List.cons.inj heq
      exact hs'
    · obtain ⟨rfl, -⟩ := List.cons.inj heq
      have hne : size s.raw ≠ 0 := mt size_eq_zero_iff.mp hs
      simp only [raws_cons, size_append] at hstart
      omega

/-- Gaps with the same comments and the same rest have the same segments, comments blanked out. -/
theorem map_hushed_eq (hne : ∀ s ∈ ss, s.raw ≠ []) (hne' : ∀ s ∈ ss', s.raw ≠ [])
    (hspans : commentsFrom start ss = commentsFrom start ss')
    (hkinds : (ss.filter Segment.isComment).map Segment.isBlock = (ss'.filter Segment.isComment).map Segment.isBlock)
    (hrest : masks ss = masks ss') : ss.map Segment.hushed = ss'.map Segment.hushed := by
  have hlong : ∀ (s : Segment) ss, s.raw ≠ [] → masks (s :: ss) ≠ [] := fun s ss hs hnil => by
    have hsize : size (raws (s :: ss)) = 0 := by rw [← size_masks, hnil, size_nil]
    rw [raws_cons, size_append] at hsize
    exact hs (size_eq_zero_iff.mp (by omega))
  induction ss generalizing start ss' with
  | nil =>
    rcases ss' with _ | ⟨s', ss'⟩
    · rfl
    · exact absurd hrest.symm (hlong s' ss' (hne' s' (List.mem_cons_self ..)))
  | cons s ss ih =>
    rcases ss' with _ | ⟨s', ss'⟩
    · exact absurd hrest (hlong s ss (hne s (List.mem_cons_self ..)))
    obtain ⟨hs, hss⟩ := List.forall_mem_cons.mp hne
    obtain ⟨hs', hss'⟩ := List.forall_mem_cons.mp hne'
    have hsame : s.isComment = s'.isComment := by
      rw [Bool.eq_iff_iff, isComment_iff_mem hs, isComment_iff_mem hs', hspans]
    have hrest : s.masked ++ masks ss = s'.masked ++ masks ss' := hrest
    rcases Bool.eq_false_or_eq_true s.isComment with hcomment | hcode
    · have hcomment' := hsame.symm.trans hcomment
      simp only [commentsFrom, hcomment, hcomment', if_true, List.cons.injEq, Prod.mk.injEq, true_and] at hspans
      simp only [List.filter_cons, hcomment, hcomment', if_true, List.map_cons, List.cons.injEq] at hkinds
      have hsize : size s.raw = size s'.raw := by omega
      obtain ⟨hmask, hmasks⟩ := append_eq_append_of_size_eq hrest (by rw [s.size_masked, s'.size_masked, hsize])
      rw [← hsize] at hspans
      rw [List.map_cons, List.map_cons, ih hss hss' hspans.2 hkinds.2 hmasks, Segment.hushed_eq hsame hkinds.1 hmask]
    · have hcode' := hsame.symm.trans hcode
      rcases s with c | l | l
      · rcases s' with c' | l' | l'
        · obtain ⟨rfl, hmasks⟩ := List.cons.inj hrest
          rw [List.map_cons, List.map_cons, ih hss hss' hspans hkinds hmasks]
        · cases hcode'
        · cases hcode'
      · cases hcode
      · cases hcode

theorem Reworded.hushed (h : Reworded t u) : (segments t).map Segment.hushed = (segments u).map Segment.hushed :=
  map_hushed_eq (fun _ hs => raw_ne_nil hs) (fun _ hs => raw_ne_nil hs) h.spans h.kinds h.rest

/-- Each segment of a gap has one of its kind in the other gap. -/
theorem Reworded.exists_segment (h : Reworded t u) (hss : segments t = pre ++ s :: post) :
    ∃ pre' s' post', segments u = pre' ++ s' :: post' ∧ pre'.map Segment.hushed = pre.map Segment.hushed ∧
      s'.hushed = s.hushed := by
  have hhushed := h.hushed.symm
  rw [hss, List.map_append, List.map_cons] at hhushed
  obtain ⟨pre', rest, hu, hpre, hrest⟩ := List.map_eq_append_iff.mp hhushed
  obtain ⟨s', post', rfl, hs, -⟩ := List.map_eq_cons_iff.mp hrest
  exact ⟨pre', s', post', hu, hpre, hs⟩

end Hushed

/-! ### Comments on lines of their own -/

section OwnLine
variable {t u : Text} {ss pre post : List Segment} {s : Segment} {i : Nat}

theorem mem_masks_lineFeed : '\n' ∈ masks ss ↔ '\n' ∈ raws ss := by
  have hcomment : ∀ l : Text, '\n' ∈ l.flatMap Segment.blankOut ↔ '\n' ∈ l := by
    intro l
    rw [List.mem_flatMap]
    constructor
    · rintro ⟨c, hc, hfeed⟩
      unfold Segment.blankOut at hfeed
      split at hfeed
      · next heq => rwa [← heq]
      · cases (List.mem_replicate.mp hfeed).2
    · exact fun hfeed => ⟨'\n', hfeed, List.mem_singleton_self _⟩
  unfold masks raws
  rw [List.mem_flatMap, List.mem_flatMap]
  refine exists_congr fun s => and_congr_right fun _ => ?_
  cases s with
  | code c => exact Iff.rfl
  | line l => exact hcomment l
  | block l => exact hcomment l

/-- One segment further, a line that goes on is blank if it was so ahead of the segment and the segment is blank. -/
theorem lastLine_step (h : segments t = s :: ss) (hss : ss ≠ []) (d : Text) :
    (lastLine (d ++ s.raw)).allBlank = s.lineBlank (lastLine d).allBlank := by
  have hend : ∀ c x, allBlank (lastLine (x ++ [c])) = (c == '\n' || (allBlank (lastLine x) && isBlank c)) := by
    intro c x
    rw [lastLine_concat]
    split
    · next hc => rw [hc]; rfl
    · next hc => simp [allBlank, hc]
  cases s with
  | code c => exact hend c d
  | line l =>
    have hline : '\n' ∉ l := not_mem_line (show segments t = [] ++ .line l :: ss from h)
    obtain ⟨u, rfl, -⟩ := raw_of_segments_eq_cons h
    show allBlank (lastLine (d ++ '/' :: '/' :: u)) = false
    rw [lastLine_append_line hline, allBlank, List.all_append, List.all_cons]
    exact Bool.and_eq_false_iff.mpr (.inr rfl)
  | block l =>
    -- With something behind it, a block comment ends in a slash.
    obtain ⟨s', ss', rfl⟩ := List.exists_cons_of_ne_nil hss
    obtain ⟨x, rfl⟩ := List.getLast?_eq_some_iff.mp (getLast?_block h)
    show allBlank (lastLine (d ++ (x ++ ['/']))) = false
    rw [← List.append_assoc, hend]
    exact Bool.and_eq_false_iff.mpr (.inr rfl)

theorem allBlank_lastLine (h : segments t = pre ++ ss) (hss : ss ≠ []) (d : Text) :
    (lastLine (d ++ raws pre)).allBlank = pre.foldl Segment.lineBlank (lastLine d).allBlank := by
  induction pre generalizing t d with
  | nil => rw [raws_nil, List.append_nil, List.foldl_nil]
  | cons s pre ih =>
    obtain ⟨rest, -, hrest, -⟩ := segments_eq_cons h
    rw [raws_cons, ← List.append_assoc, ih hrest, lastLine_step h (by simp [hss]), List.foldl_cons]

theorem onOwnLine_eq (h : segments t = pre ++ s :: post) :
    onOwnLine t (size (raws pre)) = (decide ('\n' ∈ masks pre) && pre.foldl Segment.lineBlank true) := by
  have hblank := allBlank_lastLine h (by simp) []
  rw [List.nil_append] at hblank
  rw [onOwnLine, before_cut h, hblank, List.contains_eq_mem, decide_eq_decide.mpr mem_masks_lineFeed]
  rfl

theorem Reworded.onOwnLine {pre' post' : List Segment} {s' : Segment} (h : segments t = pre ++ s :: post)
    (h' : segments u = pre' ++ s' :: post') (hpre : pre'.map Segment.hushed = pre.map Segment.hushed) :
    onOwnLine u (size (raws pre')) = onOwnLine t (size (raws pre)) := by
  have hfold : ∀ ss : List Segment, ss.foldl Segment.lineBlank true =
      (ss.map Segment.hushed).foldl Segment.lineBlank true := fun ss => by
    simp only [List.foldl_map, Segment.lineBlank_hushed]
  rw [onOwnLine_eq h, onOwnLine_eq h', hfold pre', hfold pre, hpre, masks_of_hushed hpre]

theorem Reworded.snap_inside (h : Reworded t u) (hss : segments t = pre ++ s :: post) (hs : s.isComment = true)
    (hlow : size (raws pre) < i) (hhigh : i < size (raws pre) + size s.raw) : snap t i = snap u i := by
  obtain ⟨pre', s', post', hss', hpre, hs'⟩ := h.exists_segment hss
  have hcomment : s'.isComment = true := by rw [← s'.isComment_hushed, hs', s.isComment_hushed, hs]
  have hsize : size s'.raw = size s.raw := by rw [← s'.size_masked, ← s'.raw_hushed, hs', s.raw_hushed, s.size_masked]
  have hstart := size_of_hushed hpre
  rw [Gap.snap_inside hss hs hlow hhigh, Gap.snap_inside hss' hcomment (by omega) (by omega), onOwnLine hss hss' hpre,
    hstart, hsize]

/-- An offset is moved out of reworded comments as it was out of the old ones. -/
theorem Reworded.snap (h : Reworded t u) (i : Nat) : snap t i = snap u i := by
  rcases snap_cases t i with ⟨hsnap, -⟩ | ⟨pre, s, post, hss, hs, hlow, hhigh, -⟩
  · rcases snap_cases u i with ⟨hsnap', -⟩ | ⟨pre, s, post, hss, hs, hlow, hhigh, -⟩
    · rw [hsnap, hsnap']
    · exact (h.symm.snap_inside hss hs hlow hhigh).symm
  · exact h.snap_inside hss hs hlow hhigh

end OwnLine

/-! ### The first opening of a block comment -/

section Opening
variable {t : Text} {pre post pre' post' : List Segment} {s s' : Segment} {i : Nat}

theorem opening?_eq_some (h : opening? t = some i) :
    (∃ a b, t = a ++ '/' :: '*' :: b ∧ i = size a) ∧ ∀ x y, t = x ++ '/' :: '*' :: y → i ≤ size x := by
  obtain ⟨a, b, n, rfl, hmark, rfl, hnone⟩ := firstFrom_eq_some h
  obtain ⟨rfl, rest, rfl⟩ := ahead_eq_some hmark
  rw [Nat.zero_add, Nat.add_zero]
  refine ⟨⟨a, rest, rfl, rfl⟩, fun x y htext => Nat.le_of_not_lt fun hlt => ?_⟩
  obtain ⟨m, rfl, hm⟩ := append_eq_append_of_size_le htext.symm (Nat.le_of_lt hlt)
  rcases m with _ | ⟨c, m⟩
  · rw [List.append_nil] at hlt
    exact Nat.lt_irrefl _ hlt
  · have habsent := hnone x c m rfl
    rw [← hm] at habsent
    cases habsent

theorem opening?_eq_none (h : opening? t = none) (x y : Text) : t ≠ x ++ '/' :: '*' :: y := by
  rintro rfl
  cases firstFrom_eq_none h

theorem raw_of_isBlock (h : segments t = pre ++ s :: post) (hblock : s.isBlock = true) :
    ∃ u, s.raw = '/' :: '*' :: u := by
  have hraw := raw_of_segments_eq_cons (segments_raws_right h).1
  cases s with
  | code c => cases hblock
  | line l => cases hblock
  | block l =>
    obtain ⟨u, rfl⟩ := hraw
    exact ⟨_, rfl⟩

theorem opens_of_isBlock (hs : s ∈ segments t) (hblock : s.isBlock = true) : s.Opens := by
  obtain ⟨pre, post, hss⟩ := List.append_of_mem hs
  obtain ⟨u, hu⟩ := raw_of_isBlock hss hblock
  exact ⟨[], u, hu⟩

theorem text_of_opens (h : segments t = pre ++ s :: post) (hs : s.Opens) :
    ∃ x y, t = raws pre ++ x ++ '/' :: '*' :: y ∧ size x + 2 ≤ size s.raw := by
  obtain ⟨x, y, hraw⟩ := hs
  refine ⟨x, y ++ raws post, ?_, ?_⟩
  · rw [(segments_raws_right h).2, raws_cons, hraw]
    simp
  · have hslash : '/'.utf8Size = 1 := rfl
    have hstar : '*'.utf8Size = 1 := rfl
    rw [hraw, size_append, size_cons, size_cons]
    omega

/-- The first opening is that of a block comment, or lies in a comment to the end of the line. Comments ahead of it have
none. -/
theorem opening?_cases (h : opening? t = some i) :
    ∃ pre s post, segments t = pre ++ s :: post ∧ s.Opens ∧ (∀ x ∈ pre, ¬x.Opens) ∧
      ((s.isBlock = true ∧ i = size (raws pre)) ∨
        (∃ l, s = .line l ∧ size (raws pre) < i ∧ i < size (raws pre) + size l)) := by
  obtain ⟨⟨a, b, htext, rfl⟩, hfirst⟩ := opening?_eq_some h
  have hahead : ∀ pre post, segments t = pre ++ post → size (raws pre) ≤ size a → ∀ x ∈ pre, ¬x.Opens := by
    intro pre post hss hle x hx hopens
    obtain ⟨p, q, rfl⟩ := List.append_of_mem hx
    have hsplit : segments t = p ++ x :: (q ++ post) := by rw [hss]; simp
    obtain ⟨y, z, htext', hsize⟩ := text_of_opens hsplit hopens
    have := hfirst _ z htext'
    simp only [raws_append, raws_cons, size_append] at hle this
    omega
  rcases segments_cut_cases htext with ⟨pre, post, hss, hi, hrest⟩ | ⟨pre, s, post, hss, hs, hlow, hhigh⟩
  · have hpost := (segments_raws_right hss).1
    rw [hrest, segments_block] at hpost
    subst hpost
    exact ⟨pre, _, _, hss, ⟨[], _, rfl⟩, hahead pre _ hss (Nat.le_of_eq hi.symm), .inl ⟨rfl, hi⟩⟩
  · have hpre := hahead pre _ hss (Nat.le_of_lt hlow)
    rcases Bool.eq_false_or_eq_true s.isBlock with hblock | hline
    · -- A block comment around the place would open ahead of it.
      obtain ⟨u, hu⟩ := raw_of_isBlock hss hblock
      have := hfirst (raws pre) (u ++ raws post) (by rw [(segments_raws_right hss).2, raws_cons, hu]; simp)
      omega
    · cases s with
      | code c => cases hs
      | block l => cases hline
      | line l =>
        have hhigh : size a < size (raws pre) + size l := hhigh
        refine ⟨pre, _, post, hss, ?_, hpre, .inr ⟨l, rfl, hlow, hhigh⟩⟩
        have hcut : raws pre ++ (l ++ raws post) = a ++ '/' :: '*' :: b := by
          rw [← htext, (segments_raws_right hss).2]
          rfl
        obtain ⟨x, rfl, hx⟩ := append_eq_append_of_size_le hcut (Nat.le_of_lt hlow)
        rw [size_append] at hhigh
        obtain ⟨m, rfl, hm⟩ := append_eq_append_of_size_le hx.symm (by omega)
        -- Behind the comment comes a line feed, so the star is in the comment as well.
        rcases m with _ | ⟨c, _ | ⟨d, m⟩⟩
        · rw [List.append_nil] at hhigh
          omega
        · obtain ⟨rfl, hstar⟩ := List.cons.inj hm
          rcases segments_after_line (segments_raws_right hss).1 with rfl | ⟨post', rfl⟩
          · cases hstar
          · cases hstar
        · cases hm
          exact ⟨x, m, rfl⟩

theorem first_opens_unique (h : segments t = pre ++ s :: post) (h' : segments t = pre' ++ s' :: post')
    (hs : s.Opens) (hs' : s'.Opens) (hpre : ∀ x ∈ pre, ¬x.Opens) (hpre' : ∀ x ∈ pre', ¬x.Opens) :
    pre = pre' ∧ s = s' ∧ post = post' := by
  rcases append_cons_cases (h.symm.trans h') with heq | ⟨m, rfl, -⟩ | ⟨m, rfl, -⟩
  · exact heq
  · exact absurd hs (hpre' s (by simp))
  · exact absurd hs' (hpre s' (by simp))

end Opening

/-! ### Where gaps without code are divided -/

/-- The comment to the end of the line at an offset is the first comment in which a block comment seems to open. On the
first line of a gap without block comments that makes no difference, so it does not count there. -/
def Misleads (t : Text) (start : Nat) : Prop := ∃ pre l post, segments t = pre ++ .line l :: post ∧
  start = size (raws pre) ∧ Segment.Opens (.line l) ∧ (∀ s ∈ pre, ¬s.Opens) ∧
  ('\n' ∈ masks pre ∨ ∃ s ∈ post, s.isBlock = true)

/-- The start of the first block comment, or else of the first line break, or else the end. -/
def plainIndex (t : Text) : Nat :=
  if (segments t).any Segment.isBlock then size (raws ((segments t).takeWhile (!·.isBlock)))
  else (Mark.lineBreak.first? (masked t)).getD t.size

/-- Where a gap that a comment misleads is divided: ahead of the comment, or on the first line behind it. -/
def misledIndex (code : Text) (start : Nat) : Nat :=
  if '\n' ∈ code.before start then start else (code.find? (· == '\n')).getD code.size

section Blank
variable {t u l : Text} {pre post pre' post' : List Segment} {s s' : Segment} {j : Junction} {i start : Nat}

theorem cut_unique (h : segments t = pre ++ post) (h' : segments t = pre' ++ post')
    (hsize : size (raws pre) = size (raws pre')) : pre = pre' ∧ post = post' := by
  have hnil : ∀ m : List Segment, (∀ x ∈ m, x ∈ segments t) → size (raws m) = 0 → m = [] := by
    rintro (_ | ⟨x, m⟩) hmem hzero
    · rfl
    · rw [raws_cons, size_append] at hzero
      have hpos := size_raw_pos (hmem x (List.mem_cons_self ..))
      omega
  rcases List.append_eq_append_iff.mp (h.symm.trans h') with ⟨m, rfl, rfl⟩ | ⟨m, rfl, rfl⟩
  · rw [raws_append, size_append] at hsize
    obtain rfl := hnil m (fun x hx => by rw [h']; simp [hx]) (by omega)
    simp
  · rw [raws_append, size_append] at hsize
    obtain rfl := hnil m (fun x hx => by rw [h]; simp [hx]) (by omega)
    simp

/-- Without block comments ahead, a comment stands on a line of its own if there is another line ahead. -/
theorem foldl_lineBlank {blank : Bool} (h : segments t = pre ++ s :: post) (hs : s.isComment = true)
    (hcode : Text.allBlank (masks pre) = true) (hpre : ∀ x ∈ pre, x.isBlock = false)
    (hblank : blank = true ∨ ∃ rest, pre = .code '\n' :: rest) : pre.foldl Segment.lineBlank blank = true := by
  induction pre generalizing t blank with
  | nil =>
    rcases hblank with hblank | ⟨rest, hnil⟩
    · exact hblank
    · cases hnil
  | cons x pre ih =>
    obtain ⟨rest, -, hrest, -⟩ := segments_eq_cons h
    obtain ⟨hx, hothers⟩ := List.forall_mem_cons.mp hpre
    obtain ⟨hxblank, hpreblank⟩ := allBlank_append.mp (show Text.allBlank (x.masked ++ masks pre) = true from hcode)
    rw [List.foldl_cons]
    cases x with
    | code c =>
      refine ih hrest hpreblank hothers (.inl ?_)
      have hc : isBlank c = true := List.all_eq_true.mp hxblank c (List.mem_singleton_self c)
      rcases hblank with rfl | ⟨rest, heq⟩
      · rw [Segment.lineBlank, hc, Bool.and_self, Bool.or_true]
      · cases heq
        rfl
    | line l =>
      -- The line feed behind the comment begins a new line.
      refine ih hrest hpreblank hothers (.inr ?_)
      rcases segments_after_line h with hnil | ⟨post', hnext⟩
      · simp at hnil
      · rcases pre with _ | ⟨y, pre⟩
        · cases hnext
          cases hs
        · cases hnext
          exact ⟨pre, rfl⟩
    | block l => cases hx

/-- A comment to the end of the first line ends where this line does. -/
theorem first_line_end (h : segments t = pre ++ .line l :: post) (hpre : '\n' ∉ masks pre) :
    ((masked t).find? (· == '\n')).getD t.size = size (raws pre) + size l ∧
      (Mark.lineBreak.first? (masked t)).getD t.size = size (raws pre) + size l := by
  have hmask : masked t = masks pre ++ List.replicate (size l) ' ' ++ masks post := by
    rw [masked_cut h, List.append_assoc, ← flatMap_blankOut (not_mem_line h)]
    rfl
  have hsize : size (masks pre ++ List.replicate (size l) ' ') = size (raws pre) + size l := by
    rw [size_append, size_masks, size_spaces]
  have hahead : '\n' ∉ masks pre ++ List.replicate (size l) ' ' := by
    rw [List.mem_append, not_or]
    exact ⟨hpre, fun hmem => by cases (List.mem_replicate.mp hmem).2⟩
  have hother : ∀ d ∈ masks pre ++ List.replicate (size l) ' ', (d == '\n') = false := fun d hd =>
    beq_false_of_ne fun heq => hahead (heq ▸ hd)
  rcases segments_after_line (segments_raws_right h).1 with rfl | ⟨post, rfl⟩
  · rw [show masks [] = [] from rfl, List.append_nil] at hmask
    have hend : t.size = size (raws pre) + size l := by rw [← size_masked, hmask, hsize]
    rw [hmask, find?_absent hother, first?_eq_none (c := '\n') (fun _ _ _ hmark => ?_) hahead]
    · exact ⟨hend, hend⟩
    · obtain ⟨-, s, hs⟩ := lineBreak_eq_some hmark
      rcases afterLineBreak?_eq_some hs with rfl | rfl <;> simp
  · have hfeed : masked t = (masks pre ++ List.replicate (size l) ' ') ++ '\n' :: masks post := hmask
    have hpos : 0 < size l := size_raw_pos (s := .line l) (by rw [h]; simp)
    obtain ⟨-, hspace, -⟩ := around_line h hfeed (by omega) (by omega)
    rw [hfeed, find?_append_cons hother rfl, first?_lineBreak hahead]
    rcases lineBreakAt_cases (masks pre ++ List.replicate (size l) ' ') (masks post) with ⟨x, hx, -⟩ | ⟨-, hindex⟩
    · rw [hx, List.getLast?_concat] at hspace
      cases hspace
    · rw [hindex, hsize]
      exact ⟨rfl, rfl⟩

/-- Without block comments, no line break lies inside a comment. -/
theorem snap_lineBreak (h : ∀ x ∈ segments t, x.isBlock = false) :
    snap t ((Mark.lineBreak.first? (masked t)).getD t.size) = (Mark.lineBreak.first? (masked t)).getD t.size := by
  cases hfirst : Mark.lineBreak.first? (masked t) with
  | none => exact snap_of_isCut (isCut_size t)
  | some i =>
    obtain ⟨a, b, n, hmask, hmark, rfl, -⟩ := firstFrom_eq_some hfirst
    obtain ⟨rfl, s, hs⟩ := lineBreak_eq_some hmark
    rw [Option.getD_some, Nat.zero_add, Nat.add_zero]
    rcases snap_cases t (size a) with ⟨hsnap, -⟩ | ⟨pre, s, post, hss, hs', hlow, hhigh, -⟩
    · exact hsnap
    · -- Inside a comment to the end of the line there is nothing but spaces.
      have hline := h s (by rw [hss]; simp)
      cases s with
      | code c => cases hs'
      | block l => cases hline
      | line l =>
        have hhigh : size a < size (raws pre) + size l := hhigh
        obtain ⟨n, -, rfl, hsize⟩ := around_line hss hmask hlow (Nat.le_of_lt hhigh)
        obtain ⟨n, rfl⟩ := Nat.exists_eq_succ_of_ne_zero (n := n) (by omega)
        rcases afterLineBreak?_eq_some hs with heq | heq <;> cases heq

theorem plainIndex_block (h : segments t = pre ++ s :: post) (hs : s.isBlock = true)
    (hpre : ∀ x ∈ pre, x.isBlock = false) : plainIndex t = size (raws pre) := by
  have hkeep : ∀ x ∈ pre, (!x.isBlock) = true := fun x hx => by rw [hpre x hx]; rfl
  rw [plainIndex, if_pos (List.any_eq_true.mpr ⟨s, by rw [h]; simp, hs⟩), h, List.takeWhile_append_of_pos hkeep,
    List.takeWhile_cons_of_neg (by simp [hs]), List.append_nil]

theorem plainIndex_none (h : ∀ x ∈ segments t, x.isBlock = false) :
    plainIndex t = (Mark.lineBreak.first? (masked t)).getD t.size := by
  have hnone : (segments t).any Segment.isBlock = false := List.any_eq_false.mpr fun x hx => by simp [h x hx]
  rw [plainIndex, hnone, if_neg (by decide)]

theorem exists_first_block (h : ∃ s ∈ post, s.isBlock = true) :
    ∃ q s q', post = q ++ s :: q' ∧ s.isBlock = true ∧ ∀ x ∈ q, x.isBlock = false := by
  cases hfind : post.find? Segment.isBlock with
  | none =>
    obtain ⟨s, hs, hblock⟩ := h
    exact absurd hblock (List.find?_eq_none.mp hfind s hs)
  | some s =>
    obtain ⟨hs, q, q', rfl, hq⟩ := List.find?_eq_some_iff_append.mp hfind
    exact ⟨q, s, q', rfl, hs, fun x hx => by simpa using hq x hx⟩

theorem not_isBlock (h : segments t = pre ++ post) (hpre : ∀ x ∈ pre, ¬x.Opens) : ∀ x ∈ pre, x.isBlock = false :=
  fun x hx => Bool.eq_false_iff.mpr fun hblock =>
    hpre x hx (opens_of_isBlock (by rw [h]; exact List.mem_append_left _ hx) hblock)

theorem indexBetween_plain (hj : j.index? (masked t) = none) (hblank : (masked t).allBlank = true)
    (hplain : ∀ start, ¬Misleads t start) : indexBetween t j = plainIndex t := by
  rw [indexBetween_blank hj hblank]
  cases hopening : opening? t with
  | none =>
    have hnone : ∀ x ∈ segments t, x.isBlock = false := by
      refine not_isBlock (List.append_nil _).symm fun x hx hopens => ?_
      obtain ⟨pre, post, hss⟩ := List.append_of_mem hx
      obtain ⟨y, z, htext, -⟩ := text_of_opens hss hopens
      exact opening?_eq_none hopening _ z htext
    rw [Option.none_or, plainIndex_none hnone, snap_lineBreak hnone]
  | some i =>
    show snap t i = plainIndex t
    obtain ⟨pre, s, post, hss, hopens, hpre, ⟨hblock, rfl⟩ | ⟨l, rfl, hlow, hhigh⟩⟩ := opening?_cases hopening
    · rw [snap_of_isCut ⟨pre, _, hss, rfl⟩, plainIndex_block hss hblock (not_isBlock hss hpre)]
    · -- The comment does not count, so it is on the first line and there is no block comment.
      have hquiet := not_or.mp fun hloud => hplain _ ⟨pre, l, post, hss, rfl, hopens, hpre, hloud⟩
      have hnone : ∀ x ∈ segments t, x.isBlock = false := by
        rw [hss]
        refine List.forall_mem_append.mpr ⟨not_isBlock hss hpre, List.forall_mem_cons.mpr ⟨rfl, fun x hx => ?_⟩⟩
        exact Bool.eq_false_iff.mpr fun hblock => hquiet.2 ⟨x, hx, hblock⟩
      rw [snap_inside hss rfl hlow hhigh, onOwnLine_eq hss, decide_eq_false hquiet.1, Bool.false_and,
        if_neg (by decide), plainIndex_none hnone, (first_line_end hss hquiet.1).2]
      rfl

theorem misledIndex_line (h : segments t = pre ++ .line l :: post) : misledIndex (masked t) (size (raws pre)) =
    if '\n' ∈ masks pre then size (raws pre) else size (raws pre) + size l := by
  rw [misledIndex, masked_before_cut h]
  by_cases hfeed : '\n' ∈ masks pre
  · rw [if_pos hfeed, if_pos hfeed]
  · rw [if_neg hfeed, if_neg hfeed, size_masked, (first_line_end h hfeed).1]

theorem indexBetween_misled (hj : j.index? (masked t) = none) (hblank : (masked t).allBlank = true)
    (h : Misleads t start) : indexBetween t j = misledIndex (masked t) start := by
  obtain ⟨pre, l, post, hss, rfl, hopens, hpre, -⟩ := h
  rw [indexBetween_blank hj hblank]
  cases hopening : opening? t with
  | none =>
    obtain ⟨y, z, htext, -⟩ := text_of_opens hss hopens
    exact absurd htext (opening?_eq_none hopening _ z)
  | some i =>
    obtain ⟨pre', s', post', hss', hopens', hpre', hplace⟩ := opening?_cases hopening
    obtain ⟨rfl, rfl, rfl⟩ := first_opens_unique hss hss' hopens hopens' hpre hpre'
    rcases hplace with ⟨hblock, -⟩ | ⟨l', heq, hlow, hhigh⟩
    · cases hblock
    · cases heq
      have hcode : Text.allBlank (masks pre) = true := by
        rw [masked_cut hss] at hblank
        exact (allBlank_append.mp hblank).1
      show snap t i = _
      rw [snap_inside hss rfl hlow hhigh, onOwnLine_eq hss,
        foldl_lineBlank hss rfl hcode (not_isBlock hss hpre) (.inl rfl), Bool.and_true, misledIndex_line hss]
      simp only [decide_eq_true_eq]
      rfl

/-- A gap that a comment misleads is not divided where it would be otherwise. -/
theorem misledIndex_ne_plainIndex (h : Misleads t start) : misledIndex (masked t) start ≠ plainIndex t := by
  obtain ⟨pre, l, post, hss, rfl, -, hpre, hloud⟩ := h
  have hpre := not_isBlock hss hpre
  rw [misledIndex_line hss]
  by_cases hany : ∃ s ∈ post, s.isBlock = true
  · -- The first block comment stands behind the comment and its line feed.
    obtain ⟨q, s, q', rfl, hs, hq⟩ := exists_first_block hany
    have hplain : plainIndex t = size (raws (pre ++ .line l :: q)) := by
      have hsplit : segments t = (pre ++ .line l :: q) ++ s :: q' := by rw [hss]; simp
      refine plainIndex_block hsplit hs ?_
      exact List.forall_mem_append.mpr ⟨hpre, List.forall_mem_cons.mpr ⟨rfl, hq⟩⟩
    rcases segments_after_line (segments_raws_right hss).1 with hnil | ⟨post, hnext⟩
    · simp at hnil
    · rcases q with _ | ⟨x, q⟩
      · cases hnext
        cases hs
      · cases hnext
        have hline : size (Segment.raw (.line l)) = size l := rfl
        have hfeed : size (Segment.raw (.code '\n')) = 1 := rfl
        rw [hplain]
        simp only [raws_append, raws_cons, size_append]
        split <;> omega
  · -- The first line break is ahead of the comment.
    have hfeed : '\n' ∈ masks pre := hloud.resolve_right hany
    have hnone : ∀ x ∈ segments t, x.isBlock = false := by
      rw [hss]
      refine List.forall_mem_append.mpr ⟨hpre, List.forall_mem_cons.mpr ⟨rfl, fun x hx => ?_⟩⟩
      exact Bool.eq_false_iff.mpr fun hblock => hany ⟨x, hx, hblock⟩
    obtain ⟨a, b, hmasks, ha⟩ := List.eq_append_cons_of_mem hfeed
    have hmask : masked t = a ++ '\n' :: (b ++ masks (.line l :: post)) := by
      rw [masked_cut hss, hmasks]
      simp
    have hle := lineBreakAt_le (masked t) (size a)
    have hlt : size a < size (raws pre) := by
      rw [← size_masks, hmasks, size_append, size_cons]
      have : '\n'.utf8Size = 1 := rfl
      omega
    rw [if_pos hfeed, plainIndex_none hnone, hmask, first?_lineBreak ha, ← hmask, Option.getD_some]
    omega

theorem misledIndex_ne {l' : Text} (h : segments t = pre ++ .line l :: post)
    (h' : segments t = pre' ++ .line l' :: post') (hfeed : '\n' ∈ masks pre) (hfirst : '\n' ∉ masks pre') :
    misledIndex (masked t) (size (raws pre)) ≠ misledIndex (masked t) (size (raws pre')) := by
  rw [misledIndex_line h, misledIndex_line h', if_pos hfeed, if_neg hfirst]
  intro hsize
  have hcut : segments t = (pre' ++ [.line l']) ++ post' := h'.trans (List.append_cons ..)
  obtain ⟨-, rfl⟩ := cut_unique h hcut (by simpa [Segment.raw] using hsize)
  rcases segments_after_line (segments_raws_right h').1 with hnil | ⟨post', hnext⟩
  · cases hnil
  · cases hnext

/-- No two comments to the end of the line mislead to one place. -/
theorem misledIndex_inj {l' : Text} (h : segments t = pre ++ .line l :: post)
    (h' : segments t = pre' ++ .line l' :: post')
    (heq : misledIndex (masked t) (size (raws pre)) = misledIndex (masked t) (size (raws pre'))) :
    size (raws pre) = size (raws pre') := by
  by_cases hfeed : '\n' ∈ masks pre <;> by_cases hfeed' : '\n' ∈ masks pre'
  · rwa [misledIndex_line h, misledIndex_line h', if_pos hfeed, if_pos hfeed'] at heq
  · exact absurd heq (misledIndex_ne h h' hfeed hfeed')
  · exact absurd heq.symm (misledIndex_ne h' h hfeed' hfeed)
  · -- Both end where the first line does.
    rw [misledIndex_line h, misledIndex_line h', if_neg hfeed, if_neg hfeed'] at heq
    obtain ⟨hcut, -⟩ := cut_unique (h.trans (List.append_cons ..)) (h'.trans (List.append_cons ..))
      (by simpa [Segment.raw] using heq)
    rw [List.append_inj_left' hcut rfl]

end Blank

/-! ### Two gaps -/

section Both
variable {t u : Text} {j : Junction} {start : Nat}

theorem Reworded.plainIndex (h : Reworded t u) : plainIndex t = plainIndex u := by
  have hhushed : ∀ t, Gap.plainIndex t = if ((segments t).map Segment.hushed).any Segment.isBlock then
      size (raws (((segments t).map Segment.hushed).takeWhile (!·.isBlock)))
      else (Mark.lineBreak.first? (masked t)).getD (masked t).size := by
    intro t
    rw [Gap.plainIndex, List.any_map, List.takeWhile_map, raws_hushed, size_masks, size_masked]
    simp only [Function.comp_def, Segment.isBlock_hushed]
  rw [hhushed, hhushed, h.hushed, h.rest]

theorem Rule.index?_congr {r : Rule} (hr : r ∈ Rule.all) (h : masked t = masked u)
    (hcode : (masked t).allBlank = false) : r.index? t = r.index? u := by
  simp only [Rule.all, List.mem_cons, List.not_mem_nil, or_false] at hr
  rcases hr with rfl | rfl | rfl | rfl | rfl | rfl | rfl | rfl | rfl | rfl | rfl | rfl | rfl | rfl
  case inr.inr.inl =>
    have hcode' : (masked u).allBlank = false := by rw [← h, hcode]
    rw [index?_refused fun _ => hcode, index?_refused fun _ => hcode']
  all_goals simp only [Rule.index?, h, Bool.false_eq_true, if_false]

theorem Rule.find?_congr (h : masked t = masked u) (hcode : (masked t).allBlank = false) :
    Rule.find? t = Rule.find? u := by
  have hmap : Rule.all.map (fun r => (r.index? t).map fun i => (r, i)) =
      Rule.all.map (fun r => (r.index? u).map fun i => (r, i)) :=
    List.map_congr_left fun r hr => by rw [index?_congr hr h hcode]
  have hfind := congrArg (List.findSome? id) hmap
  rw [List.findSome?_map, List.findSome?_map] at hfind
  exact hfind

/-- A comment that misleads one gap misleads the other one too, if both are divided at the same place. -/
theorem Reworded.misleads (h : Reworded t u) (hj : j.index? (masked t) = none) (hblank : (masked t).allBlank = true)
    (hindex : indexBetween t j = indexBetween u j) (hmisled : Misleads t start) : Misleads u start := by
  have hj' : j.index? (masked u) = none := by rw [← h.rest, hj]
  have hblank' : (masked u).allBlank = true := by rw [← h.rest, hblank]
  rw [indexBetween_misled hj hblank hmisled] at hindex
  by_cases hother : ∃ start', Misleads u start'
  · obtain ⟨start', hmisled'⟩ := hother
    rw [indexBetween_misled hj' hblank' hmisled', ← h.rest] at hindex
    have hsame : start = start' := by
      obtain ⟨pre, l, post, hss, rfl, -⟩ := hmisled
      obtain ⟨pre', l', post', hss', rfl, -⟩ := hmisled'
      obtain ⟨pre'', s, post'', hss'', hpre, hs⟩ := h.symm.exists_segment hss'
      obtain ⟨l'', rfl⟩ := Segment.exists_line_of_hushed hs
      rw [← size_of_hushed hpre] at hindex ⊢
      exact misledIndex_inj hss hss'' hindex
    rwa [hsame]
  · rw [indexBetween_plain hj' hblank' fun start' hmisled' => hother ⟨start', hmisled'⟩, ← h.plainIndex] at hindex
    exact absurd hindex (misledIndex_ne_plainIndex hmisled)

theorem Reworded.index_of_decided (h : Reworded t u)
    (hdecided : (j.index? (masked t)).isSome = true ∨ (masked t).allBlank = false) :
    indexBetween t j = indexBetween u j := by
  have hsize : t.size = u.size := by rw [← size_masked, h.rest, size_masked]
  unfold indexBetween
  rw [← h.rest]
  cases hj : j.index? (masked t) with
  | some i => exact h.snap i
  | none =>
    have hcode : (masked t).allBlank = false := hdecided.resolve_left (by rw [hj]; decide)
    rw [← Rule.find?_congr h.rest hcode, hsize]
    exact h.snap _

theorem Reworded.index_of_misleads (h : Reworded t u) (hj : j.index? (masked t) = none)
    (hblank : (masked t).allBlank = true) (hmisled : ∀ start, Misleads t start ↔ Misleads u start) :
    indexBetween t j = indexBetween u j := by
  have hj' : j.index? (masked u) = none := by rw [← h.rest, hj]
  have hblank' : (masked u).allBlank = true := by rw [← h.rest, hblank]
  by_cases hany : ∃ start, Misleads t start
  · obtain ⟨start, hstart⟩ := hany
    rw [indexBetween_misled hj hblank hstart, indexBetween_misled hj' hblank' ((hmisled start).mp hstart), h.rest]
  · have hnone : ∀ start, ¬Misleads t start := fun start hstart => hany ⟨start, hstart⟩
    have hnone' : ∀ start, ¬Misleads u start := fun start => mt (hmisled start).mpr (hnone start)
    rw [indexBetween_plain hj hblank hnone, indexBetween_plain hj' hblank' hnone', h.plainIndex]

/-- Rewording comments leaves the place where a gap is divided as it is if and only if the neighbours decide, or there
is code in the gap, or the same comment misleads both gaps, if any does. -/
theorem reworded_index_iff (h : Reworded t u) (j : Junction) : indexBetween t j = indexBetween u j ↔
    (j.index? (masked t)).isSome = true ∨ (masked t).allBlank = false ∨
      ∀ start, Misleads t start ↔ Misleads u start := by
  rcases Option.eq_none_or_eq_some (j.index? (masked t)) with hj | ⟨i, hj⟩
  · rcases Bool.eq_false_or_eq_true (masked t).allBlank with hblank | hcode
    · have hj' : j.index? (masked u) = none := by rw [← h.rest, hj]
      have hblank' : (masked u).allBlank = true := by rw [← h.rest, hblank]
      simp only [hj, hblank, Option.isSome_none, Bool.false_eq_true, Bool.true_eq_false, false_or]
      constructor
      · exact fun hindex start => ⟨h.misleads hj hblank hindex, h.symm.misleads hj' hblank' hindex.symm⟩
      · exact h.index_of_misleads hj hblank
    · exact iff_of_true (h.index_of_decided (.inr hcode)) (.inr (.inl hcode))
  · have hsome : (j.index? (masked t)).isSome = true := by rw [hj, Option.isSome_some]
    exact iff_of_true (h.index_of_decided (.inl hsome)) (.inl hsome)

end Both

/-- Words that do not open a block comment may be exchanged, and those that do too if both do. -/
theorem reworded_remark :
    let t := ['\n', '/', '/', ' ', '/', '*', 'a', '\n']
    let u := ['\n', '/', '/', ' ', '/', '*', 'b', '\n']
    Reworded t u ∧ indexBetween t twoNames = indexBetween u twoNames ∧
      ∀ start, Misleads t start ↔ Misleads u start := by
  intro t u
  have hreworded : Reworded t u := ⟨by decide +kernel, by decide +kernel, by decide +kernel⟩
  have hindex : indexBetween t twoNames = indexBetween u twoNames := by decide +kernel
  refine ⟨hreworded, hindex, ?_⟩
  rcases (reworded_index_iff hreworded twoNames).mp hindex with hsome | hcode | hmisled
  · exact absurd hsome (by decide +kernel)
  · exact absurd hcode (by decide +kernel)
  · exact hmisled

/-- In a comment to the end of the line, a mark that opens block comments moves the division. -/
theorem remark_decides :
    let t := ['\n', '/', '/', ' ', '/', '*', '\n']
    let u := ['\n', '/', '/', ' ', 'a', 'b', '\n']
    Reworded t u ∧ indexBetween t twoNames = 1 ∧ indexBetween u twoNames = 0 :=
  ⟨⟨by decide +kernel, by decide +kernel, by decide +kernel⟩, by decide +kernel, by decide +kernel⟩

end Reprint.Gap
