import Reprint.Proofs.Sides
/-!
Line breaks of two characters, a carriage return and a line feed. A comment to the end of the line ends ahead of the
line feed, so the carriage return in between belongs to the comment, and blanked out it cannot be told from a space.
Wherever a gap is divided at such a line feed, the two characters end up on different sides. No other line break is
torn.
-/

namespace Reprint.Gap
open Text

/-- An offset between a carriage return and the line feed behind it. -/
def Tears (t : Text) (k : Nat) : Prop := ∃ a b, t = a ++ '\r' :: '\n' :: b ∧ k = size a + 1

/-- A comment that ends between a carriage return and its line feed. -/
def Swallows (t : Text) (start stop : Nat) : Prop := (start, stop) ∈ comments t ∧ Tears t stop

/-- An offset at the end of a comment that swallows a carriage return, or inside of such a comment if it does not stand
on a line of its own. -/
def Reaches (t : Text) (i : Nat) : Prop :=
  ∃ start stop, Swallows t start stop ∧ start < i ∧ i ≤ stop ∧ (i < stop → onOwnLine t start = false)

theorem getLast?_append {a b : Text} (hb : b ≠ []) : (a ++ b).getLast? = b.getLast? := by
  rw [List.getLast?_append, List.getLast?_eq_some_getLast hb]
  rfl

theorem tears_append_iff {a b : Text} : Tears (a ++ b) (size a) ↔ a.getLast? = some '\r' ∧ b.head? = some '\n' := by
  constructor
  · rintro ⟨x, y, htext, hsize⟩
    obtain ⟨rfl, rfl⟩ := append_eq_append_of_size_eq (c := x ++ ['\r']) (d := '\n' :: y) (by simpa using htext)
      (by rw [hsize, size_append]; rfl)
    exact ⟨List.getLast?_concat, rfl⟩
  · rintro ⟨ha, hb⟩
    obtain ⟨x, rfl⟩ := List.getLast?_eq_some_iff.mp ha
    obtain ⟨y, rfl⟩ := List.head?_eq_some_iff.mp hb
    exact ⟨x, y, by simp, by rw [size_append]; rfl⟩

/-! ### At cuts -/

section Cut
variable {t : Text} {ss ss' pre post : List Segment} {s : Segment} {start stop i : Nat}

theorem tears_cut (h : segments t = ss ++ ss') :
    Tears t (size (raws ss)) ↔ (raws ss).getLast? = some '\r' ∧ (raws ss').head? = some '\n' := by
  rw [(segments_raws_right h).2]
  exact tears_append_iff

theorem head?_of_comment (h : segments t = pre ++ s :: post) (hs : s.isComment = true) :
    (raws (s :: post)).head? = some '/' := by
  obtain ⟨u, hu⟩ := List.head?_eq_some_iff.mp (head?_raw_of_comment (by rw [h]; simp) hs)
  rw [raws_cons, hu]
  rfl

/-- A line feed behind a cut is no comment. -/
theorem lineFeed_of_head? (h : segments t = ss ++ ss') (hhead : (raws ss').head? = some '\n') :
    ∃ post, ss' = .code '\n' :: post := by
  rcases ss' with _ | ⟨s, post⟩
  · cases hhead
  · rcases Bool.eq_false_or_eq_true s.isComment with hs | hs
    · rw [head?_of_comment h hs] at hhead
      cases hhead
    · cases s with
      | code c =>
        cases hhead
        exact ⟨post, rfl⟩
      | line l => cases hs
      | block l => cases hs

theorem getLast?_raws (h : segments t = (pre ++ [s]) ++ post) : (raws (pre ++ [s])).getLast? = s.raw.getLast? := by
  have hne : s.raw ≠ [] := raw_ne_nil (by rw [h]; simp)
  rw [raws_append, raws_cons, raws_nil, List.append_nil, getLast?_append hne]

/-- A comment that swallows a carriage return goes on to the end of its line. -/
theorem Swallows.exists_line (h : Swallows t start stop) : ∃ pre l post,
    segments t = pre ++ .line l :: .code '\n' :: post ∧ start = size (raws pre) ∧ stop = start + size l := by
  obtain ⟨hmem, htears⟩ := h
  obtain ⟨pre, s, post, hss, hs, hstart, hstop⟩ := mem_commentsFrom.mp hmem
  rw [Nat.zero_add] at hstart
  have hcut : segments t = (pre ++ [s]) ++ post := by rw [hss]; simp
  have hsize : stop = size (raws (pre ++ [s])) := by rw [hstop, hstart]; simp
  rw [hsize] at htears
  obtain ⟨hreturn, hfeed⟩ := (tears_cut hcut).mp htears
  obtain ⟨post, rfl⟩ := lineFeed_of_head? hcut hfeed
  cases s with
  | code c => cases hs
  | line l => exact ⟨pre, l, post, hss, hstart, hstop⟩
  | block l =>
    rw [getLast?_raws hcut] at hreturn
    have hlast := getLast?_block (segments_raws_right hss).1
    cases hreturn.symm.trans hlast

/-- Once comments are blanked out, a space stands ahead of each offset inside a comment that swallows a carriage return,
and at its end. -/
theorem Swallows.around {a b : Text} (h : Swallows t start stop) (hmask : masked t = a ++ b) (hlow : start < size a)
    (hhigh : size a ≤ stop) :
    a.getLast? = some ' ' ∧ ((size a = stop ∧ b.head? = some '\n') ∨ (size a < stop ∧ b.head? = some ' ')) := by
  obtain ⟨pre, l, post, hss, rfl, rfl⟩ := h.exists_line
  obtain ⟨n, hlast, rfl, hsize⟩ := around_line hss hmask hlow hhigh
  refine ⟨hlast, ?_⟩
  cases n with
  | zero => exact .inl ⟨by omega, rfl⟩
  | succ n => exact .inr ⟨by omega, rfl⟩

theorem Swallows.lt (h : Swallows t start stop) : start < stop := by
  obtain ⟨pre, l, post, hss, rfl, rfl⟩ := h.exists_line
  have hpos : 0 < size l := size_raw_pos (s := .line l) (by rw [hss]; simp)
  omega

theorem Swallows.at_end {a b : Text} (h : Swallows t start (size a)) (hmask : masked t = a ++ b) :
    a.getLast? = some ' ' ∧ b.head? = some '\n' := by
  obtain ⟨hspace, ⟨-, hfeed⟩ | ⟨hlt, -⟩⟩ := h.around hmask h.lt (Nat.le_refl _)
  · exact ⟨hspace, hfeed⟩
  · exact absurd hlt (Nat.lt_irrefl _)

/-- What looks like a torn line break with comments blanked out is one: both characters are code. -/
theorem Tears.of_masked (h : Tears (masked t) i) : Tears t i := by
  obtain ⟨a, b, hmask, rfl⟩ := h
  obtain ⟨ss, ss', hss, rfl, hrest⟩ := masks_split_code (by decide) (by decide) hmask
  have hcut : segments t = (ss ++ [.code '\r']) ++ ss' := by rw [hss]; simp
  have hfeed : (raws ss').head? = some '\n' := by
    rcases ss' with _ | ⟨s, ss'⟩
    · cases hrest
    · cases s with
      | code c =>
        cases hrest
        rfl
      | line l =>
        obtain ⟨u, rfl, -⟩ := raw_of_segments_eq_cons (segments_raws_right hcut).1
        cases hrest
      | block l =>
        obtain ⟨u, rfl⟩ := raw_of_segments_eq_cons (segments_raws_right hcut).1
        cases hrest
  have htears := (tears_cut hcut).mpr ⟨by rw [getLast?_raws hcut]; rfl, hfeed⟩
  rwa [raws_append, size_append, ← size_masks] at htears

/-- Moved out of comments, an offset tears a line break only where a comment has swallowed the carriage return. -/
theorem tears_snap_iff (hi : t.isBoundary i ∨ (masked t).isBoundary i) (hkept : ¬Tears (masked t) i) :
    Tears t (snap t i) ↔ Reaches t i := by
  constructor
  · intro htears
    rcases snap_cases t i with ⟨hsnap, -⟩ | ⟨pre, s, post, hss, hs, hlow, hhigh, ⟨-, hsnap⟩ | ⟨hown, hsnap⟩⟩
    · obtain ⟨ss, ss', hss, hcut⟩ := isCut_snap hi
      obtain rfl : i = size (raws ss) := hsnap.symm.trans hcut
      rw [hsnap] at htears
      obtain ⟨hreturn, hfeed⟩ := (tears_cut hss).mp htears
      obtain ⟨post, rfl⟩ := lineFeed_of_head? hss hfeed
      rcases List.eq_nil_or_concat ss with rfl | ⟨pre, s, rfl⟩
      · cases hreturn
      rw [List.concat_eq_append] at *
      have hseg : segments t = pre ++ s :: .code '\n' :: post := by rw [hss]; simp
      have hpos : 0 < size s.raw := size_raw_pos (by rw [hseg]; simp)
      rw [getLast?_raws hss] at hreturn
      cases s with
      | code c =>
        -- Two characters of code stand there with comments blanked out, too.
        cases hreturn
        refine absurd ?_ hkept
        rw [masked_cut hss, ← size_masks]
        exact tears_append_iff.mpr ⟨by rw [masks_append]; exact List.getLast?_concat, rfl⟩
      | line l => exact ⟨_, _, ⟨mem_comments hseg rfl, htears⟩, by simp; omega, Nat.le_refl _, fun h => by omega⟩
      | block l => exact ⟨_, _, ⟨mem_comments hseg rfl, htears⟩, by simp; omega, Nat.le_refl _, fun h => by omega⟩
    · rw [hsnap] at htears
      have hfeed := ((tears_cut hss).mp htears).2
      rw [head?_of_comment hss hs] at hfeed
      cases hfeed
    · have hstop : size (raws pre) + size s.raw = size (raws (pre ++ [s])) := by simp
      rw [hsnap, hstop] at htears
      exact ⟨_, _, ⟨mem_comments hss hs, htears⟩, hlow, by omega, fun _ => hown⟩
  · rintro ⟨start, stop, ⟨hmem, htears⟩, hlow, hhigh, hown⟩
    obtain ⟨pre, s, post, hss, hs, hstart, hstop⟩ := mem_commentsFrom.mp hmem
    rw [Nat.zero_add] at hstart
    subst hstart hstop
    rcases Nat.lt_or_eq_of_le hhigh with hlt | rfl
    · rwa [snap_inside hss hs hlow hlt, hown hlt, if_neg (by decide)]
    · rwa [snap_of_isCut ⟨pre ++ [s], post, by simp [hss], by simp⟩]

end Cut

/-! ### Where marks stand -/

/-- A mark that leaves line breaks whole at the first place where it stands. -/
def KeepsBreaks (mark : Mark) : Prop := ∀ t i, mark.first? t = some i → ¬Tears t i

section Marks
variable {c : Char} {w : Text}

theorem keepsBreaks_of_parts {mark : Mark} (h : ∀ before b n, mark before b = some n → ∃ x y, b = x ++ y ∧ n = size x ∧
    ((x ≠ [] ∧ x.getLast? ≠ some '\r') ∨ y.head? ≠ some '\n')) : KeepsBreaks mark := by
  intro t i hfirst htears
  obtain ⟨a, b, n, rfl, hmark, rfl, -⟩ := firstFrom_eq_some hfirst
  obtain ⟨x, y, rfl, rfl, hedge⟩ := h _ b n hmark
  rw [Nat.zero_add, ← size_append, ← List.append_assoc] at htears
  obtain ⟨hreturn, hfeed⟩ := tears_append_iff.mp htears
  rcases hedge with ⟨hne, hlast⟩ | hhead
  · rw [getLast?_append hne] at hreturn
    exact hlast hreturn
  · exact hhead hfeed

theorem keepsBreaks_word (hc : c ≠ '\n') : KeepsBreaks (.word (c :: w)) := by
  refine keepsBreaks_of_parts fun before b n h => ?_
  obtain ⟨rfl, -, rest, rfl⟩ := word_eq_some h
  exact ⟨[], _, rfl, rfl, .inr (by simpa using hc)⟩

theorem keepsBreaks_matchWord : KeepsBreaks .matchWord := by
  refine keepsBreaks_of_parts fun before b n h => ?_
  obtain ⟨c, rest, rfl, -, rfl⟩ := matchWord_eq_some h
  exact ⟨[c], _, rfl, by simp, .inr (by simp)⟩

theorem keepsBreaks_ahead (hc : c ≠ '\n') : KeepsBreaks (.ahead (c :: w)) := by
  refine keepsBreaks_of_parts fun before b n h => ?_
  obtain ⟨rfl, rest, rfl⟩ := ahead_eq_some h
  exact ⟨[], _, rfl, rfl, .inr (by simpa using hc)⟩

theorem keepsBreaks_behind (hc : c ≠ '\r') : KeepsBreaks (.behind [c]) := by
  refine keepsBreaks_of_parts fun before b n h => ?_
  obtain ⟨rfl, rest, rfl⟩ := behind_eq_some h
  exact ⟨[c], rest, rfl, rfl, .inl ⟨by simp, by simpa using hc⟩⟩

theorem head?_trimStart (t : Text) : t.trimStart.head? ≠ some '\n' := fun h => by
  cases isBlank_of_head?_trimStart h

theorem keepsBreaks_spaced (w : Text) : KeepsBreaks (.spaced w) := by
  refine keepsBreaks_of_parts fun before b n h => ?_
  obtain ⟨rest, rfl, rfl⟩ := spaced_eq_some h
  exact ⟨_, trimStart rest, by rw [List.append_assoc, leadingBlanks_append_trimStart], rfl, .inr (head?_trimStart rest)⟩

theorem keepsBreaks_emptyParens : KeepsBreaks .emptyParens := by
  refine keepsBreaks_of_parts fun before b n h => ?_
  obtain ⟨a, rest, rfl, rfl⟩ := emptyParens_eq_some h
  refine ⟨_, trimStart rest, ?_, rfl, .inr (head?_trimStart rest)⟩
  rw [List.append_assoc, List.cons_append (a := ')'), leadingBlanks_append_trimStart]

/-- A mark that stands ahead of a line break stands ahead of both of its characters first. -/
theorem keepsBreaks_of_lineBreak {mark : Mark} (hzero : ∀ before b n, mark before b = some n → n = 0)
    (hreturn : ∀ before before' b n, mark before ('\n' :: b) = some n → mark before' ('\r' :: '\n' :: b) = some n) :
    KeepsBreaks mark := by
  intro t i hfirst htears
  obtain ⟨a, b, n, rfl, hmark, rfl, hnone⟩ := firstFrom_eq_some hfirst
  obtain rfl := hzero _ _ _ hmark
  rw [Nat.zero_add, Nat.add_zero] at htears
  obtain ⟨ha, hb⟩ := tears_append_iff.mp htears
  obtain ⟨x, rfl⟩ := List.getLast?_eq_some_iff.mp ha
  obtain ⟨y, rfl⟩ := List.head?_eq_some_iff.mp hb
  cases (hnone x '\r' [] rfl).symm.trans (hreturn _ _ _ _ hmark)

theorem keepsBreaks_lineBreak : KeepsBreaks .lineBreak :=
  keepsBreaks_of_lineBreak (fun _ _ _ h => (lineBreak_eq_some h).1) fun _ _ _ _ h => h

theorem keepsBreaks_importLine : KeepsBreaks .importLine :=
  keepsBreaks_of_lineBreak (fun _ _ _ h => (importLine_eq_some h).1) fun _ _ _ _ h => h

theorem keepsBreaks_of_mem_all {r : Rule} (h : r ∈ Rule.all) : KeepsBreaks r.mark := by
  simp only [Rule.all, List.mem_cons, List.not_mem_nil, or_false] at h
  rcases h with rfl | rfl | rfl | rfl | rfl | rfl | rfl | rfl | rfl | rfl | rfl | rfl | rfl | rfl
  · exact keepsBreaks_word (by decide)
  · exact keepsBreaks_matchWord
  · exact keepsBreaks_ahead (by decide)
  · exact keepsBreaks_word (by decide)
  · exact keepsBreaks_spaced _
  · exact keepsBreaks_emptyParens
  · exact keepsBreaks_behind (by decide)
  · exact keepsBreaks_spaced _
  · exact keepsBreaks_behind (by decide)
  · exact keepsBreaks_ahead (by decide)
  · exact keepsBreaks_importLine
  · exact keepsBreaks_lineBreak
  · exact keepsBreaks_ahead (by decide)
  · exact keepsBreaks_ahead (by decide)

end Marks

/-! ### Where gaps are divided -/

section Places
variable {t a b : Text} {i start stop : Nat}

/-- An offset with no space on both sides, and with no line break across it. -/
def Firm (m : Text) (i : Nat) : Prop := ∃ a b, m = a ++ b ∧ i = size a ∧
  ¬(a.getLast? = some '\r' ∧ b.head? = some '\n') ∧ ¬(a.getLast? = some ' ' ∧ b.head? = some ' ')

theorem firm_of_last (h : ∀ c, a.getLast? = some c → isBlank c = false) : Firm (a ++ b) (size a) := by
  refine ⟨a, b, rfl, rfl, fun hedge => ?_, fun hedge => ?_⟩ <;> cases h _ hedge.1

theorem firm_of_head (h : ∀ c, b.head? = some c → c ≠ ' ' ∧ c ≠ '\n') : Firm (a ++ b) (size a) :=
  ⟨a, b, rfl, rfl, fun hb => (h _ hb.2).2 rfl, fun hb => (h _ hb.2).1 rfl⟩

theorem firm_lineBreakAt (a b : Text) : Firm (a ++ '\n' :: b) (lineBreakAt (a ++ '\n' :: b) (size a)) := by
  rcases lineBreakAt_cases a b with ⟨x, rfl, hindex⟩ | ⟨hlast, hindex⟩ <;> rw [hindex]
  · rw [List.append_assoc]
    refine firm_of_head fun c hc => ?_
    cases hc
    decide
  · exact ⟨a, '\n' :: b, rfl, rfl, fun hedge => hlast hedge.1, fun hedge => by cases hedge.2⟩

theorem Junction.firm_index? {j : Junction} (h : j.index? t = some i) : Firm t i := by
  rcases index?_cases h with rfl | ⟨a, b, rfl, rfl⟩ | ⟨a, b, rfl, rfl⟩ | ⟨a, c, b, rfl, rfl, hc⟩
  · exact firm_of_last (a := []) nofun
  · have hfirm : Firm (a ++ ['{'] ++ b) (size (a ++ ['{'])) := firm_of_last fun c hlast => by
      rw [List.getLast?_concat] at hlast
      cases hlast
      rfl
    rwa [List.append_assoc, size_append] at hfirm
  · exact firm_lineBreakAt a b
  · refine firm_of_head fun d hd => ?_
    cases hd
    constructor <;> rintro rfl <;> simp at hc

/-- From a firm offset a line break is torn just where a comment has swallowed the carriage return. -/
theorem Firm.tears_snap_iff (h : Firm (masked t) i) : Tears t (snap t i) ↔ ∃ start, Swallows t start i := by
  obtain ⟨a, b, hmask, rfl, hkept, hspace⟩ := h
  have hwhole : ¬Tears (masked t) (size a) := by
    rw [hmask]
    exact fun htears => hkept (tears_append_iff.mp htears)
  rw [Gap.tears_snap_iff (.inr (isBoundary_iff.mpr ⟨a, b, hmask, rfl⟩)) hwhole]
  constructor
  · rintro ⟨start, stop, hswallows, hlow, hhigh, -⟩
    obtain ⟨hlast, ⟨rfl, -⟩ | ⟨-, hhead⟩⟩ := hswallows.around hmask hlow hhigh
    · exact ⟨start, hswallows⟩
    · exact absurd ⟨hlast, hhead⟩ hspace
  · rintro ⟨start, hswallows⟩
    exact ⟨start, _, hswallows, hswallows.lt, Nat.le_refl _, fun h => absurd h (Nat.lt_irrefl _)⟩

theorem not_tears_indexLeading (parent : Node) (t : Text) : ¬Tears t (indexLeading parent t) := by
  obtain ⟨a, b, hmask, hindex, hplace⟩ := indexLeading_cases parent t
  have hfirm : Firm (masked t) (size a) := by
    rw [hmask]
    rcases hplace with rfl | hlast
    · exact firm_of_head nofun
    · exact firm_of_last hlast
  rw [hindex, hfirm.tears_snap_iff]
  rintro ⟨start, hswallows⟩
  obtain ⟨hspace, hfeed⟩ := hswallows.at_end hmask
  rcases hplace with rfl | hlast
  · cases hfeed
  · cases hlast _ hspace

/-- A line feed behind a swallowed carriage return counts as a line break of its own. -/
theorem swallows_lineBreakAt_iff (hmask : masked t = a ++ '\n' :: b) :
    Swallows t start (lineBreakAt (masked t) (size a)) ↔ Swallows t start (size a) := by
  rw [hmask]
  rcases lineBreakAt_cases a b with ⟨x, rfl, hindex⟩ | ⟨-, hindex⟩ <;> rw [hindex]
  constructor
  · intro h
    cases (h.at_end (b := '\r' :: '\n' :: b) (by rw [hmask]; simp)).2
  · intro h
    have hspace := (h.at_end hmask).1
    rw [List.getLast?_concat] at hspace
    cases hspace

theorem tears_indexTrailing_iff (t : Text) : Tears t (indexTrailing t) ↔
    ∃ start n, findLast? (· == '\n') (masked t).leadingBlanks = some n ∧ Swallows t start n := by
  have hsplit := (leadingBlanks_append_trimStart (masked t)).symm
  rcases indexTrailing_cases t with ⟨a, b, hblanks, hlast, hindex⟩ | ⟨hlast, hindex⟩ <;> rw [hlast, hindex]
  · have hmask : masked t = a ++ '\n' :: (b ++ (masked t).trimStart) := by
      rw [← List.cons_append, ← List.append_assoc, ← hblanks, ← hsplit]
    have hfirm : Firm (masked t) (lineBreakAt (masked t) (size a)) := by
      rw [hmask]
      exact firm_lineBreakAt a _
    rw [hfirm.tears_snap_iff]
    simp only [swallows_lineBreakAt_iff hmask]
    constructor
    · rintro ⟨start, h⟩
      exact ⟨start, _, rfl, h⟩
    · rintro ⟨start, n, hn, h⟩
      cases hn
      exact ⟨start, h⟩
  · -- Code or nothing at all stands there, so no line break does.
    have hfirm : Firm (masked t) (size (masked t).leadingBlanks) := by
      have hfirm : Firm ((masked t).leadingBlanks ++ (masked t).trimStart) (size (masked t).leadingBlanks) :=
        firm_of_head fun c hc => by
          have hc := isBlank_of_head?_trimStart hc
          constructor <;> rintro rfl <;> cases hc
      rwa [← hsplit] at hfirm
    rw [hfirm.tears_snap_iff]
    constructor
    · rintro ⟨start, h⟩
      cases isBlank_of_head?_trimStart (h.at_end hsplit).2
    · rintro ⟨start, n, hn, -⟩
      cases hn

theorem tears_rule_iff {r : Rule} (h : Rule.find? t = some (r, i)) : Tears t (snap t i) ↔ Reaches t i := by
  obtain ⟨hr, hindex⟩ := Rule.find?_inv h
  have hfirst := keepsBreaks_of_mem_all hr _ _ (Rule.index?_inv hindex).1
  refine tears_snap_iff ((between_of_rule h).imp Between.isBoundary Between.isBoundary) fun htears => ?_
  split at hfirst
  · exact hfirst htears.of_masked
  · exact hfirst htears

theorem tears_indexBetween_iff (t : Text) (j : Junction) : Tears t (indexBetween t j) ↔
    (∃ start i, j.index? (masked t) = some i ∧ Swallows t start i) ∨
      (∃ r i, j.index? (masked t) = none ∧ Rule.find? t = some (r, i) ∧ Reaches t i) := by
  unfold indexBetween
  cases hj : j.index? (masked t) with
  | some i =>
    rw [(Junction.firm_index? hj).tears_snap_iff]
    constructor
    · rintro ⟨start, h⟩
      exact .inl ⟨start, i, rfl, h⟩
    · rintro (⟨start, i', hi', h⟩ | ⟨-, -, hnone, -⟩)
      · cases hi'
        exact ⟨start, h⟩
      · cases hnone
  | none =>
    cases hfind : Rule.find? t with
    | some found =>
      obtain ⟨r, i⟩ := found
      rw [tears_rule_iff hfind]
      constructor
      · exact fun h => .inr ⟨r, i, rfl, rfl, h⟩
      · rintro (⟨_, _, hsome, -⟩ | ⟨r', i', -, hfound, h⟩)
        · cases hsome
        · cases hfound
          exact h
    | none =>
      -- Behind the whole gap there is no line feed.
      have hend : ¬Tears t (snap t t.size) := by
        rw [snap_of_isCut (isCut_size t)]
        rintro ⟨a, b, htext, hsize⟩
        have := congrArg size htext
        simp only [size_append, size_cons] at this
        have hreturn : '\r'.utf8Size = 1 := rfl
        have hfeed : '\n'.utf8Size = 1 := rfl
        omega
      refine iff_of_false hend ?_
      rintro (⟨_, _, hsome, -⟩ | ⟨_, _, -, hfound, -⟩)
      · cases hsome
      · cases hfound

/-- Line breaks are torn just where a comment has swallowed the carriage return. Ahead of a first child that never
happens. Behind a last child it happens where the last line feed ahead of code is the one behind such a comment. Between
siblings it happens where the neighbours choose the line feed behind such a comment, or where a rule chooses it or an
offset inside of such a comment that does not stand on a line of its own. -/
theorem line_breaks_torn_iff (t : Text) (j : Junction) (parent : Node) :
    ¬Tears t (indexLeading parent t) ∧
    (Tears t (indexTrailing t) ↔
      ∃ start n, findLast? (· == '\n') (masked t).leadingBlanks = some n ∧ Swallows t start n) ∧
    (Tears t (indexBetween t j) ↔
      (∃ start i, j.index? (masked t) = some i ∧ Swallows t start i) ∨
        (∃ r i, j.index? (masked t) = none ∧ Rule.find? t = some (r, i) ∧ Reaches t i)) :=
  ⟨not_tears_indexLeading parent t, tears_indexTrailing_iff t, tears_indexBetween_iff t j⟩

end Places

/-- Two names in a block, one behind the other. -/
def twoNames : Junction where
  parent := .mk (.built 2) (some (.range "A.scala" 0 3)) (.block
    [.mk (.built 0) (some (.range "A.scala" 0 1)) (.ident "a"),
     .mk (.built 1) (some (.range "A.scala" 2 3)) (.ident "b")])
  left := .mk (.built 0) (some (.range "A.scala" 0 1)) (.ident "a")
  right := .mk (.built 1) (some (.range "A.scala" 2 3)) (.ident "b")

/-- Behind a remark the line break is torn, between two statements as well as behind the last one. -/
theorem line_break_torn_behind_remark :
    let gap := [' ', '/', '/', ' ', 'c', '\r', '\n', ' ', ' ']
    Tears gap (indexBetween gap twoNames) ∧ Tears gap (indexTrailing gap) := by
  intro gap
  have hbetween : indexBetween gap twoNames = 6 := by decide +kernel
  have htrailing : indexTrailing gap = 6 := by decide +kernel
  rw [hbetween, htrailing]
  exact ⟨⟨[' ', '/', '/', ' ', 'c'], [' ', ' '], rfl, rfl⟩, [' ', '/', '/', ' ', 'c'], [' ', ' '], rfl, rfl⟩

end Reprint.Gap
