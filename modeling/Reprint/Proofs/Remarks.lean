import Reprint.Proofs.PlainGaps
/-!
Comments behind statements. A remark is a comment to the end of the line with one blank ahead of it, or nothing at all.
Where a gap begins with a remark and a line break, it is divided between the two, whatever the remark says: the remark
stays with what stands ahead of it, and what follows begins with the line break. Main statements: `splitBetween_remark`
and `splitTrailing_remark`.
-/

namespace Reprint.Gap
open Text

/-- A comment to the end of the line with a blank ahead of it, or nothing. -/
inductive Remark : Text → Prop where
  | none : Remark []
  | line {body : Text} : '\n' ∉ body → Remark (' ' :: '/' :: '/' :: body)

section Remark
variable {t w : Text} {i : Nat}

theorem Remark.not_mem (h : Remark t) : '\n' ∉ t := by
  cases h with
  | none => exact List.not_mem_nil
  | line hbody => simpa using hbody

/-! ### The segments of a remark -/

theorem segments_line_newline {body : Text} (hbody : '\n' ∉ body) (w : Text) :
    segments (' ' :: '/' :: '/' :: body ++ '\n' :: w) =
      [.code ' ', .line ('/' :: '/' :: body)] ++ segments ('\n' :: w) := by
  have hline : ∀ c ∈ body, inLine c = true := fun c hc => by
    rw [inLine, bne_iff_ne]
    rintro rfl
    exact hbody hc
  obtain ⟨htake, hdrop⟩ := takeWhile_inLine hline (y := '\n' :: w) fun c hc => by
    cases hc
    rfl
  show segments (' ' :: '/' :: '/' :: (body ++ '\n' :: w)) = _
  rw [segments_code fun h => absurd h (by decide), segments_line, htake, hdrop]
  rfl

/-- A remark is cut off ahead of the line break, and blanked out it is nothing but spaces. -/
theorem Remark.exists_segments (h : Remark t) (w : Text) : ∃ ss,
    segments (t ++ '\n' :: w) = ss ++ segments ('\n' :: w) ∧ raws ss = t ∧ ∀ c ∈ masks ss, c = ' ' := by
  cases h with
  | none => exact ⟨[], rfl, rfl, List.forall_mem_nil _⟩
  | @line body hbody =>
    refine ⟨_, segments_line_newline hbody w, by simp [Segment.raw], fun c hc => ?_⟩
    have hc : c ∈ [' '] ++ ('/' :: '/' :: body).flatMap Segment.blankOut := by
      simpa [masks, Segment.masked] using hc
    rcases List.mem_append.mp hc with hc | hc
    · exact List.mem_singleton.mp hc
    · obtain ⟨d, hd, hc⟩ := List.mem_flatMap.mp hc
      have hline : d ≠ '\n' := by
        rintro rfl
        exact hbody (by simpa using hd)
      rw [Segment.blankOut, if_neg hline] at hc
      exact (List.mem_replicate.mp hc).2

theorem isCut_remark (h : Remark t) (w : Text) : IsCut (t ++ '\n' :: w) (size t) := by
  obtain ⟨ss, hss, rfl, -⟩ := h.exists_segments w
  exact ⟨ss, _, hss, rfl⟩

theorem lineBreakAt_spaces {m : Text} (hm : ∀ c ∈ m, c = ' ') (w : Text) :
    lineBreakAt (m ++ '\n' :: w) (size m) = size m := by
  rcases lineBreakAt_cases m w with ⟨x, rfl, -⟩ | ⟨-, hindex⟩
  · cases hm '\r' (by simp)
  · exact hindex

/-- With its comments blanked out, a remark is nothing but spaces. -/
theorem masked_remark (h : Remark t) (hw : '/' ∉ w) :
    ∃ m, masked (t ++ '\n' :: w) = m ++ '\n' :: w ∧ size m = size t ∧ ∀ c ∈ m, c = ' ' := by
  obtain ⟨ss, hss, rfl, hspaces⟩ := h.exists_segments w
  refine ⟨masks ss, ?_, size_masks ss, hspaces⟩
  have hrest : masks (segments ('\n' :: w)) = '\n' :: w := masked_plain (by simpa using hw)
  rw [masked_cut hss, hrest]

/-- An offset inside a remark is moved behind it: a remark never stands on a line of its own. -/
theorem snap_remark (h : Remark t) (hi : i = size t ∨ (1 < i ∧ i < size t)) : snap (t ++ '\n' :: w) i = size t := by
  rcases hi with rfl | ⟨hlow, hhigh⟩
  · exact snap_of_isCut (isCut_remark h w)
  · cases h with
    | none => cases hhigh
    | @line body hbody =>
      have hsize : size (' ' :: '/' :: '/' :: body) = 1 + size ('/' :: '/' :: body) := rfl
      have hmem : (1, 1 + size ('/' :: '/' :: body)) ∈ comments (' ' :: '/' :: '/' :: body ++ '\n' :: w) := by
        rw [comments, segments_line_newline hbody]
        exact List.mem_cons_self ..
      have hown : onOwnLine (' ' :: '/' :: '/' :: body ++ '\n' :: w) 1 = false := by
        have hahead : before (' ' :: '/' :: '/' :: body ++ '\n' :: w) 1 = [' '] :=
          before_append_size [' '] ('/' :: '/' :: body ++ '\n' :: w)
        rw [onOwnLine, hahead]
        rfl
      rw [hsize] at hhigh ⊢
      rw [snap_of_inside hmem ⟨hlow, hhigh⟩, hown, if_neg (by decide)]

/-- A gap that begins with a remark and a line break falls apart between the two. -/
theorem divide_remark (h : Remark t) (hw : '/' ∉ w) (hcomma : ',' ∉ w) :
    divide (t ++ '\n' :: w) (size t) = (t, '\n' :: w) := by
  obtain ⟨m, hmask, hsize, hspaces⟩ := masked_remark h hw
  have hblank : Text.trimEnd m = [] := by
    have hall : Text.allBlank m.reverse = true := List.all_eq_true.mpr fun c hc => by
      rw [hspaces c (List.mem_reverse.mp hc)]
      rfl
    exact congrArg List.reverse (trimStart_blank hall)
  have hright : ¬(Text.trimStart ('\n' :: w)).head? = some ',' := fun hhead => by
    have hmem := (List.dropWhile_sublist isBlank).subset (List.mem_of_head? hhead)
    rcases List.mem_cons.mp hmem with heq | hmem
    · cases heq
    · exact hcomma hmem
  rw [divide, leftOf, rightOf, hmask, ← hsize, before_append_size, after_append_size, hblank, if_neg (by decide),
    if_neg hright, hsize, before_append_size, after_append_size]

/-! ### Between statements -/

/-- The first line break is that of the first line feed. -/
theorem first?_lineBreak {a : Text} (ha : '\n' ∉ a) (b : Text) :
    Mark.lineBreak.first? (a ++ '\n' :: b) = some (lineBreakAt (a ++ '\n' :: b) (size a)) := by
  cases hfirst : Mark.lineBreak.first? (a ++ '\n' :: b) with
  | none => cases firstFrom_eq_none hfirst
  | some i =>
    obtain ⟨x, y, n, htext, hmark, rfl, hnone⟩ := firstFrom_eq_some hfirst
    obtain ⟨rfl, s, hs⟩ := lineBreak_eq_some hmark
    have hahead : ∀ m, x ≠ a ++ '\n' :: m := fun m hx => by cases hnone a '\n' m hx
    rw [Nat.zero_add, Nat.add_zero]
    rcases afterLineBreak?_eq_some hs with rfl | rfl
    · rcases append_cons_cases htext with ⟨rfl, -, -⟩ | ⟨m, hx, -⟩ | ⟨m, rfl, -⟩
      · rcases lineBreakAt_cases a b with ⟨z, rfl, -⟩ | ⟨-, hindex⟩
        · cases hnone z '\r' [] rfl
        · rw [hindex]
      · exact absurd hx (hahead m)
      · exact absurd (by simp) ha
    · rw [List.append_cons x] at htext
      rcases append_cons_cases htext with ⟨rfl, -, -⟩ | ⟨m, hx, -⟩ | ⟨m, rfl, -⟩
      · rcases lineBreakAt_cases (x ++ ['\r']) b with ⟨z, hz, hindex⟩ | ⟨hlast, -⟩
        · rw [hindex, List.append_cancel_right hz]
        · exact absurd List.getLast?_concat hlast
      · rcases List.eq_nil_or_concat m with rfl | ⟨m, c, rfl⟩
        · cases (List.append_inj_right' hx rfl)
        · rw [List.concat_eq_append, ← List.cons_append, ← List.append_assoc] at hx
          exact absurd (List.append_inj_left' hx rfl) (hahead m)
      · exact absurd (by simp) ha

/-- Where a text first has the mark that opens a block comment. -/
def opening? (t : Text) : Option Nat := Mark.first? (.ahead ['/', '*']) t

/-- Where there is no code at all, a gap is divided at what opens a block comment, or else at its first line break. -/
theorem find?_blank (hblank : (masked t).allBlank = true) :
    (Rule.find? t).map Prod.snd = (opening? t).or (Mark.lineBreak.first? (masked t)) := by
  have habsent : ∀ c, isBlank c = false → c ∉ masked t := fun _ => not_mem_of_allBlank hblank
  have hnone : ∀ rs : List Rule, (∀ r ∈ rs, r.index? t = none) →
      rs.findSome? (fun r => (r.index? t).map fun i => (r, i)) = none := fun rs hrs =>
    List.findSome?_eq_none_iff.mpr fun r hr => by rw [hrs r hr, Option.map_none]
  -- Only two of the rules look for anything but code: those for block comments and for line breaks.
  have hwords : ∀ r ∈ Rule.all.take 2, r.index? t = none := by
    intro r hr
    simp only [Rule.all, List.take_succ_cons, List.take_zero, List.mem_cons, List.not_mem_nil, or_false] at hr
    rcases hr with rfl | rfl
    · exact index?_absent rfl (needs_word (c := 'e') (by decide)) (habsent _ rfl)
    · exact index?_absent rfl needs_matchWord (habsent _ rfl)
  have hmarks : ∀ r ∈ (Rule.all.drop 3).take 8, r.index? t = none := by
    intro r hr
    simp only [Rule.all, List.drop_succ_cons, List.drop_zero, List.take_succ_cons, List.take_zero, List.mem_cons,
      List.not_mem_nil, or_false] at hr
    rcases hr with rfl | rfl | rfl | rfl | rfl | rfl | rfl | rfl
    · exact index?_absent rfl (needs_word (c := 'c') (by decide)) (habsent _ rfl)
    · exact index?_absent rfl (needs_spaced (c := ':') (by decide)) (habsent _ rfl)
    · exact index?_absent rfl needs_emptyParens (habsent _ rfl)
    · exact index?_absent rfl (needs_behind (c := '(') (by decide)) (habsent _ rfl)
    · exact index?_absent rfl (needs_spaced (c := '=') (by decide)) (habsent _ rfl)
    · exact index?_absent rfl (needs_behind (c := ')') (by decide)) (habsent _ rfl)
    · exact index?_absent rfl (needs_ahead (c := '=') (by decide)) (habsent _ rfl)
    · exact index?_absent rfl needs_importLine (habsent _ rfl)
  have hpunctuation : ∀ r ∈ Rule.all.drop 12, r.index? t = none := by
    intro r hr
    simp only [Rule.all, List.drop_succ_cons, List.drop_zero, List.mem_cons, List.not_mem_nil, or_false] at hr
    rcases hr with rfl | rfl
    · exact index?_absent rfl (needs_ahead (c := ',') (by decide)) (habsent _ rfl)
    · exact index?_absent rfl (needs_ahead (c := '.') (by decide)) (habsent _ rfl)
  have hopening : (Rule.all.get ⟨2, by decide⟩).index? t = opening? t := by
    show (opening? t).bind (fun i => if (masked t).allBlank then some i else none) = opening? t
    rw [hblank]
    cases opening? t <;> rfl
  have hbreak : (Rule.all.get ⟨11, by decide⟩).index? t = Mark.lineBreak.first? (masked t) :=
    index?_accepted rfl fun _ => rfl
  have hall : Rule.all = Rule.all.take 2 ++ (Rule.all.get ⟨2, by decide⟩ :: ((Rule.all.drop 3).take 8 ++
      (Rule.all.get ⟨11, by decide⟩ :: Rule.all.drop 12))) := rfl
  rw [Rule.find?, hall, List.findSome?_append, hnone _ hwords, Option.none_or, List.findSome?_cons, hopening,
    List.findSome?_append, hnone _ hmarks, Option.none_or, List.findSome?_cons, hbreak, hnone _ hpunctuation]
  cases opening? t <;> cases Mark.lineBreak.first? (masked t) <;> rfl

theorem indexBetween_blank {j : Junction} (hj : j.index? (masked t) = none) (hblank : (masked t).allBlank = true) :
    indexBetween t j = snap t (((opening? t).or (Mark.lineBreak.first? (masked t))).getD t.size) := by
  rw [indexBetween, hj, ← find?_blank hblank]
  cases Rule.find? t <;> rfl

/-- What looks like the opening of a block comment lies inside the remark. -/
theorem opening?_remark (h : Remark t) (hw : '/' ∉ w)
    (hfirst : opening? (t ++ '\n' :: w) = some i) : 1 < i ∧ i < size t := by
  cases h with
  | none =>
    have hnone : opening? ('\n' :: w) = none :=
      first?_eq_none (needs_ahead (c := '/') (by decide)) (by simpa using hw)
    cases hfirst.symm.trans hnone
  | @line body hbody =>
    -- The blank and the first slash are passed by.
    have hfrom : Mark.firstFrom (.ahead ['/', '*']) (some '/') 2 ('/' :: body ++ '\n' :: w) = some i := hfirst
    obtain ⟨a, b, n, htext, hmark, rfl, -⟩ := firstFrom_eq_some hfrom
    obtain ⟨rfl, rest, rfl⟩ := ahead_eq_some hmark
    have hlt : size a < size ('/' :: body) := by
      refine Nat.lt_of_not_le fun hle => ?_
      obtain ⟨m, -, hrest⟩ := append_eq_append_of_size_le htext hle
      have hmem : '/' ∈ '\n' :: w := by
        rw [hrest]
        simp
      exact hw (by simpa using hmem)
    have hsize : size (' ' :: '/' :: '/' :: body) = 2 + size ('/' :: body) := by
      show 1 + (1 + size ('/' :: body)) = _
      omega
    rw [hsize]
    omega

/-- Between two statements the remark goes to the first one, and the line break to the second one. -/
theorem splitBetween_remark {j : Junction} (h : Remark t) (hw : w.allBlank = true)
    (hj : ∀ code, j.index? code = none) : splitBetween (t ++ '\n' :: w) j = (t, '\n' :: w) := by
  have habsent : ∀ c, isBlank c = false → c ∉ w := fun _ => not_mem_of_allBlank hw
  obtain ⟨m, hmask, hsize, hspaces⟩ := masked_remark h (habsent '/' rfl)
  have hblank : (masked (t ++ '\n' :: w)).allBlank = true := by
    have hm : Text.allBlank m = true := List.all_eq_true.mpr fun c hc => by
      rw [hspaces c hc]
      rfl
    rw [hmask]
    exact allBlank_append.mpr ⟨hm, hw⟩
  have hindex : indexBetween (t ++ '\n' :: w) j = size t := by
    rw [indexBetween_blank (hj _) hblank]
    cases hopening : opening? (t ++ '\n' :: w) with
    | some k => exact snap_remark h (.inr (opening?_remark h (habsent '/' rfl) hopening))
    | none =>
      rw [Option.none_or, hmask, first?_lineBreak (fun hfeed => by cases hspaces _ hfeed), lineBreakAt_spaces hspaces]
      exact snap_remark h (.inl hsize)
  rw [splitBetween, hindex, divide_remark h (habsent '/' rfl) (habsent ',' rfl)]

/-- Behind the last statement the remark goes to the statement, and the line break to the parent. -/
theorem splitTrailing_remark {c : Char} (h : Remark t) (hc : isBlank c = false) (hslash : '/' ∉ c :: w)
    (hcomma : ',' ∉ c :: w) : splitTrailing (t ++ '\n' :: c :: w) = (t, '\n' :: c :: w) := by
  obtain ⟨m, hmask, hsize, hspaces⟩ := masked_remark h hslash
  have hsplit : m ++ '\n' :: c :: w = (m ++ ['\n']) ++ c :: w := by simp
  have hfirst : firstCode? (t ++ '\n' :: c :: w) = some (size (m ++ ['\n'])) := by
    rw [firstCode?, hmask, hsplit]
    refine find?_append_cons (fun d hd => ?_) (by simp [hc])
    rcases List.mem_append.mp hd with hd | hd
    · rw [hspaces d hd]
      rfl
    · rw [List.mem_singleton.mp hd]
      rfl
  have hlast : findLast? (· == '\n') (m ++ ['\n']) = some (size m) := by
    clear hmask hsize hsplit hfirst
    induction m with
    | nil => rfl
    | cons d m ih => rw [List.cons_append, findLast?, ih fun e he => hspaces e (List.mem_cons_of_mem _ he), size_cons]
  have hindex : indexTrailing (t ++ '\n' :: c :: w) = size t := by
    rw [indexTrailing, hfirst, Option.getD_some, hmask, hsplit, before_append_size, hlast]
    show snap _ (lineBreakAt (m ++ ['\n'] ++ c :: w) (size m)) = _
    rw [← hsplit, lineBreakAt_spaces hspaces, hsize]
    exact snap_of_isCut (isCut_remark h _)
  rw [splitTrailing, hindex, divide_remark h hslash hcomma]

end Remark

end Reprint.Gap
