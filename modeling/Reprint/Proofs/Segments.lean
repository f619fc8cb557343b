import Reprint.Layout.Comment
import Reprint.Proofs.Cuts
/-!
Segments of a text, one behind the other. A segment is found by looking at its own text and at most one character
behind it, so a text cut between two segments falls into texts with just these segments. What a text does to
whatever follows it depends on how it ends: in code, in a comment to the end of the line, or in a comment that was
never closed.
-/

namespace Reprint.Gap
open Text

/-- The text of some segments. -/
def raws (ss : List Segment) : Text := ss.flatMap Segment.raw

@[simp] theorem raws_nil : raws [] = [] := rfl

@[simp] theorem raws_cons (s : Segment) (ss : List Segment) : raws (s :: ss) = s.raw ++ raws ss := rfl

@[simp] theorem raws_append (ss ss' : List Segment) : raws (ss ++ ss') = raws ss ++ raws ss' := List.flatMap_append

theorem raws_segments (t : Text) : raws (segments t) = t := segments_raw t

/-! ### Block comments -/

theorem closeBlock_step {depth : Nat} {c : Char} {t : Text} (hopen : ¬(c = '/' ∧ t.head? = some '*'))
    (hclose : ¬(c = '*' ∧ t.head? = some '/')) :
    closeBlock depth (c :: t) = (c :: (closeBlock depth t).1, (closeBlock depth t).2) := by
  rw [closeBlock]
  · rintro t rfl rfl
    exact hopen ⟨rfl, rfl⟩
  · rintro t rfl rfl rfl
    exact hclose ⟨rfl, rfl⟩
  · rintro _ t rfl rfl rfl
    exact hclose ⟨rfl, rfl⟩

theorem head?_closeBlock (depth : Nat) (t y : Text) (h : t ≠ []) :
    ((closeBlock depth t).1 ++ y).head? = t.head? := by
  have hne : (closeBlock depth t).1 ≠ [] := by
    fun_cases closeBlock depth t <;> simp_all
  have happend := congrArg List.head? (closeBlock_append depth t)
  obtain ⟨c, r, hc⟩ := List.exists_cons_of_ne_nil hne
  rw [hc] at happend ⊢
  exact happend

/-- A block comment is closed by its own text, or goes on to the end. -/
theorem closeBlock_cases (depth : Nat) (t : Text) :
    (∀ y, closeBlock depth ((closeBlock depth t).1 ++ y) = ((closeBlock depth t).1, y)) ∨
      (closeBlock depth t = (t, []) ∧
        ∀ c y, c ≠ '/' → c ≠ '*' → ∃ body rest, closeBlock depth (t ++ c :: y) = (t ++ c :: body, rest)) := by
  fun_induction closeBlock depth t with
  | case1 depth =>
    refine .inr ⟨rfl, fun c y hslash hstar => ?_⟩
    exact ⟨_, _, closeBlock_step (fun h => hslash h.1) (fun h => hstar h.1)⟩
  | case3 t => exact .inl fun y => by simp [closeBlock]
  | case2 depth t body rest hbody ih | case4 depth t body rest hbody ih =>
    rw [hbody] at ih
    rcases ih with ih | ⟨heq, ih⟩
    · exact .inl fun y => by simp [closeBlock, ih y]
    · obtain ⟨rfl, rfl⟩ := Prod.mk.inj heq
      refine .inr ⟨rfl, fun c y hslash hstar => ?_⟩
      obtain ⟨body', rest, h⟩ := ih c y hslash hstar
      exact ⟨body', rest, by simp [closeBlock, h]⟩
  | case5 depth c t hopen hclose hclose' body rest hbody ih =>
    have hopen : ¬(c = '/' ∧ t.head? = some '*') := fun ⟨hc, ht⟩ => by
      obtain ⟨t', rfl⟩ := List.head?_eq_some_iff.mp ht
      exact hopen t' hc rfl
    have hclose : ¬(c = '*' ∧ t.head? = some '/') := fun ⟨hc, ht⟩ => by
      obtain ⟨t', rfl⟩ := List.head?_eq_some_iff.mp ht
      cases depth with
      | zero => exact hclose t' rfl hc rfl
      | succ depth => exact hclose' depth t' rfl hc rfl
    -- The first character of what follows is what it was, unless nothing followed before.
    have hfirst : ∀ y, t ≠ [] → (body ++ y).head? = t.head? := by
      intro y hne
      have := head?_closeBlock depth t y hne
      rwa [hbody] at this
    rcases ih with ih | ⟨heq, ih⟩
    · refine .inl fun y => ?_
      have hne : t ≠ [] := by
        rintro rfl
        have := ih ['/']
        simp [closeBlock] at this
      rw [hbody] at ih
      show closeBlock depth (c :: (body ++ y)) = _
      rw [closeBlock_step (by rw [hfirst y hne]; exact hopen) (by rw [hfirst y hne]; exact hclose), ih y]
    · obtain ⟨rfl, rfl⟩ := Prod.mk.inj (hbody.symm.trans heq)
      refine .inr ⟨rfl, fun d y hslash hstar => ?_⟩
      obtain ⟨body', rest, h⟩ := ih d y hslash hstar
      have hhead : ∀ e, e = '/' ∨ e = '*' → (body ++ d :: y).head? = some e → body.head? = some e := by
        intro e he heq'
        cases body with
        | nil =>
          obtain rfl := Option.some.inj heq'
          exact absurd he (not_or.mpr ⟨hslash, hstar⟩)
        | cons => exact heq'
      refine ⟨body', rest, ?_⟩
      show closeBlock depth (c :: (body ++ d :: y)) = _
      rw [closeBlock_step (fun ⟨hc, ht⟩ => hopen ⟨hc, hhead _ (.inr rfl) ht⟩)
        (fun ⟨hc, ht⟩ => hclose ⟨hc, hhead _ (.inl rfl) ht⟩), h]
      rfl

/-- A block comment with something behind it ends in the mark that closes it. -/
theorem getLast?_closeBlock {depth : Nat} {t : Text} (h : (closeBlock depth t).2 ≠ []) :
    (closeBlock depth t).1.getLast? = some '/' := by
  fun_induction closeBlock depth t with
  | case1 => exact absurd rfl h
  | case2 depth t body rest hbody ih =>
    rw [hbody] at ih
    simp [List.getLast?_cons, ih h]
  | case3 t => rfl
  | case4 depth t body rest hbody ih =>
    rw [hbody] at ih
    simp [List.getLast?_cons, ih h]
  | case5 depth c t hopen hclose hclose' body rest hbody ih =>
    rw [hbody] at ih
    simp [List.getLast?_cons, ih h]

/-! ### One segment after the other -/

@[simp] theorem segments_nil : segments [] = [] := by rw [segments]

theorem segments_line (t : Text) : segments ('/' :: '/' :: t) =
    .line ('/' :: '/' :: t.takeWhile inLine) :: segments (t.dropWhile inLine) := by
  rw [segments]

theorem segments_block (t : Text) : segments ('/' :: '*' :: t) =
    .block ('/' :: '*' :: (closeBlock 0 t).1) :: segments (closeBlock 0 t).2 := by
  rw [segments]

theorem head?_ne_of_ne_cons {m : Char} {t : Text} (h : ∀ u, t = m :: u → False) : t.head? ≠ some m := by
  intro hm
  obtain ⟨u, rfl⟩ := List.head?_eq_some_iff.mp hm
  exact h u rfl

theorem segments_code {c : Char} {t : Text} (h : c = '/' → t.head? ≠ some '/' ∧ t.head? ≠ some '*') :
    segments (c :: t) = .code c :: segments t := by
  rw [segments]
  · rintro t rfl rfl
    exact (h rfl).1 rfl
  · rintro t rfl rfl
    exact (h rfl).2 rfl

theorem takeWhile_inLine {l y : Text} (hl : ∀ c ∈ l, inLine c = true) (hy : ∀ c, y.head? = some c → inLine c = false) :
    (l ++ y).takeWhile inLine = l ∧ (l ++ y).dropWhile inLine = y := by
  rw [List.takeWhile_append_of_pos hl, List.dropWhile_append_of_pos hl]
  cases y with
  | nil => simp
  | cons c y => simp [hy c rfl]

/-- The first segment is a comment with the mark that opens it, or a character that opens none. -/
theorem segments_cons_cases {t : Text} {s : Segment} {ss : List Segment} (h : segments t = s :: ss) :
    (∃ u, t = '/' :: '/' :: u ∧ s = .line ('/' :: '/' :: u.takeWhile inLine) ∧ ss = segments (u.dropWhile inLine)) ∨
      (∃ u, t = '/' :: '*' :: u ∧ s = .block ('/' :: '*' :: (closeBlock 0 u).1) ∧ ss = segments (closeBlock 0 u).2) ∨
      (∃ c u, t = c :: u ∧ s = .code c ∧ ss = segments u ∧ (c = '/' → u.head? ≠ some '/' ∧ u.head? ≠ some '*')) := by
  fun_cases segments t with
  | case1 => simp at h
  | case2 u =>
    rw [segments_line] at h
    obtain ⟨rfl, rfl⟩ := List.cons.inj h
    exact .inl ⟨u, rfl, rfl, rfl⟩
  | case3 u =>
    rw [segments_block] at h
    obtain ⟨rfl, rfl⟩ := List.cons.inj h
    exact .inr (.inl ⟨u, rfl, rfl, rfl⟩)
  | case4 c u hline hblock =>
    have hcode : c = '/' → u.head? ≠ some '/' ∧ u.head? ≠ some '*' := fun hc =>
      ⟨head?_ne_of_ne_cons fun u' => hline u' hc, head?_ne_of_ne_cons fun u' => hblock u' hc⟩
    rw [segments_code hcode] at h
    obtain ⟨rfl, rfl⟩ := List.cons.inj h
    exact .inr (.inr ⟨c, u, rfl, rfl, rfl, hcode⟩)

/-- A segment is found by its own text and at most one character behind it. -/
theorem segments_eq_cons {t : Text} {s : Segment} {ss : List Segment} (h : segments t = s :: ss) :
    ∃ rest, t = s.raw ++ rest ∧ segments rest = ss ∧ s.raw ≠ [] ∧
      ∀ y, y = [] ∨ y.head? = rest.head? → segments (s.raw ++ y) = s :: segments y := by
  rcases segments_cons_cases h with ⟨u, rfl, rfl, rfl⟩ | ⟨u, rfl, rfl, rfl⟩ | ⟨c, u, rfl, rfl, rfl, hcode⟩
  · refine ⟨u.dropWhile inLine, by simp [Segment.raw], rfl, by simp [Segment.raw], fun y hy => ?_⟩
    have hhead : ∀ c, y.head? = some c → inLine c = false := by
      intro c hc
      rcases hy with rfl | hy
      · cases hc
      · have := List.head?_dropWhile_not inLine u
        rw [← hy, hc] at this
        simpa using this
    obtain ⟨htake, hdrop⟩ := takeWhile_inLine (fun c hc => List.all_eq_true.mp List.all_takeWhile c hc) hhead
    show segments ('/' :: '/' :: (u.takeWhile inLine ++ y)) = _
    rw [segments_line, htake, hdrop]
  · refine ⟨(closeBlock 0 u).2, by simp [Segment.raw, closeBlock_append], rfl, by simp [Segment.raw], fun y hy => ?_⟩
    show segments ('/' :: '*' :: ((closeBlock 0 u).1 ++ y)) = _
    rcases closeBlock_cases 0 u with hclosed | ⟨hopen, -⟩
    · rw [segments_block, hclosed]
    · -- A comment that goes on to the end leaves nothing, so nothing may follow it here either.
      rw [hopen] at hy ⊢
      have hnil : y = [] := by
        rcases hy with rfl | hy
        · rfl
        · exact List.head?_eq_none_iff.mp hy
      rw [hnil, List.append_nil, segments_block, hopen]
  · refine ⟨u, rfl, rfl, by simp [Segment.raw], fun y hy => ?_⟩
    show segments (c :: y) = _
    refine segments_code fun hc => ?_
    rcases hy with rfl | hy
    · simp
    · rw [hy]
      exact hcode hc

/-- Comments begin with the marks that open them. -/
theorem raw_of_segments_eq_cons {t : Text} {s : Segment} {ss : List Segment} (h : segments t = s :: ss) :
    match s with
    | .code _ => True
    | .line l => ∃ u, l = '/' :: '/' :: u ∧ ∀ c ∈ u, inLine c = true
    | .block l => ∃ u, l = '/' :: '*' :: (closeBlock 0 u).1 := by
  rcases segments_cons_cases h with ⟨u, -, rfl, -⟩ | ⟨u, -, rfl, -⟩ | ⟨c, u, -, rfl, -⟩
  · exact ⟨u.takeWhile inLine, rfl, fun c hc => List.all_eq_true.mp List.all_takeWhile c hc⟩
  · exact ⟨u, rfl⟩
  · trivial

/-- A comment to the end of the line ends at a line feed, or at the end of the text. -/
theorem segments_after_line {t l : Text} {ss : List Segment} (h : segments t = .line l :: ss) :
    ss = [] ∨ ∃ ss', ss = .code '\n' :: ss' := by
  rcases segments_cons_cases h with ⟨u, -, -, rfl⟩ | ⟨u, -, heq, -⟩ | ⟨c, u, -, heq, -⟩
  · cases hdrop : u.dropWhile inLine with
    | nil => exact .inl segments_nil
    | cons c r =>
      have hc := List.head?_dropWhile_not inLine u
      rw [hdrop] at hc
      obtain rfl : c = '\n' := by simpa [inLine] using hc
      exact .inr ⟨_, segments_code fun h => absurd h (by decide)⟩
  · cases heq
  · cases heq

theorem getLast?_block {t l : Text} {s : Segment} {ss : List Segment} (h : segments t = .block l :: s :: ss) :
    l.getLast? = some '/' := by
  rcases segments_cons_cases h with ⟨u, -, heq, -⟩ | ⟨u, -, heq, hrest⟩ | ⟨c, u, -, heq, -⟩
  · cases heq
  · cases heq
    have hne : (closeBlock 0 u).2 ≠ [] := fun hnil => by
      rw [hnil, segments_nil] at hrest
      cases hrest
    simp [List.getLast?_cons, getLast?_closeBlock hne]
  · cases heq

/-- A text cut between two of its segments falls into texts with just these segments. -/
theorem segments_eq_append {t : Text} {ss ss' : List Segment} (h : segments t = ss ++ ss') :
    ∃ rest, t = raws ss ++ rest ∧ segments rest = ss' ∧
      ∀ y, y = [] ∨ y.head? = rest.head? → segments (raws ss ++ y) = ss ++ segments y := by
  induction ss generalizing t with
  | nil => exact ⟨t, rfl, h, fun y _ => rfl⟩
  | cons s ss ih =>
    obtain ⟨rest, rfl, hrest, -, hnext⟩ := segments_eq_cons h
    obtain ⟨rest', rfl, hrest', hafter⟩ := ih hrest
    refine ⟨rest', by simp, hrest', fun y hy => ?_⟩
    have hhead : raws ss ++ y = [] ∨ (raws ss ++ y).head? = (raws ss ++ rest').head? := by
      cases hraw : raws ss with
      | nil => simpa using hy
      | cons c r => exact .inr rfl
    rw [raws_cons, List.append_assoc, hnext _ hhead, hafter y hy]
    rfl

theorem segments_raws_left {t : Text} {ss ss' : List Segment} (h : segments t = ss ++ ss') :
    segments (raws ss) = ss := by
  obtain ⟨rest, -, -, hafter⟩ := segments_eq_append h
  have := hafter [] (.inl rfl)
  simpa using this

theorem segments_raws_right {t : Text} {ss ss' : List Segment} (h : segments t = ss ++ ss') :
    segments (raws ss') = ss' ∧ t = raws ss ++ raws ss' := by
  obtain ⟨rest, rfl, hrest, -⟩ := segments_eq_append h
  have : rest = raws ss' := by rw [← hrest, raws_segments]
  rw [← this]
  exact ⟨hrest, rfl⟩

theorem raw_ne_nil {t : Text} {s : Segment} (hs : s ∈ segments t) : s.raw ≠ [] := by
  obtain ⟨pre, post, hss⟩ := List.append_of_mem hs
  obtain ⟨rest, -, hrest, -⟩ := segments_eq_append hss
  obtain ⟨-, -, -, hne, -⟩ := segments_eq_cons hrest
  exact hne

theorem size_raw_pos {t : Text} {s : Segment} (hs : s ∈ segments t) : 0 < size s.raw :=
  Nat.pos_of_ne_zero (mt size_eq_zero_iff.mp (raw_ne_nil hs))

/-- Comments begin with a slash. -/
theorem head?_raw_of_comment {t : Text} {s : Segment} (hs : s ∈ segments t) (hcomment : s.isComment = true) :
    s.raw.head? = some '/' := by
  obtain ⟨pre, post, hss⟩ := List.append_of_mem hs
  obtain ⟨rest, -, hrest, -⟩ := segments_eq_append hss
  have hraw := raw_of_segments_eq_cons hrest
  cases s with
  | code c => cases hcomment
  | line l =>
    obtain ⟨u, rfl, -⟩ := hraw
    rfl
  | block l =>
    obtain ⟨u, rfl⟩ := hraw
    rfl

/-! ### How a text ends -/

/-- A text that leaves no comment open: whatever follows has its segments to itself. -/
def Closed (t : Text) : Prop := ∀ y, segments (t ++ y) = segments t ++ segments y

/-- A text ends in code, in a lone slash, in a comment to the end of the line, or in a comment that was never
closed. -/
theorem segments_append_cases (t : Text) :
    Closed t ∨
      (∃ ss, segments t = ss ++ [.code '/'] ∧
        ∀ c y, c ≠ '/' → c ≠ '*' → segments (t ++ c :: y) = segments t ++ segments (c :: y)) ∨
      (∃ ss l, segments t = ss ++ [.line l] ∧
        ∀ y, segments (t ++ y) = ss ++ .line (l ++ y.takeWhile inLine) :: segments (y.dropWhile inLine)) ∨
      (∃ ss l, segments t = ss ++ [.block l] ∧
        ∀ c y, c ≠ '/' → c ≠ '*' → ∃ l' rest, segments (t ++ c :: y) = ss ++ .block (l ++ c :: l') :: rest) := by
  rcases List.eq_nil_or_concat (segments t) with hnil | ⟨ss, s, hss⟩
  · refine .inl fun y => ?_
    have : t = [] := by rw [← raws_segments t, hnil, raws_nil]
    rw [this, segments_nil]
    rfl
  · rw [List.concat_eq_append] at hss
    obtain ⟨rest, rfl, hs, hafter⟩ := segments_eq_append hss
    obtain ⟨rest', rfl, hrest', hne, -⟩ := segments_eq_cons hs
    have hnil : rest' = [] := by rw [← raws_segments rest', hrest', raws_nil]
    subst hnil
    rw [List.append_nil] at hs hafter
    -- What follows concerns the last segment alone.
    have hlast : ∀ y, segments (raws ss ++ s.raw ++ y) = ss ++ segments (s.raw ++ y) := by
      intro y
      rw [List.append_assoc]
      refine hafter _ (.inr ?_)
      obtain ⟨c, r, hc⟩ := List.exists_cons_of_ne_nil hne
      rw [hc]
      rfl
    rw [List.append_nil]
    have hss : segments (raws ss ++ s.raw) = ss ++ [s] := by
      have := hlast []
      rwa [List.append_nil, List.append_nil, hs] at this
    simp only [Closed, hlast, hss]
    cases s with
    | code c =>
      by_cases hc : c = '/'
      · subst hc
        refine .inr (.inl ⟨ss, rfl, fun c y hslash hstar => ?_⟩)
        show ss ++ segments ('/' :: c :: y) = _
        rw [segments_code fun _ => by simp [hslash, hstar]]
        simp
      · refine .inl fun y => ?_
        show ss ++ segments (c :: y) = _
        rw [segments_code fun h => absurd h hc]
        simp
    | line l =>
      obtain ⟨u, rfl, hu⟩ := raw_of_segments_eq_cons hs
      refine .inr (.inr (.inl ⟨ss, _, rfl, fun y => ?_⟩))
      show ss ++ segments ('/' :: '/' :: (u ++ y)) = _
      rw [segments_line, List.takeWhile_append_of_pos hu, List.dropWhile_append_of_pos hu]
      rfl
    | block l =>
      obtain ⟨u, rfl⟩ := raw_of_segments_eq_cons hs
      rcases closeBlock_cases 0 u with hclosed | ⟨hopen, hswallow⟩
      · refine .inl fun y => ?_
        show ss ++ segments ('/' :: '*' :: ((closeBlock 0 u).1 ++ y)) = _
        rw [segments_block, hclosed]
        simp
      · refine .inr (.inr (.inr ⟨ss, _, rfl, fun c y hslash hstar => ?_⟩))
        obtain ⟨body, rest, h⟩ := hswallow c y hslash hstar
        refine ⟨body, segments rest, ?_⟩
        rw [hopen]
        show ss ++ segments ('/' :: '*' :: (u ++ c :: y)) = _
        rw [segments_block, h]
        rfl

/-! ### What is code -/

/-- A text in which comments and blanks alike have become spaces, byte for byte. What is left to see is code. -/
def bare (t : Text) : Text := (masked t).flatMap fun c => if isBlank c then List.replicate c.utf8Size ' ' else [c]

/-- A segment in which comments and blanks have become spaces. -/
def Segment.bare : Segment → Text
  | code c => if isBlank c then List.replicate c.utf8Size ' ' else [c]
  | line t | block t => List.replicate (size t) ' '

theorem bare_eq (t : Text) : bare t = (segments t).flatMap Segment.bare := by
  have hspaces : ∀ n, (List.replicate n ' ').flatMap
      (fun c => if isBlank c then List.replicate c.utf8Size ' ' else [c]) = List.replicate n ' ' := by
    intro n
    induction n with
    | zero => rfl
    | succ n ih =>
      rw [List.replicate_succ, List.flatMap_cons, ih]
      rfl
  have hcomment : ∀ t : Text, (t.flatMap Segment.blankOut).flatMap
      (fun c => if isBlank c then List.replicate c.utf8Size ' ' else [c]) = List.replicate (size t) ' ' := by
    intro t
    induction t with
    | nil => rfl
    | cons c t ih =>
      rw [List.flatMap_cons, List.flatMap_append, ih, size_cons, ← List.replicate_append_replicate, Segment.blankOut]
      congr 1
      by_cases hc : c = '\n'
      · subst hc
        rfl
      · rw [if_neg hc, hspaces]
  rw [bare, masked, List.flatMap_assoc]
  congr 1
  funext s
  cases s with
  | code c => simp [Segment.masked, Segment.bare]
  | line t => exact hcomment t
  | block t => exact hcomment t

/-- Code is seen in both ways of blanking out comments. -/
theorem count_bare {c : Char} (hc : isBlank c = false) (t : Text) : (bare t).count c = (masked t).count c := by
  rw [bare]
  induction masked t with
  | nil => rfl
  | cons d l ih =>
    rw [List.flatMap_cons, List.count_append, ih, List.count_cons]
    split
    · rename_i hd
      have hspace : c ≠ ' ' := fun h => by
        rw [h] at hc
        cases hc
      have hne : d ≠ c := fun h => by
        rw [h, hc] at hd
        cases hd
      rw [List.count_eq_zero.mpr fun hmem => hspace (List.mem_replicate.mp hmem).2]
      simp [hne]
    · rw [List.count_singleton, Nat.add_comm]

theorem bare_append {t y : Text} (h : segments (t ++ y) = segments t ++ segments y) :
    bare (t ++ y) = bare t ++ bare y := by
  rw [bare_eq, bare_eq, bare_eq, h, List.flatMap_append]

theorem inLine_comma : inLine ',' = true := rfl

theorem segments_comma (y : Text) : segments (',' :: y) = .code ',' :: segments y :=
  segments_code fun h => absurd h (by decide)

/-- A comma behind a text is code if it is code when nothing else follows. -/
theorem segments_append_comma {t : Text} (h : segments (t ++ [',']) = segments t ++ [.code ',']) (y : Text) :
    segments (t ++ ',' :: y) = segments t ++ segments (',' :: y) := by
  rcases segments_append_cases t with hclosed | ⟨ss, -, hslash⟩ | ⟨ss, l, hss, hline⟩ | ⟨ss, l, hss, hblock⟩
  · exact hclosed _
  · exact hslash ',' y (by decide) (by decide)
  · rw [hline, hss, List.takeWhile_cons_of_pos inLine_comma, List.dropWhile_cons_of_pos inLine_comma] at h
    simp at h
  · obtain ⟨l', rest, heq⟩ := hblock ',' [] (by decide) (by decide)
    rw [heq, hss] at h
    simp at h

/-- A comma behind a text that is not code cannot be seen. -/
theorem bare_append_comma {t : Text} (h : segments (t ++ [',']) ≠ segments t ++ [.code ',']) (y z : Text) :
    bare (t ++ ',' :: y) ≠ bare t ++ ',' :: z := by
  have hidden : ∀ (ss : List Segment) (l l' rest : Text),
      ss.flatMap Segment.bare ++ (List.replicate (size (l ++ ',' :: l')) ' ' ++ rest) ≠
        ss.flatMap Segment.bare ++ (List.replicate (size l) ' ' ++ ',' :: z) := by
    intro ss l l' rest heq
    have hsize : size (l ++ ',' :: l') = size l + (1 + size l') := size_append ..
    rw [hsize, ← List.replicate_append_replicate, List.append_assoc] at heq
    have := List.append_cancel_left (List.append_cancel_left heq)
    rw [← List.replicate_append_replicate] at this
    cases (List.cons.inj this).1
  rcases segments_append_cases t with hclosed | ⟨ss, -, hslash⟩ | ⟨ss, l, hss, hline⟩ | ⟨ss, l, hss, hblock⟩
  · exact absurd ((hclosed [',']).trans (by rw [segments_comma, segments_nil])) h
  · exact absurd ((hslash ',' [] (by decide) (by decide)).trans (by rw [segments_comma, segments_nil])) h
  · rw [bare_eq, bare_eq, hline, hss]
    have := hidden ss l (y.takeWhile inLine) ((segments (y.dropWhile inLine)).flatMap Segment.bare)
    simpa only [List.takeWhile_cons_of_pos inLine_comma, List.dropWhile_cons_of_pos inLine_comma, List.flatMap_append,
      List.flatMap_cons, List.flatMap_nil, List.append_nil, List.append_assoc, Segment.bare] using this
  · obtain ⟨l', rest, heq⟩ := hblock ',' y (by decide) (by decide)
    rw [bare_eq, bare_eq, heq, hss]
    have := hidden ss l l' (rest.flatMap Segment.bare)
    simpa only [List.flatMap_append, List.flatMap_cons, List.flatMap_nil, List.append_nil, List.append_assoc,
      Segment.bare] using this

end Reprint.Gap
