import Mathlib
import Reprint.Layout.Scanner
import Reprint.Proofs.Division
/-!
Finding comments. What a scanner is to find is said of characters and without a count (`Scan`). Main statement: the scanner
comes to the end, never closes a comment that is not open, and what it notes is what is to be found.
-/

namespace Reprint

/-! ### Bytes -/

/-- An ASCII byte stands for its own character only. -/
theorem eq_of_mem_utf8EncodeChar {c m : Char} (hm : m.toNat < 128) (h : UInt8.ofNat m.toNat ∈ String.utf8EncodeChar c) :
    c = m := by
  have hbyte : ∀ n < 256, UInt8.ofNat m.toNat = UInt8.ofNat n → n = m.toNat := fun n hlt hn => by
    have htoNat := congrArg UInt8.toNat hn
    rw [UInt8.toNat_ofNat', UInt8.toNat_ofNat'] at htoNat
    omega
  simp only [String.utf8EncodeChar] at h
  split at h
  · have hval := hbyte _ (by omega) (List.mem_singleton.mp h)
    exact Char.ext (UInt32.toNat_inj.mp hval)
  · exfalso
    -- All bytes of other characters are greater.
    split at h
    · simp only [List.mem_cons, List.not_mem_nil, or_false] at h
      rcases h with h | h <;> have := hbyte _ (by omega) h <;> omega
    · split at h
      · simp only [List.mem_cons, List.not_mem_nil, or_false] at h
        rcases h with h | h | h <;> have := hbyte _ (by omega) h <;> omega
      · simp only [List.mem_cons, List.not_mem_nil, or_false] at h
        rcases h with h | h | h | h <;> have := hbyte _ (by omega) h <;> omega

namespace Text

theorem bytes_cons (c : Char) (t : Text) : bytes (c :: t) = String.utf8EncodeChar c ++ bytes t := rfl

theorem length_bytes (t : Text) : t.bytes.length = t.size := by
  induction t with
  | nil => rfl
  | cons c t ih => rw [bytes_cons, List.length_append, String.length_utf8EncodeChar, ih, size_cons]

theorem head?_bytes {m : Char} (hm : m.toNat < 128) {t : Text} (h : t.bytes.head? = some (UInt8.ofNat m.toNat)) :
    t.head? = some m := by
  cases t with
  | nil => cases h
  | cons c t =>
    rw [bytes_cons, List.head?_append_of_ne_nil _ String.utf8EncodeChar_ne_nil] at h
    rw [eq_of_mem_utf8EncodeChar hm (List.mem_of_mem_head? h)]
    rfl

theorem takeWhile_bytes (t : Text) : t.bytes.takeWhile (· != 0x0a) = bytes (t.takeWhile Gap.inLine) ∧
    t.bytes.dropWhile (· != 0x0a) = bytes (t.dropWhile Gap.inLine) := by
  induction t with
  | nil => exact ⟨rfl, rfl⟩
  | cons c t ih =>
    by_cases hc : c = '\n'
    · subst hc
      exact ⟨rfl, rfl⟩
    · have hbytes : ∀ b ∈ String.utf8EncodeChar c, (b != 0x0a) = true := fun b hb =>
        bne_iff_ne.mpr fun h => hc (eq_of_mem_utf8EncodeChar (m := '\n') (by decide) (show 0x0a ∈ _ from h ▸ hb))
      have hinline : Gap.inLine c = true := bne_iff_ne.mpr hc
      rw [bytes_cons, List.takeWhile_append_of_pos hbytes, List.dropWhile_append_of_pos hbytes, ih.1, ih.2,
        List.takeWhile_cons_of_pos hinline, List.dropWhile_cons_of_pos hinline]
      exact ⟨rfl, rfl⟩

end Text

/-! ### The scanner -/

namespace Gap
open Text

/-- What is neither mark of a block comment, in the words of `closeBlock`. -/
theorem no_mark {depth : Nat} {c : Char} {t : Text} (hopen : ∀ u, c = '/' → t = '*' :: u → False)
    (hlast : ∀ u, depth = 0 → c = '*' → t = '/' :: u → False)
    (hclose : ∀ d u, depth = d + 1 → c = '*' → t = '/' :: u → False) :
    ¬(c = '/' ∧ t.head? = some '*') ∧ ¬(c = '*' ∧ t.head? = some '/') := by
  refine ⟨fun h => head?_ne_of_ne_cons (fun u => hopen u h.1) h.2, fun h => head?_ne_of_ne_cons (fun u => ?_) h.2⟩
  cases depth with
  | zero => exact hlast u rfl h.1
  | succ depth => exact hclose depth u rfl h.1

namespace Scanner

theorem run_add {m n : Nat} {a b c : Scanner} (hab : run m a = some b) (hbc : run n b = some c) :
    run (m + n) a = some c := by
  induction m generalizing a with
  | zero =>
    cases hab
    rw [Nat.zero_add, hbc]
  | succ m ih =>
    obtain ⟨a', hstep, hrun⟩ := Option.bind_eq_some_iff.mp hab
    rw [Nat.succ_add, run, hstep]
    exact ih hrun

section Step
variable {i start depth : Nat} {b : UInt8} {bs : List UInt8} {found : List (Nat × Nat)}

theorem step_code (h : b = slash → bs.head? ≠ some slash ∧ bs.head? ≠ some star) :
    step ⟨i, b :: bs, .code, found⟩ = some ⟨i + 1, bs, .code, found⟩ := by
  unfold step
  split <;> simp_all [slash, star]

theorem step_block (hopen : ¬(b = slash ∧ bs.head? = some star)) (hclose : ¬(b = star ∧ bs.head? = some slash)) :
    step ⟨i, b :: bs, .block start depth, found⟩ = some ⟨i + 1, bs, .block start depth, found⟩ := by
  unfold step
  split <;> simp_all [slash, star]

/-- Bytes that are part of no mark are passed by. -/
theorem run_quiet {mode : Mode} {rest : List UInt8} (h : ∀ b ∈ bs, b ≠ slash ∧ b ≠ star) :
    run bs.length ⟨i, bs ++ rest, mode, found⟩ = some ⟨i + bs.length, rest, mode, found⟩ := by
  induction bs generalizing i with
  | nil => rfl
  | cons b bs ih =>
    obtain ⟨⟨hslash, hstar⟩, hbs⟩ := List.forall_mem_cons.mp h
    have hstep : step ⟨i, b :: (bs ++ rest), mode, found⟩ = some ⟨i + 1, bs ++ rest, mode, found⟩ := by
      cases mode with
      | code => exact step_code fun h => absurd h hslash
      | block start depth => exact step_block (fun h => hslash h.1) fun h => hstar h.1
    rw [List.length_cons, List.cons_append, run, hstep, Option.bind_some, ih hbs, Nat.add_assoc, Nat.add_comm 1]

end Step

/-! ### One character after the other -/

section Run
variable {i start depth : Nat} {c : Char} {t : Text} {found : List (Nat × Nat)}

/-- A character that is part of no mark is passed by, byte by byte. -/
theorem run_char {mode : Mode} (hslash : c ≠ '/') (hstar : c ≠ '*') :
    run c.utf8Size ⟨i, bytes (c :: t), mode, found⟩ = some ⟨i + c.utf8Size, bytes t, mode, found⟩ := by
  have hbytes : ∀ b ∈ String.utf8EncodeChar c, b ≠ slash ∧ b ≠ star := fun b hb =>
    ⟨fun h => hslash (eq_of_mem_utf8EncodeChar (m := '/') (by decide) (show slash ∈ _ from h ▸ hb)),
      fun h => hstar (eq_of_mem_utf8EncodeChar (m := '*') (by decide) (show star ∈ _ from h ▸ hb))⟩
  rw [← String.length_utf8EncodeChar]
  exact run_quiet hbytes

theorem head?_ne_slash (h : t.head? ≠ some '/') : t.bytes.head? ≠ some slash :=
  fun hhead => h (head?_bytes (by decide) hhead)

theorem head?_ne_star (h : t.head? ≠ some '*') : t.bytes.head? ≠ some star :=
  fun hhead => h (head?_bytes (by decide) hhead)

theorem run_code (h : c = '/' → t.head? ≠ some '/' ∧ t.head? ≠ some '*') :
    run c.utf8Size ⟨i, bytes (c :: t), .code, found⟩ = some ⟨i + c.utf8Size, bytes t, .code, found⟩ := by
  by_cases hslash : c = '/'
  · subst hslash
    exact congrArg (Option.bind · _) (step_code fun _ => ⟨head?_ne_slash (h rfl).1, head?_ne_star (h rfl).2⟩)
  · by_cases hstar : c = '*'
    · subst hstar
      exact congrArg (Option.bind · _) (step_code fun h => absurd h (by decide))
    · exact run_char hslash hstar

theorem run_inside (hopen : ¬(c = '/' ∧ t.head? = some '*')) (hclose : ¬(c = '*' ∧ t.head? = some '/')) :
    run c.utf8Size ⟨i, bytes (c :: t), .block start depth, found⟩ =
      some ⟨i + c.utf8Size, bytes t, .block start depth, found⟩ := by
  by_cases hslash : c = '/'
  · subst hslash
    refine congrArg (Option.bind · _) (step_block (fun h => ?_) fun h => absurd h.1 (by decide))
    exact head?_ne_star (fun hhead => hopen ⟨rfl, hhead⟩) h.2
  · by_cases hstar : c = '*'
    · subst hstar
      refine congrArg (Option.bind · _) (step_block (fun h => absurd h.1 (by decide)) fun h => ?_)
      exact head?_ne_slash (fun hhead => hclose ⟨rfl, hhead⟩) h.2
    · exact run_char hslash hstar

end Run

/-! ### One comment after the other -/

/-- A block comment is read to its end. -/
theorem run_closeBlock (depth : Nat) (t : Text) (i start : Nat) (found : List (Nat × Nat)) :
    ∃ n ≤ size (closeBlock depth t).1 + 1, run n ⟨i, bytes t, .block start (depth + 1), found⟩ =
      some ⟨i + size (closeBlock depth t).1, bytes (closeBlock depth t).2, .code,
        found ++ [(start, i + size (closeBlock depth t).1)]⟩ := by
  fun_induction closeBlock depth t generalizing i with
  | case1 depth => exact ⟨1, Nat.le_refl 1, rfl⟩
  | case2 depth t body rest hbody ih =>
    rw [hbody] at ih
    obtain ⟨n, hn, hrun⟩ := ih (i + 2)
    have hsize : size ('/' :: '*' :: body) = 2 + size body := (Nat.add_assoc 1 1 _).symm
    dsimp only at hn
    rw [hsize, ← Nat.add_assoc]
    exact ⟨n + 1, by omega, hrun⟩
  | case3 t => exact ⟨1, Nat.le_add_left 1 2, rfl⟩
  | case4 depth t body rest hbody ih =>
    rw [hbody] at ih
    obtain ⟨n, hn, hrun⟩ := ih (i + 2)
    have hsize : size ('*' :: '/' :: body) = 2 + size body := (Nat.add_assoc 1 1 _).symm
    dsimp only at hn
    rw [hsize, ← Nat.add_assoc]
    exact ⟨n + 1, by omega, hrun⟩
  | case5 depth c t hopen hlast hclose body rest hbody ih =>
    rw [hbody] at ih
    obtain ⟨n, hn, hrun⟩ := ih (i + c.utf8Size)
    dsimp only at hn
    rw [size_cons, ← Nat.add_assoc]
    obtain ⟨hopen, hclose⟩ := no_mark hopen hlast hclose
    exact ⟨c.utf8Size + n, by omega, run_add (run_inside hopen hclose) hrun⟩

/-- A comment to the end of the line is read at once. -/
theorem step_line (t : Text) (i : Nat) (found : List (Nat × Nat)) :
    step ⟨i, bytes ('/' :: '/' :: t), .code, found⟩ =
      some ⟨i + size ('/' :: '/' :: t.takeWhile inLine), bytes (t.dropWhile inLine), .code,
        found ++ [(i, i + size ('/' :: '/' :: t.takeWhile inLine))]⟩ := by
  have hstep : step ⟨i, bytes ('/' :: '/' :: t), .code, found⟩ =
      some ⟨i + ((bytes ('/' :: '/' :: t)).takeWhile (· != 0x0a)).length, (bytes ('/' :: '/' :: t)).dropWhile (· != 0x0a),
        .code, found ++ [(i, i + ((bytes ('/' :: '/' :: t)).takeWhile (· != 0x0a)).length)]⟩ := rfl
  rw [hstep, (takeWhile_bytes _).1, (takeWhile_bytes _).2, length_bytes]
  rfl

/-- A text is read to its end. -/
theorem run_segments (t : Text) (i : Nat) (found : List (Nat × Nat)) :
    ∃ n ≤ 2 * size t, run n ⟨i, bytes t, .code, found⟩ =
      some ⟨i + size t, [], .code, found ++ commentsFrom i (segments t)⟩ := by
  fun_induction segments t generalizing i found with
  | case1 => exact ⟨0, Nat.le_refl 0, by rw [commentsFrom, List.append_nil]; rfl⟩
  | case2 t ih =>
    obtain ⟨n, hn, hrun⟩ := ih (i + size ('/' :: '/' :: t.takeWhile inLine))
      (found ++ [(i, i + size ('/' :: '/' :: t.takeWhile inLine))])
    have hsize : size ('/' :: '/' :: t) = size ('/' :: '/' :: t.takeWhile inLine) + size (t.dropWhile inLine) := by
      rw [← size_append, List.cons_append, List.cons_append, List.takeWhile_append_dropWhile]
    have hmark : size ('/' :: '/' :: t.takeWhile inLine) = 2 + size (t.takeWhile inLine) := (Nat.add_assoc 1 1 _).symm
    refine ⟨n + 1, by omega, ?_⟩
    rw [run, step_line, Option.bind_some, hrun, hsize, Nat.add_assoc, List.append_assoc]
    rfl
  | case3 t ih =>
    obtain ⟨m, hm, hclose⟩ := run_closeBlock 0 t (i + 2) i found
    obtain ⟨n, hn, hrun⟩ := ih (i + 2 + size (closeBlock 0 t).1) (found ++ [(i, i + 2 + size (closeBlock 0 t).1)])
    have hsize : size ('/' :: '*' :: t) = 2 + size (closeBlock 0 t).1 + size (closeBlock 0 t).2 := by
      rw [Nat.add_assoc, ← size_append, closeBlock_append]
      exact (Nat.add_assoc 1 1 _).symm
    have hmark : size ('/' :: '*' :: (closeBlock 0 t).1) = 2 + size (closeBlock 0 t).1 := (Nat.add_assoc 1 1 _).symm
    -- The mark is seen, then read.
    have hopen : run 2 ⟨i, bytes ('/' :: '*' :: t), .code, found⟩ = some ⟨i + 2, bytes t, .block i 1, found⟩ := rfl
    refine ⟨2 + m + n, by omega, ?_⟩
    rw [run_add (run_add hopen hclose) hrun, hsize, List.append_assoc, commentsFrom]
    simp only [Segment.isComment, Segment.raw, hmark, ← Nat.add_assoc, if_true]
    rfl
  | case4 c t hline hblock ih =>
    obtain ⟨n, hn, hrun⟩ := ih (i + c.utf8Size) found
    rw [size_cons, ← Nat.add_assoc]
    refine ⟨c.utf8Size + n, by omega, run_add (run_code fun hc => ?_) hrun⟩
    exact ⟨head?_ne_of_ne_cons fun u => hline u hc, head?_ne_of_ne_cons fun u => hblock u hc⟩

end Scanner

/-! ### What is to be found -/

/-- Inside a block comment: the mark that matches the one before the text comes, and the rest follows it. -/
inductive Closes : Text → Text → Prop where
  | close {rest : Text} : Closes ('*' :: '/' :: rest) rest
  | nested {t mid rest : Text} : Closes t mid → Closes mid rest → Closes ('/' :: '*' :: t) rest
  | skip {c : Char} {t rest : Text} : ¬(c = '/' ∧ t.head? = some '*') → ¬(c = '*' ∧ t.head? = some '/') →
    Closes t rest → Closes (c :: t) rest

/-- The comments of a text that begins at an offset outside comments. -/
inductive Scan : Nat → Text → List (Nat × Nat) → Prop where
  | done {i : Nat} : Scan i [] []
  /-- A comment ends before a line feed or with the text. -/
  | line {i : Nat} {body rest : Text} {spans : List (Nat × Nat)} : '\n' ∉ body → (∀ c, rest.head? = some c → c = '\n') →
    Scan (i + size ('/' :: '/' :: body)) rest spans →
    Scan i ('/' :: '/' :: (body ++ rest)) ((i, i + size ('/' :: '/' :: body)) :: spans)
  | block {i : Nat} {body rest : Text} {spans : List (Nat × Nat)} : Closes (body ++ rest) rest →
    Scan (i + size ('/' :: '*' :: body)) rest spans →
    Scan i ('/' :: '*' :: (body ++ rest)) ((i, i + size ('/' :: '*' :: body)) :: spans)
  | unclosed {i : Nat} {t : Text} : (∀ rest, ¬ Closes t rest) → Scan i ('/' :: '*' :: t) [(i, i + size ('/' :: '*' :: t))]
  | skip {i : Nat} {c : Char} {t : Text} {spans : List (Nat × Nat)} :
    ¬(c = '/' ∧ (t.head? = some '/' ∨ t.head? = some '*')) →
    Scan (i + c.utf8Size) t spans → Scan i (c :: t) spans

section Closes
variable {t mid rest : Text}

/-- With more comments open around it, a comment that is closed leaves one less. -/
theorem Closes.behind (h : Closes t rest) :
    (closeBlock 0 t).2 = rest ∧ ∀ depth, (closeBlock (depth + 1) t).2 = (closeBlock depth rest).2 := by
  induction h with
  | close => exact ⟨rfl, fun depth => rfl⟩
  | @nested t mid rest _ _ ihouter ihinner =>
    have hopen : ∀ depth, (closeBlock depth ('/' :: '*' :: t)).2 = (closeBlock depth mid).2 := fun depth => by
      rw [closeBlock]
      exact ihouter.2 depth
    exact ⟨(hopen 0).trans ihinner.1, fun depth => (hopen _).trans (ihinner.2 depth)⟩
  | skip hopen hclose _ ih =>
    refine ⟨?_, fun depth => ?_⟩
    · rw [closeBlock_step hopen hclose]
      exact ih.1
    · rw [closeBlock_step hopen hclose]
      exact ih.2 depth

/-- Comments are closed one after the other. -/
def ClosesAll : Nat → Text → Text → Prop
  | 0, t, rest => Closes t rest
  | depth + 1, t, rest => ∃ mid, Closes t mid ∧ ClosesAll depth mid rest

theorem ClosesAll.map {t' : Text} {depth : Nat} (h : ClosesAll depth t rest) (hmap : ∀ mid, Closes t mid → Closes t' mid) :
    ClosesAll depth t' rest := by
  cases depth with
  | zero => exact hmap rest h
  | succ depth =>
    obtain ⟨mid, hmid, h⟩ := h
    exact ⟨mid, hmap mid hmid, h⟩

/-- What is left behind block comments, if there is something, is left behind the marks that match theirs. -/
theorem closesAll_closeBlock (depth : Nat) (t : Text) :
    ClosesAll depth t (closeBlock depth t).2 ∨ (closeBlock depth t).2 = [] := by
  fun_induction closeBlock depth t with
  | case1 depth => exact .inr rfl
  | case2 depth t body rest hbody ih =>
    rw [hbody] at ih
    refine ih.imp_left fun h => ?_
    obtain ⟨mid, hmid, h⟩ := h
    exact h.map fun _ => .nested hmid
  | case3 t => exact .inl .close
  | case4 depth t body rest hbody ih =>
    rw [hbody] at ih
    exact ih.imp_left fun h => ⟨t, .close, h⟩
  | case5 depth c t hopen hlast hclose body rest hbody ih =>
    rw [hbody] at ih
    obtain ⟨hopen, hclose⟩ := no_mark hopen hlast hclose
    exact ih.imp_left fun h => h.map fun _ => .skip hopen hclose

theorem closeBlock_of_closes {body : Text} (h : Closes (body ++ rest) rest) :
    closeBlock 0 (body ++ rest) = (body, rest) := by
  have happend := closeBlock_append 0 (body ++ rest)
  rw [h.behind.1] at happend
  exact Prod.ext (List.append_cancel_right happend) h.behind.1

theorem closeBlock_of_unclosed (h : ∀ rest, ¬ Closes t rest) : closeBlock 0 t = (t, []) := by
  have hrest : (closeBlock 0 t).2 = [] := (closesAll_closeBlock 0 t).resolve_left (h _)
  have happend := closeBlock_append 0 t
  rw [hrest, List.append_nil] at happend
  exact Prod.ext happend hrest

end Closes

/-- What is to be found are the comments among the segments. -/
theorem scan_iff {i : Nat} {t : Text} {spans : List (Nat × Nat)} :
    Scan i t spans ↔ spans = commentsFrom i (segments t) := by
  constructor
  · intro h
    induction h with
    | done => rw [segments_nil, commentsFrom]
    | @line i body rest spans hbody hrest _ ih =>
      have hinline : ∀ c ∈ body, inLine c = true := fun c hc => bne_iff_ne.mpr fun h => hbody (h ▸ hc)
      obtain ⟨htake, hdrop⟩ := takeWhile_inLine hinline fun c hc => by rw [hrest c hc]; rfl
      rw [segments_line, htake, hdrop, commentsFrom, ih]
      rfl
    | block hcloses _ ih =>
      rw [segments_block, closeBlock_of_closes hcloses, commentsFrom, ih]
      rfl
    | unclosed hunclosed =>
      rw [segments_block, closeBlock_of_unclosed hunclosed, segments_nil, commentsFrom, commentsFrom]
      rfl
    | skip hskip _ ih =>
      rw [segments_code fun hc => ⟨fun h => hskip ⟨hc, .inl h⟩, fun h => hskip ⟨hc, .inr h⟩⟩, commentsFrom, ih]
      rfl
  · rintro rfl
    fun_induction segments t generalizing i with
    | case1 => exact .done
    | case2 t ih =>
      have hbody : '\n' ∉ t.takeWhile inLine := fun h => absurd (List.mem_takeWhile_imp h) (by decide)
      have hrest : ∀ c, (t.dropWhile inLine).head? = some c → c = '\n' := fun c hc => by
        have hfeed := List.head?_dropWhile_not inLine t
        rw [hc] at hfeed
        simpa [inLine] using hfeed
      have hscan : Scan i ('/' :: '/' :: (t.takeWhile inLine ++ t.dropWhile inLine)) _ := .line hbody hrest ih
      rw [List.takeWhile_append_dropWhile] at hscan
      exact hscan
    | case3 t ih =>
      by_cases hcloses : ∃ rest, Closes t rest
      · obtain ⟨rest, hrest⟩ := hcloses
        have hblock : Closes ((closeBlock 0 t).1 ++ (closeBlock 0 t).2) (closeBlock 0 t).2 := by
          rw [closeBlock_append, hrest.behind.1]
          exact hrest
        have hscan := Scan.block hblock (ih (i := i + size ('/' :: '*' :: (closeBlock 0 t).1)))
        rw [closeBlock_append] at hscan
        exact hscan
      · have hunclosed : ∀ rest, ¬ Closes t rest := not_exists.mp hcloses
        rw [closeBlock_of_unclosed hunclosed, segments_nil]
        exact .unclosed hunclosed
    | case4 c t hline hblock ih =>
      refine .skip (fun h => ?_) ih
      rcases h with ⟨hc, h | h⟩
      · exact head?_ne_of_ne_cons (fun u => hline u hc) h
      · exact head?_ne_of_ne_cons (fun u => hblock u hc) h

/-! ### Main statement -/

/-- A scanner of the bytes of a text comes to the end in at most twice as many steps as there are bytes, and never closes a
comment that is not open. What it finds is what is to be found. The comments lie in the text, between characters, one after
the other. -/
theorem scanned_to_end (t : Text) :
    (∃ n ≤ 2 * t.size, Scanner.run n ⟨0, t.bytes, .code, []⟩ = some ⟨t.size, [], .code, comments t⟩) ∧
      (∀ spans, Scan 0 t spans ↔ spans = comments t) ∧
      (∀ s ∈ comments t, s.1 < s.2 ∧ s.2 ≤ t.size ∧ t.isBoundary s.1 = true ∧ t.isBoundary s.2 = true) ∧
      (comments t).Pairwise fun a b => a.2 ≤ b.1 := by
  obtain ⟨n, hn, hrun⟩ := Scanner.run_segments t 0 []
  rw [Nat.zero_add, List.nil_append] at hrun
  exact ⟨⟨n, hn, hrun⟩, fun _ => scan_iff, fun _ => comment_aligned, pairwise_commentsFrom ..⟩

/-- No star belongs to two marks, nothing is opened in a comment to the end of the line, and the last comment is never
closed. -/
example : comments "/*/ */ // /*\n/*//*/*/".toList = [(0, 6), (7, 12), (13, 21)] := by cbv

end Gap

end Reprint
