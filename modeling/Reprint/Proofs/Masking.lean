import Reprint.Proofs.PlainGaps
import Reprint.Proofs.Scanning
/-!
Comments blanked out, byte by byte. Each byte of a comment becomes a space, line feeds apart, and all other bytes stay. No
mark of a comment comes about that way: a slash that opens nothing is followed by what it was followed by, or by a space.
Main statement: `masked_faithful`.
-/

namespace Reprint

namespace Text

theorem bytes_append (a b : Text) : bytes (a ++ b) = bytes a ++ bytes b := List.flatMap_append

theorem bytes_spaces (n : Nat) : bytes (List.replicate n ' ') = List.replicate n 0x20 := by
  induction n with
  | zero => rfl
  | succ n ih =>
    rw [List.replicate_succ, bytes_cons, ih, List.replicate_succ]
    rfl

end Text

namespace Gap
open Text

/-! ### Byte by byte -/

/-- What a byte of a comment becomes. -/
def blankByte (b : UInt8) : UInt8 := if b = 0x0a then 0x0a else 0x20

theorem bytes_blankOut (c : Char) : bytes (Segment.blankOut c) = (String.utf8EncodeChar c).map blankByte := by
  by_cases hc : c = '\n'
  · subst hc
    rfl
  · have hblank : ∀ b ∈ String.utf8EncodeChar c, blankByte b = 0x20 := fun b hb => by
      have hne : b ≠ 0x0a := fun h => hc (eq_of_mem_utf8EncodeChar (m := '\n') (by decide) (show 0x0a ∈ _ from h ▸ hb))
      exact if_neg hne
    rw [Segment.blankOut, if_neg hc, bytes_spaces, List.map_congr_left hblank, List.map_const',
      String.length_utf8EncodeChar]

theorem bytes_flatMap_blankOut (l : Text) : bytes (l.flatMap Segment.blankOut) = l.bytes.map blankByte := by
  induction l with
  | nil => rfl
  | cons c l ih => rw [List.flatMap_cons, bytes_append, bytes_blankOut, ih, bytes_cons, List.map_append]

theorem Segment.bytes_masked (s : Segment) :
    bytes s.masked = if s.isComment then s.raw.bytes.map blankByte else s.raw.bytes := by
  cases s with
  | code c => rfl
  | line l => exact bytes_flatMap_blankOut l
  | block l => exact bytes_flatMap_blankOut l

/-- An offset at which a byte of a comment stands. -/
def Commented (spans : List (Nat × Nat)) (i : Nat) : Prop := ∃ s ∈ spans, s.1 ≤ i ∧ i < s.2

instance (spans : List (Nat × Nat)) (i : Nat) : Decidable (Commented spans i) :=
  inferInstanceAs (Decidable (∃ s ∈ spans, s.1 ≤ i ∧ i < s.2))

section Commented
variable {s : Segment} {ss : List Segment} {start i : Nat}

theorem start_le_of_commented (h : Commented (commentsFrom start ss) i) : start ≤ i := by
  obtain ⟨⟨a, b⟩, hmem, ha, -⟩ := h
  obtain ⟨pre, s, post, -, -, rfl, -⟩ := mem_commentsFrom.mp hmem
  exact Nat.le_trans (Nat.le_add_right ..) ha

theorem commented_first (h : i < size s.raw) :
    Commented (commentsFrom start (s :: ss)) (start + i) ↔ s.isComment = true := by
  have hlater : ¬Commented (commentsFrom (start + size s.raw) ss) (start + i) := fun hc => by
    have := start_le_of_commented hc
    omega
  rw [commentsFrom]
  split
  · next hs =>
    exact iff_of_true ⟨_, List.mem_cons_self .., Nat.le_add_right .., Nat.add_lt_add_left h _⟩ hs
  · next hs => exact iff_of_false hlater hs

theorem commented_later : Commented (commentsFrom start (s :: ss)) (start + (size s.raw + i)) ↔
    Commented (commentsFrom (start + size s.raw) ss) (start + size s.raw + i) := by
  rw [commentsFrom, ← Nat.add_assoc]
  split
  · simp only [Commented, List.mem_cons, exists_eq_or_imp]
    exact or_iff_right fun h => by omega
  · exact Iff.rfl

/-- A byte is blanked out if it belongs to a comment, and stays otherwise. -/
theorem getElem?_bytes_masks (ss : List Segment) (start i : Nat) : (masks ss).bytes[i]? =
    if Commented (commentsFrom start ss) (start + i) then (raws ss).bytes[i]?.map blankByte else (raws ss).bytes[i]? := by
  induction ss generalizing start i with
  | nil => exact (ite_self _).symm
  | cons s ss ih =>
    have hmask : (masks (s :: ss)).bytes = bytes s.masked ++ (masks ss).bytes := bytes_append ..
    have hraw : (raws (s :: ss)).bytes = bytes s.raw ++ (raws ss).bytes := bytes_append ..
    have hsize : (bytes s.masked).length = size s.raw := (length_bytes _).trans s.size_masked
    rw [hmask, hraw]
    by_cases hi : i < size s.raw
    · rw [List.getElem?_append_left (hsize ▸ hi), List.getElem?_append_left (length_bytes s.raw ▸ hi), s.bytes_masked]
      simp only [commented_first hi]
      split
      · rw [List.getElem?_map]
      · rfl
    · obtain ⟨k, rfl⟩ := Nat.exists_eq_add_of_le (Nat.not_lt.mp hi)
      rw [List.getElem?_append_right (hsize ▸ Nat.le_add_right ..), hsize,
        List.getElem?_append_right (length_bytes s.raw ▸ Nat.le_add_right ..), length_bytes, Nat.add_sub_cancel_left,
        ih (start + size s.raw)]
      simp only [commented_later]

end Commented

theorem getElem?_bytes_masked (t : Text) (i : Nat) : (masked t).bytes[i]? =
    if Commented (comments t) i then t.bytes[i]?.map blankByte else t.bytes[i]? := by
  have hbyte := getElem?_bytes_masks (segments t) 0 i
  rwa [Nat.zero_add, raws_segments] at hbyte

/-! ### No comment is left -/

/-- Blanked out or not, a text begins with the same character, unless it begins with a comment. -/
theorem head?_masked (t : Text) : (masked t).head? = t.head? ∨ (masked t).head? = some ' ' := by
  cases hss : segments t with
  | nil =>
    have ht : t = [] := by rw [← raws_segments t, hss, raws_nil]
    rw [masked, hss, ht]
    exact .inl rfl
  | cons s ss =>
    rw [masked, hss]
    rcases segments_cons_cases hss with ⟨u, -, rfl, -⟩ | ⟨u, -, rfl, -⟩ | ⟨c, u, rfl, rfl, -⟩
    · exact .inr rfl
    · exact .inr rfl
    · exact .inl rfl

theorem segments_masked (t : Text) : segments (masked t) = (masked t).map .code := by
  have hcomment : ∀ (s : Segment) (u : Text), s.isComment = true → segments (masked u) = (masked u).map .code →
      segments (s.masked ++ masked u) = (s.masked ++ masked u).map .code := by
    intro s u hs hu
    have hslash : '/' ∉ s.masked := fun h => absurd (Segment.mem_masked hs h) (by decide)
    rw [segments_append_plain hslash, hu, List.map_append]
  fun_induction segments t with
  | case1 => rw [masked, segments_nil]; exact segments_nil
  | case2 t ih =>
    rw [masked, segments_line]
    exact hcomment (.line _) _ rfl ih
  | case3 t ih =>
    rw [masked, segments_block]
    exact hcomment (.block _) _ rfl ih
  | case4 c t hline hblock ih =>
    have hcode : c = '/' → t.head? ≠ some '/' ∧ t.head? ≠ some '*' := fun hc =>
      ⟨head?_ne_of_ne_cons fun u => hline u hc, head?_ne_of_ne_cons fun u => hblock u hc⟩
    have hmask : masked (c :: t) = c :: masked t := by
      rw [masked, segments_code hcode]
      rfl
    rw [hmask, segments_code fun hc => ?_, ih, List.map_cons]
    rcases head?_masked t with h | h
    · rw [h]
      exact hcode hc
    · rw [h]
      decide

/-! ### Main statement -/

theorem blankByte_eq_lineFeed_iff {b : UInt8} : blankByte b = 0x0a ↔ b = 0x0a := by
  unfold blankByte
  split
  · next h => exact iff_of_true rfl h
  · next h => exact iff_of_false (by decide) h

theorem lineFeed_masked_iff (t : Text) (i : Nat) : (masked t).bytes[i]? = some 0x0a ↔ t.bytes[i]? = some 0x0a := by
  rw [getElem?_bytes_masked]
  split
  · rw [Option.map_eq_some_iff]
    simp only [blankByte_eq_lineFeed_iff, exists_eq_right]
  · rfl

theorem blank_of_commented {t : Text} {i : Nat} (h : Commented (comments t) i) :
    (masked t).bytes[i]? = some 0x20 ∨ (masked t).bytes[i]? = some 0x0a := by
  have hlen : i < t.bytes.length := by
    obtain ⟨s, hs, -, hlt⟩ := h
    rw [length_bytes]
    exact Nat.lt_of_lt_of_le hlt (comment_aligned hs).2.1
  rw [getElem?_bytes_masked, if_pos h, List.getElem?_eq_getElem hlen, Option.map_some, blankByte]
  split
  · exact .inr rfl
  · exact .inl rfl

/-- Blanking out comments keeps the length of a text and the offsets of its line feeds, in bytes. A byte outside comments
stays, and one inside becomes a space or is a line feed. What comes out has no comments, so there is nothing left to blank
out in it. -/
theorem masked_faithful (t : Text) :
    (masked t).bytes.length = t.bytes.length ∧
      (∀ i : Nat, (masked t).bytes[i]? = some 0x0a ↔ t.bytes[i]? = some 0x0a) ∧
      (∀ i : Nat, ¬Commented (comments t) i → (masked t).bytes[i]? = t.bytes[i]?) ∧
      (∀ i : Nat, Commented (comments t) i → (masked t).bytes[i]? = some 0x20 ∨ (masked t).bytes[i]? = some 0x0a) ∧
      comments (masked t) = [] ∧ masked (masked t) = masked t := by
  refine ⟨?_, lineFeed_masked_iff t, fun i hi => ?_, fun i => blank_of_commented, ?_, ?_⟩
  · rw [length_bytes, length_bytes, size_masked]
  · rw [getElem?_bytes_masked, if_neg hi]
  · exact comments_of_code (segments_masked t)
  · exact masked_of_code (segments_masked t)

/-- The second byte of a character in a comment becomes a space, and the line feed behind the comment stays. -/
theorem crowdedGap_masked :
    comments crowdedGap = [(1, 5), (7, 12), (12, 17)] ∧ Commented (comments crowdedGap) 4 ∧
      ¬Commented (comments crowdedGap) 5 ∧
      ((masked crowdedGap).bytes[4]? = some 0x20 ∨ (masked crowdedGap).bytes[4]? = some 0x0a) ∧
      (masked crowdedGap).bytes[5]? = crowdedGap.bytes[5]? ∧ comments (masked crowdedGap) = [] := by
  obtain ⟨-, -, houtside, hinside, hnone, -⟩ := masked_faithful crowdedGap
  have hcomments : comments crowdedGap = [(1, 5), (7, 12), (12, 17)] := by decide +kernel
  have hin : Commented (comments crowdedGap) 4 := by rw [hcomments]; decide
  have hout : ¬Commented (comments crowdedGap) 5 := by rw [hcomments]; decide
  exact ⟨hcomments, hin, hout, hinside 4 hin, houtside 5 hout, hnone⟩

end Gap

end Reprint
