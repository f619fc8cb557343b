import Mathlib
import Reprint.Proofs.Joining
import Reprint.Proofs.PlainGaps
/-!
The words of a text. A gap without comments is divided between two words, whatever rule decides, and of the commas
that are dropped and the separators that are put in none is part of a word. So no word is cut in two, lost or joined
to another one. Main statements: a gap between two siblings has the words of its two sides (`spared_splitBetween`),
and so has a text that was put behind another one with a separator (`words_glue_comma`, `words_glue_paren`).
-/

namespace Reprint

namespace Text

/-- The words of a text: the longest runs of word characters in it. -/
def words (t : Text) : List Text := (t.splitOnP (!isWordChar ·)).filter (!·.isEmpty)

section Words
variable {a b t : Text} {c : Char}

@[simp] theorem words_nil : words [] = [] := by simp [words, List.splitOnP_nil]

theorem words_append_cons (hc : isWordChar c = false) (a b : Text) : words (a ++ c :: b) = words a ++ words b := by
  rw [words, List.splitOnP_append_cons a b (by simp [hc]), List.filter_append]
  rfl

theorem words_cons (hc : isWordChar c = false) (t : Text) : words (c :: t) = words t := by
  simpa using words_append_cons hc [] t

/-- A text of word characters only is one word. -/
theorem words_of_all (hne : t ≠ []) (h : ∀ c ∈ t, isWordChar c = true) : words t = [t] := by
  rw [words, List.splitOnP_eq_singleton fun c hc => by simp [h c hc]]
  simp [hne]

theorem words_dropWhile {p : Char → Bool} (hp : ∀ c, p c = true → isWordChar c = false) (t : Text) :
    words (t.dropWhile p) = words t := by
  induction t with
  | nil => rfl
  | cons c t ih =>
    by_cases hc : p c = true
    · rw [List.dropWhile_cons_of_pos hc, ih, words_cons (hp c hc)]
    · rw [List.dropWhile_cons_of_neg hc]

theorem words_append (h : apart a b = true) : words (a ++ b) = words a ++ words b := by
  rcases Bool.or_eq_true_iff.mp h with ha | hb
  · rcases List.eq_nil_or_concat a with rfl | ⟨a, c, rfl⟩
    · rfl
    · have hc : isWordChar c = false := by simpa using ha
      rw [List.concat_eq_append, List.append_assoc, List.singleton_append, words_append_cons hc,
        words_append_cons hc, words_nil, List.append_nil]
  · cases b with
    | nil => simp
    | cons c b =>
      have hc : isWordChar c = false := by simpa [endsWord] using hb
      rw [words_append_cons hc, words_cons hc]

theorem words_of_allBlank (h : t.allBlank = true) : words t = [] := by
  induction t with
  | nil => exact words_nil
  | cons c t ih =>
    obtain ⟨hc, ht⟩ := List.forall_mem_cons.mp (List.all_eq_true.mp h)
    rw [words_cons (isWordChar_of_isBlank hc), ih (List.all_eq_true.mpr ht)]

/-- A text that goes on with a mark behind some blanks does not go on with a word. -/
theorem endsWord_of_trimStart (hc : isWordChar c = false) (h : t.trimStart.head? = some c) : endsWord t = true := by
  rw [← leadingBlanks_append_trimStart t]
  refine endsWord_append (endsWord_of_allBlank (allBlank_leadingBlanks t)) fun _ => ?_
  obtain ⟨s, hs⟩ := List.head?_eq_some_iff.mp h
  rw [hs, endsWord, hc]
  rfl

theorem leavesWord_of_trimEnd (hc : isWordChar c = false) (h : t.trimEnd.getLast? = some c) : leavesWord t = true := by
  rw [← trimEnd_append_trailingBlanks t]
  refine leavesWord_append (leavesWord_of_allBlank (allBlank_trailingBlanks t)) fun _ => ?_
  rw [leavesWord, h, Option.any_some, hc]
  rfl

end Words

end Text

namespace Gap
open Text

/-! ### Dividing between words -/

/-- A gap between two siblings is divided between two words. -/
theorem between_indexBetween {t : Text} (hplain : '/' ∉ t) (j : Junction) : Between t (indexBetween t j) := by
  unfold indexBetween
  dsimp only
  rw [snap_plain hplain, masked_plain hplain]
  split
  · exact j.between_index? ‹_›
  · split
    · next hrule => exact (between_of_rule hrule).elim id (masked_plain hplain ▸ ·)
    · exact ⟨t, [], (List.append_nil t).symm, rfl, Bool.or_true _⟩

/-- A gap that was divided without a word being cut or lost. Where the gap does not begin or end within a word, its
sides do not either. -/
structure Spared (t l r : Text) : Prop where
  words : t.words = l.words ++ r.words
  start : endsWord t = true → endsWord l = true
  stop : leavesWord t = true → leavesWord r = true

section Spared
variable {a b t : Text}

/-- A comma at the end of the left side is dropped. -/
theorem leftOf_cases (hplain : '/' ∉ a ++ b) : leftOf (a ++ b) (size a) = a ∨
    ∃ x y : Text, a = x ++ ',' :: y ∧ y.allBlank = true ∧ leftOf (a ++ b) (size a) = x ++ y := by
  rw [leftOf, masked_plain hplain, before_append_size]
  split
  · next hlast =>
    obtain ⟨x, hx⟩ := List.getLast?_eq_some_iff.mp hlast
    have ha : a = x ++ ',' :: a.trailingBlanks := by
      conv_lhs => rw [← trimEnd_append_trailingBlanks a, hx]
      simp
    refine .inr ⟨x, a.trailingBlanks, ha, allBlank_trailingBlanks a, ?_⟩
    rw [hx, size_append]
    conv_lhs => rw [ha]
    exact removeAt_append x a.trailingBlanks rfl
  · exact .inl rfl

/-- A comma at the beginning of the right side is dropped. -/
theorem rightOf_cases (hplain : '/' ∉ a ++ b) : rightOf (a ++ b) (size a) = b ∨
    ∃ x y : Text, b = x ++ ',' :: y ∧ x.allBlank = true ∧ rightOf (a ++ b) (size a) = x ++ y := by
  rw [rightOf, masked_plain hplain, after_append_size]
  split
  · next hhead =>
    obtain ⟨y, hy⟩ := List.head?_eq_some_iff.mp hhead
    have hb : b = b.leadingBlanks ++ ',' :: y := by rw [← hy, leadingBlanks_append_trimStart]
    refine .inr ⟨b.leadingBlanks, y, hb, allBlank_leadingBlanks b, ?_⟩
    have hremove := removeAt_append b.leadingBlanks y (c := ',') rfl
    rwa [← hb] at hremove
  · exact .inl rfl

theorem words_leftOf (hplain : '/' ∉ a ++ b) : (leftOf (a ++ b) (size a)).words = a.words := by
  rcases leftOf_cases hplain with h | ⟨x, y, ha, hy, h⟩
  · rw [h]
  · rw [h, ha, words_append_cons (isWordChar_of_mark ',' (by decide)),
      words_append (apart_of_endsWord (endsWord_of_allBlank hy))]

theorem words_rightOf (hplain : '/' ∉ a ++ b) : (rightOf (a ++ b) (size a)).words = b.words := by
  rcases rightOf_cases hplain with h | ⟨x, y, hb, hx, h⟩
  · rw [h]
  · rw [h, hb, words_append_cons (isWordChar_of_mark ',' (by decide)),
      words_append (apart_of_leavesWord (leavesWord_of_allBlank hx))]

theorem endsWord_leftOf (hplain : '/' ∉ a ++ b) (h : endsWord (a ++ b) = true) :
    endsWord (leftOf (a ++ b) (size a)) = true := by
  have ha : ∀ x y : Text, endsWord (x ++ y) = true → endsWord x = true := by
    intro x y hxy
    cases x with
    | nil => rfl
    | cons c x => exact hxy
  rcases leftOf_cases hplain with hleft | ⟨x, y, rfl, hy, hleft⟩
  · rw [hleft]
    exact ha a b h
  · rw [hleft]
    exact endsWord_append (ha x _ (ha _ b h)) fun _ => endsWord_of_allBlank hy

theorem leavesWord_rightOf (hplain : '/' ∉ a ++ b) (h : leavesWord (a ++ b) = true) :
    leavesWord (rightOf (a ++ b) (size a)) = true := by
  have hb : ∀ x y : Text, leavesWord (x ++ y) = true → leavesWord y = true := by
    intro x y hxy
    rcases List.eq_nil_or_concat y with rfl | ⟨y, c, rfl⟩
    · rfl
    · rw [List.concat_eq_append] at hxy ⊢
      rwa [← List.append_assoc, leavesWord_concat, ← leavesWord_concat y] at hxy
  rcases rightOf_cases hplain with hright | ⟨x, y, rfl, hx, hright⟩
  · rw [hright]
    exact hb a b h
  · rw [hright]
    exact leavesWord_append (hb (x ++ [',']) y (by simpa using hb a _ h)) fun _ => leavesWord_of_allBlank hx

theorem spared_divide (hplain : '/' ∉ t) {i : Nat} (h : Between t i) : Spared t (divide t i).1 (divide t i).2 := by
  obtain ⟨a, b, rfl, rfl, hapart⟩ := h
  exact {
    words := by rw [words_append hapart, divide, words_leftOf hplain, words_rightOf hplain]
    start := endsWord_leftOf hplain
    stop := leavesWord_rightOf hplain }

/-- A gap between two siblings has the words of its two sides. -/
theorem spared_splitBetween (hplain : '/' ∉ t) (j : Junction) :
    Spared t (splitBetween t j).1 (splitBetween t j).2 :=
  spared_divide hplain (between_indexBetween hplain j)

end Spared

end Gap

/-! ### Glue -/

namespace Separator
open Text

section Glue
variable (out t : Text)

/-- A text behind another one, with a mark between them or at the end of one of them. -/
theorem words_behind {sep : Text} {c : Char} (hc : isWordChar c = false)
    (h : (∃ blanks : Text, sep = c :: blanks ∧ blanks.allBlank = true) ∨
      sep = [] ∧ (out.trimEnd.getLast? = some c ∨ t.trimStart.head? = some c)) :
    (out ++ sep ++ t).words = out.words ++ t.words := by
  rcases h with ⟨blanks, rfl, hblank⟩ | ⟨rfl, h⟩
  · rw [List.append_assoc, List.cons_append, words_append_cons hc,
      words_append (apart_of_leavesWord (leavesWord_of_allBlank hblank)), words_of_allBlank hblank]
    rfl
  · rw [List.append_nil, words_append]
    rcases h with h | h
    · exact apart_of_leavesWord (leavesWord_of_trimEnd hc h)
    · exact apart_of_endsWord (endsWord_of_trimStart hc h)

theorem words_glue_comma :
    (out ++ (glue out ", ".toList t).1 ++ (glue out ", ".toList t).2).words = out.words ++ t.words := by
  rw [glue_comma]
  refine words_behind out t (isWordChar_of_mark ',' (by decide)) ?_
  split
  · exact .inr ⟨rfl, ‹_›⟩
  · refine .inl ⟨_, rfl, ?_⟩
    split <;> decide

theorem words_glue_paren :
    (out ++ (glue out "(".toList t).1 ++ (glue out "(".toList t).2).words = out.words ++ t.words := by
  have hparen : isWordChar '(' = false := isWordChar_of_mark '(' (by decide)
  rw [glue_open]
  split
  · next h =>
    have hout : leavesWord out = true := by
      rw [leavesWord, h, Option.any_some, hparen]
      rfl
    rw [List.append_nil, words_append (apart_of_leavesWord hout),
      words_dropWhile fun c hc => isWordChar_of_isBlank (isBlank_of_isIndent hc)]
  · split
    · exact words_behind out t hparen (.inr ⟨rfl, ‹_›⟩)
    · exact words_behind out t hparen (.inl ⟨[], rfl, rfl⟩)

end Glue

end Separator

end Reprint
