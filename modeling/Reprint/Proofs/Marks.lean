import Reprint.Layout.Around
import Reprint.Proofs.Blanks
import Reprint.Proofs.Segments
/-!
Marks at which gaps are divided. Neither blanks nor marks are word characters. So whatever mark decides, and whatever
neighbours, a gap is divided between two characters, and no word goes on from one side to the other.
-/

namespace Reprint

/-! ### Word characters -/

/-- Ranges of blanks and of the marks at which gaps are divided, in increasing order. -/
def breakRanges : List (Nat × Nat) :=
  [(0x9, 0xd), (0x20, 0x20), (0x28, 0x29), (0x2c, 0x2c), (0x2e, 0x2f), (0x3a, 0x3a), (0x3d, 0x3e), (0x7b, 0x7b),
   (0x85, 0x85), (0xa0, 0xa0), (0x1680, 0x1680), (0x2000, 0x200a), (0x2028, 0x2029), (0x202f, 0x202f),
   (0x205f, 0x205f), (0x3000, 0x3000)]

theorem isWordChar_of_range {c : Char} {s : Nat × Nat} (hs : s ∈ breakRanges)
    (hc : s.1 ≤ c.toNat ∧ c.toNat ≤ s.2) : isWordChar c = false := by
  have hapart : (breakRanges.all fun s => wordRanges.all fun r => r.2.blt s.1 || s.2.blt r.1) = true := by
    decide +kernel
  refine List.any_eq_false.mpr fun r hr => ?_
  have hr := List.all_eq_true.mp (List.all_eq_true.mp hapart s hs) r hr
  simp only [Bool.or_eq_true, Nat.blt_eq] at hr
  simp only [Bool.and_eq_true, decide_eq_true_eq]
  omega

theorem isWordChar_of_isBlank {c : Char} (h : isBlank c = true) : isWordChar c = false := by
  simp only [isBlank, Bool.or_eq_true, Bool.and_eq_true, decide_eq_true_eq, beq_iff_eq] at h
  rcases h with (((((((((h | h) | h) | h) | h) | h) | h) | h) | h) | h) | h
  · exact isWordChar_of_range (s := (0x9, 0xd)) (by decide) h
  · exact isWordChar_of_range (s := (0x20, 0x20)) (by decide) (by omega)
  · exact isWordChar_of_range (s := (0x85, 0x85)) (by decide) (by omega)
  · exact isWordChar_of_range (s := (0xa0, 0xa0)) (by decide) (by omega)
  · exact isWordChar_of_range (s := (0x1680, 0x1680)) (by decide) (by omega)
  · exact isWordChar_of_range (s := (0x2000, 0x200a)) (by decide) h
  · exact isWordChar_of_range (s := (0x2028, 0x2029)) (by decide) (by omega)
  · exact isWordChar_of_range (s := (0x2028, 0x2029)) (by decide) (by omega)
  · exact isWordChar_of_range (s := (0x202f, 0x202f)) (by decide) (by omega)
  · exact isWordChar_of_range (s := (0x205f, 0x205f)) (by decide) (by omega)
  · exact isWordChar_of_range (s := (0x3000, 0x3000)) (by decide) (by omega)

theorem isWordChar_of_mark (c : Char) (h : c ∈ ['/', ':', '(', ')', '{', '>', '=', ',', '.', '\n', '\r']) :
    isWordChar c = false := by
  have hranges : (['/', ':', '(', ')', '{', '>', '=', ',', '.', '\n', '\r'].all fun c =>
      breakRanges.any fun s => s.1.ble c.toNat && c.toNat.ble s.2) = true := by decide +kernel
  obtain ⟨s, hs, hc⟩ := List.any_eq_true.mp (List.all_eq_true.mp hranges c h)
  simp only [Bool.and_eq_true, Nat.ble_eq] at hc
  exact isWordChar_of_range hs hc

namespace Text
variable {t : Text} {n : Nat}

theorem find?_eq_some {p : Char → Bool} (h : t.find? p = some n) :
    ∃ a c b, t = a ++ c :: b ∧ size a = n ∧ p c = true ∧ ∀ d ∈ a, p d = false := by
  induction t generalizing n with
  | nil => cases h
  | cons d t ih =>
    rw [find?] at h
    split at h
    · cases h
      exact ⟨[], d, t, rfl, rfl, ‹_›, List.forall_mem_nil _⟩
    · next hd =>
      obtain ⟨m, hm, rfl⟩ := Option.map_eq_some_iff.mp h
      obtain ⟨a, c, b, rfl, rfl, hc, ha⟩ := ih hm
      exact ⟨d :: a, c, b, rfl, rfl, hc, List.forall_mem_cons.mpr ⟨Bool.eq_false_iff.mpr hd, ha⟩⟩

theorem find?_absent {p : Char → Bool} (h : ∀ c ∈ t, p c = false) : t.find? p = none := by
  cases hfind : t.find? p with
  | none => rfl
  | some n =>
    obtain ⟨a, c, b, rfl, -, hc, -⟩ := find?_eq_some hfind
    rw [h c (by simp)] at hc
    cases hc

theorem find?_append_cons {p : Char → Bool} {a b : Text} {c : Char} (ha : ∀ d ∈ a, p d = false) (hc : p c = true) :
    find? p (a ++ c :: b) = some (size a) := by
  induction a with
  | nil => simp [find?, hc]
  | cons d a ih =>
    have hd := ha d (List.mem_cons_self ..)
    simp [find?, hd, ih fun e he => ha e (List.mem_cons_of_mem _ he)]

theorem findLast?_eq_none {p : Char → Bool} (h : t.findLast? p = none) : ∀ d ∈ t, p d = false := by
  induction t with
  | nil => exact List.forall_mem_nil _
  | cons d t ih =>
    rw [findLast?] at h
    split at h
    · cases h
    · next hnone =>
      split at h
      · cases h
      · next hd => exact List.forall_mem_cons.mpr ⟨Bool.eq_false_iff.mpr hd, ih hnone⟩

theorem findLast?_eq_some {p : Char → Bool} (h : t.findLast? p = some n) :
    ∃ a c b, t = a ++ c :: b ∧ size a = n ∧ p c = true ∧ ∀ d ∈ b, p d = false := by
  induction t generalizing n with
  | nil => cases h
  | cons d t ih =>
    rw [findLast?] at h
    split at h
    · rename_i m hm
      cases h
      obtain ⟨a, c, b, rfl, rfl, hc, hb⟩ := ih hm
      exact ⟨d :: a, c, b, rfl, rfl, hc, hb⟩
    · next hnone =>
      split at h
      · cases h
        exact ⟨[], d, t, rfl, rfl, ‹_›, findLast?_eq_none hnone⟩
      · cases h

theorem lastLine_append_line {a b : Text} (hb : '\n' ∉ b) : lastLine (a ++ b) = lastLine a ++ b := by
  have hall : ∀ c ∈ b.reverse, (c != '\n') = true := fun c hc => by
    rw [bne_iff_ne]
    rintro rfl
    exact hb (List.mem_reverse.mp hc)
  rw [lastLine, List.reverse_append, List.takeWhile_append_of_pos hall, List.reverse_append, List.reverse_reverse]
  rfl

theorem lastLine_append {a b : Text} (hb : '\n' ∉ b) : lastLine (a ++ '\n' :: b) = b := by
  have hnil : lastLine (a ++ ['\n']) = [] := by simp [lastLine]
  rw [List.append_cons, lastLine_append_line hb, hnil, List.nil_append]

theorem lastLine_concat (a : Text) (c : Char) :
    lastLine (a ++ [c]) = if c = '\n' then [] else lastLine a ++ [c] := by
  split
  · next hc => exact hc ▸ lastLine_append List.not_mem_nil
  · next hc => exact lastLine_append_line fun hmem => hc (List.mem_singleton.mp hmem).symm

/-! ### Ends of words -/

/-- Whether a text does not end within a word. -/
def leavesWord (t : Text) : Bool := !t.getLast?.any isWordChar

section Words
variable {a b t : Text} {c : Char}

@[simp] theorem leavesWord_concat (t : Text) (c : Char) : leavesWord (t ++ [c]) = !isWordChar c := by
  rw [leavesWord, List.getLast?_concat, Option.any_some]

theorem leavesWord_append (hb : leavesWord b = true) (h : b = [] → leavesWord a = true) :
    leavesWord (a ++ b) = true := by
  rcases List.eq_nil_or_concat b with rfl | ⟨b, c, rfl⟩
  · rw [List.append_nil]
    exact h rfl
  · rw [List.concat_eq_append] at hb ⊢
    rwa [← List.append_assoc, leavesWord_concat, ← leavesWord_concat b]

theorem endsWord_append (ha : endsWord a = true) (h : a = [] → endsWord b = true) : endsWord (a ++ b) = true := by
  cases a with
  | nil => exact h rfl
  | cons c a => exact ha

/-- Whether no word goes on from one text into the next one. -/
def apart (a b : Text) : Bool := leavesWord a || endsWord b

theorem apart_of_leavesWord (h : leavesWord a = true) : apart a b = true := Bool.or_eq_true_iff.mpr (.inl h)

theorem apart_of_endsWord (h : endsWord b = true) : apart a b = true := Bool.or_eq_true_iff.mpr (.inr h)

theorem apart_concat (hc : isWordChar c = false) (a b : Text) : apart (a ++ [c]) b = true :=
  apart_of_leavesWord (by rw [leavesWord_concat, hc]; rfl)

theorem apart_cons (hc : isWordChar c = false) (a b : Text) : apart a (c :: b) = true :=
  apart_of_endsWord (by rw [endsWord, hc]; rfl)

theorem endsWord_of_allBlank (h : t.allBlank = true) : endsWord t = true := by
  cases t with
  | nil => rfl
  | cons c t =>
    have hc := isWordChar_of_isBlank (List.all_eq_true.mp h c (List.mem_cons_self ..))
    rw [endsWord, hc]
    rfl

theorem leavesWord_of_allBlank (h : t.allBlank = true) : leavesWord t = true := by
  rcases List.eq_nil_or_concat t with rfl | ⟨t, c, rfl⟩
  · rfl
  · rw [List.concat_eq_append] at h ⊢
    rw [leavesWord_concat, isWordChar_of_isBlank (List.all_eq_true.mp h c (by simp))]
    rfl

end Words

end Text

namespace Gap
open Text

/-! ### Marks -/

/-- A place that was found has the mark ahead of it, and no place ahead of that one has. -/
theorem firstFrom_eq_some {mark : Mark} {before : Option Char} {offset n : Nat} {t : Text}
    (h : mark.firstFrom before offset t = some n) :
    ∃ a b m, t = a ++ b ∧ mark (a.getLast?.or before) b = some m ∧ n = offset + (size a + m) ∧
      ∀ x c y, a = x ++ c :: y → mark (x.getLast?.or before) (c :: y ++ b) = none := by
  induction t generalizing before offset with
  | nil =>
    rw [Mark.firstFrom] at h
    split at h
    · cases h
      exact ⟨[], [], _, rfl, ‹_›, by simp, by simp⟩
    · cases h
  | cons c t ih =>
    rw [Mark.firstFrom] at h
    split at h
    · cases h
      exact ⟨[], c :: t, _, rfl, ‹_›, by simp, by simp⟩
    · next hnone =>
      have hlast : ∀ a : Text, (c :: a).getLast?.or before = a.getLast?.or (some c) := fun a => by
        rw [List.getLast?_cons]
        cases a.getLast? <;> rfl
      obtain ⟨a, b, m, rfl, hm, rfl, hfirst⟩ := ih h
      refine ⟨c :: a, b, m, rfl, by rw [hlast]; exact hm, by rw [size_cons]; omega, fun x d y hsplit => ?_⟩
      rcases x with _ | ⟨e, x⟩
      · obtain ⟨rfl, rfl⟩ := List.cons.inj hsplit
        exact hnone
      · obtain ⟨rfl, rfl⟩ := List.cons.inj hsplit
        rw [hlast]
        exact hfirst x d y rfl

theorem firstFrom_eq_none {mark : Mark} {before : Option Char} {offset : Nat} {a b : Text}
    (h : mark.firstFrom before offset (a ++ b) = none) : mark (a.getLast?.or before) b = none := by
  induction a generalizing before offset with
  | nil =>
    rw [List.nil_append, Mark.firstFrom.eq_def] at h
    split at h
    · cases h
    · next hnone => exact hnone
  | cons c a ih =>
    rw [List.cons_append, Mark.firstFrom] at h
    split at h
    · cases h
    · have := ih h
      rw [List.getLast?_cons]
      cases hlast : a.getLast? <;> rwa [hlast] at this

/-! What stands ahead where a mark is found, and how much of it belongs to the left side. -/

section Found
variable {w t : Text} {before : Option Char} {n : Nat}

theorem word_eq_some (h : Mark.word w before t = some n) :
    n = 0 ∧ before.any isWordChar = false ∧ ∃ rest, t = w ++ rest := by
  unfold Mark.word at h
  split at h <;> cases h
  next hmark =>
    simp only [Bool.and_eq_true, Bool.not_eq_true'] at hmark
    obtain ⟨rest, rfl⟩ := List.isPrefixOf_iff_prefix.mp hmark.1.2
    exact ⟨rfl, hmark.1.1, rest, rfl⟩

theorem matchWord_eq_some (h : Mark.matchWord before t = some n) :
    ∃ c rest, t = c :: ('m' :: rest) ∧ isBlank c = true ∧ n = c.utf8Size := by
  unfold Mark.matchWord at h
  split at h
  · next c t =>
    split at h <;> cases h
    next hmark =>
      simp only [Bool.and_eq_true] at hmark
      obtain ⟨rest, rfl⟩ := List.isPrefixOf_iff_prefix.mp hmark.1.2
      exact ⟨c, _, rfl, hmark.1.1, rfl⟩
  · cases h

theorem ahead_eq_some (h : Mark.ahead w before t = some n) : n = 0 ∧ ∃ rest, t = w ++ rest := by
  unfold Mark.ahead at h
  split at h <;> cases h
  next hmark =>
    obtain ⟨rest, rfl⟩ := List.isPrefixOf_iff_prefix.mp hmark
    exact ⟨rfl, rest, rfl⟩

theorem behind_eq_some (h : Mark.behind w before t = some n) : n = size w ∧ ∃ rest, t = w ++ rest := by
  unfold Mark.behind at h
  split at h <;> cases h
  next hmark =>
    obtain ⟨rest, rfl⟩ := List.isPrefixOf_iff_prefix.mp hmark
    exact ⟨rfl, rest, rfl⟩

theorem spaced_eq_some (h : Mark.spaced w before t = some n) :
    ∃ rest, t = w ++ rest ∧ n = size (w ++ leadingBlanks rest) := by
  unfold Mark.spaced at h
  split at h <;> cases h
  next hmark =>
    obtain ⟨rest, rfl⟩ := List.isPrefixOf_iff_prefix.mp hmark
    exact ⟨rest, rfl, by rw [List.drop_left, size_append]⟩

theorem emptyParens_eq_some (h : Mark.emptyParens before t = some n) :
    ∃ a rest, t = '(' :: a ++ ')' :: rest ∧ n = size ('(' :: a ++ ')' :: leadingBlanks rest) := by
  unfold Mark.emptyParens at h
  split at h
  · next t =>
    split at h <;> cases h
    next m hmark =>
      obtain ⟨rest, htrim, rfl⟩ := spaced_eq_some hmark
      refine ⟨leadingBlanks t, rest, ?_, ?_⟩
      · rw [← List.singleton_append (l := rest), List.cons_append, ← htrim, leadingBlanks_append_trimStart]
      · rw [size_append, size_cons, size_append]
        rfl
  · cases h

theorem afterLineBreak?_eq_some {s : Text} (h : Mark.afterLineBreak? t = some s) :
    t = '\n' :: s ∨ t = '\r' :: '\n' :: s := by
  unfold Mark.afterLineBreak? at h
  split at h <;> cases h
  · exact .inl rfl
  · exact .inr rfl

theorem lineBreak_eq_some (h : Mark.lineBreak before t = some n) : n = 0 ∧ ∃ s, Mark.afterLineBreak? t = some s := by
  unfold Mark.lineBreak at h
  split at h <;> cases h
  next hmark => exact ⟨rfl, Option.isSome_iff_exists.mp hmark⟩

theorem importLine_eq_some (h : Mark.importLine before t = some n) :
    n = 0 ∧ ∃ s, Mark.afterLineBreak? t = some s ∧ 'i' ∈ s := by
  unfold Mark.importLine at h
  split at h
  · next s hs =>
    dsimp only at h
    split at h <;> cases h
    next hmark =>
      simp only [Bool.and_eq_true] at hmark
      have hword : 'i' ∈ s.dropWhile fun c => c == ' ' || c == '\t' :=
        (List.isPrefixOf_iff_prefix.mp hmark.1).subset (by decide)
      exact ⟨rfl, s, hs, (List.dropWhile_sublist _).subset hword⟩
  · cases h

end Found

/-- A mark that stands between two words. -/
def Parts (mark : Mark) : Prop := ∀ (a b : Text) (n : Nat), mark a.getLast? b = some n →
  ∃ x y, b = x ++ y ∧ n = size x ∧ apart (a ++ x) y = true

section Marks
variable {w t : Text} {c : Char}

theorem parts_word (w : Text) : Parts (.word w) := by
  intro a b n h
  obtain ⟨rfl, hbefore, -⟩ := word_eq_some h
  refine ⟨[], b, rfl, rfl, apart_of_leavesWord ?_⟩
  rw [List.append_nil, leavesWord, hbefore]
  rfl

theorem parts_matchWord : Parts .matchWord := by
  intro a b n h
  obtain ⟨c, rest, rfl, hc, rfl⟩ := matchWord_eq_some h
  exact ⟨[c], _, rfl, by simp, apart_concat (isWordChar_of_isBlank hc) a _⟩

theorem parts_ahead (hc : isWordChar c = false) : Parts (.ahead (c :: w)) := by
  intro a b n h
  obtain ⟨rfl, rest, rfl⟩ := ahead_eq_some h
  exact ⟨[], _, rfl, rfl, apart_cons hc _ _⟩

theorem parts_behind (hc : isWordChar c = false) : Parts (.behind (w ++ [c])) := by
  intro a b n h
  obtain ⟨rfl, rest, rfl⟩ := behind_eq_some h
  exact ⟨w ++ [c], rest, rfl, rfl, by rw [← List.append_assoc]; exact apart_concat hc _ _⟩

/-- What ends in a mark and the blanks behind it does not end in a word. -/
theorem leavesWord_blanks (hc : isWordChar c = false) (a rest : Text) :
    leavesWord (a ++ c :: leadingBlanks rest) = true := by
  rw [List.append_cons]
  refine leavesWord_append (leavesWord_of_allBlank (allBlank_leadingBlanks rest)) fun _ => ?_
  rw [leavesWord_concat, hc]
  rfl

theorem parts_spaced (hc : isWordChar c = false) : Parts (.spaced (w ++ [c])) := by
  intro a b n h
  obtain ⟨rest, rfl, rfl⟩ := spaced_eq_some h
  refine ⟨_, trimStart rest, ?_, rfl, apart_of_leavesWord ?_⟩
  · rw [List.append_assoc (w ++ [c]), leadingBlanks_append_trimStart]
  · simpa using leavesWord_blanks hc (a ++ w) rest

theorem parts_emptyParens : Parts .emptyParens := by
  intro a b n h
  obtain ⟨x, rest, rfl, rfl⟩ := emptyParens_eq_some h
  refine ⟨_, trimStart rest, ?_, rfl, apart_of_leavesWord ?_⟩
  · rw [List.append_assoc, List.cons_append (a := ')'), leadingBlanks_append_trimStart]
  · rw [← List.append_assoc]
    exact leavesWord_blanks (isWordChar_of_mark _ (by decide)) _ rest

/-- What begins with a line break does not go on with a word. -/
theorem endsWord_of_lineBreak {s : Text} (h : Mark.afterLineBreak? t = some s) : endsWord t = true := by
  rcases afterLineBreak?_eq_some h with rfl | rfl <;> rw [endsWord, isWordChar_of_mark _ (by decide)] <;> rfl

theorem parts_lineBreak : Parts .lineBreak := by
  intro a b n h
  obtain ⟨rfl, s, hs⟩ := lineBreak_eq_some h
  exact ⟨[], b, rfl, rfl, apart_of_endsWord (endsWord_of_lineBreak hs)⟩

theorem parts_importLine : Parts .importLine := by
  intro a b n h
  obtain ⟨rfl, s, hs, -⟩ := importLine_eq_some h
  exact ⟨[], b, rfl, rfl, apart_of_endsWord (endsWord_of_lineBreak hs)⟩

theorem parts_of_mem_all {r : Rule} (h : r ∈ Rule.all) : Parts r.mark := by
  simp only [Rule.all, List.mem_cons, List.not_mem_nil, or_false] at h
  rcases h with rfl | rfl | rfl | rfl | rfl | rfl | rfl | rfl | rfl | rfl | rfl | rfl | rfl | rfl
  · exact parts_word _
  · exact parts_matchWord
  · exact parts_ahead (isWordChar_of_mark _ (by decide))
  · exact parts_word _
  · exact parts_spaced (w := []) (isWordChar_of_mark _ (by decide))
  · exact parts_emptyParens
  · exact parts_behind (w := []) (isWordChar_of_mark _ (by decide))
  · exact parts_spaced (w := ['=']) (isWordChar_of_mark _ (by decide))
  · exact parts_behind (w := []) (isWordChar_of_mark _ (by decide))
  · exact parts_ahead (isWordChar_of_mark _ (by decide))
  · exact parts_importLine
  · exact parts_lineBreak
  · exact parts_ahead (isWordChar_of_mark _ (by decide))
  · exact parts_ahead (isWordChar_of_mark _ (by decide))

end Marks

/-- The start of a line break is a carriage return, or a line feed without one. -/
theorem lineBreakAt_cases (a b : Text) :
    (∃ x, a = x ++ ['\r'] ∧ lineBreakAt (a ++ '\n' :: b) (size a) = size x) ∨
      (a.getLast? ≠ some '\r' ∧ lineBreakAt (a ++ '\n' :: b) (size a) = size a) := by
  rw [lineBreakAt, before_append_size]
  split
  · next hlast =>
    obtain ⟨x, rfl⟩ := List.getLast?_eq_some_iff.mp hlast
    refine .inl ⟨x, rfl, ?_⟩
    rw [size_append]
    exact Nat.add_sub_cancel ..
  · next hlast => exact .inr ⟨hlast, rfl⟩

/-! ### Places between two words -/

/-- An offset at which no word of a text is cut. -/
def Between (t : Text) (i : Nat) : Prop := ∃ a b, t = a ++ b ∧ i = size a ∧ apart a b = true

section Between
variable {t : Text} {i : Nat}

theorem Between.isBoundary (h : Between t i) : t.isBoundary i := by
  obtain ⟨a, b, rfl, rfl, -⟩ := h
  exact isBoundary_append_size a b

/-- A rule finds its mark between two words of what it sees. -/
theorem between_first? {r : Rule} (hr : r ∈ Rule.all) (h : r.mark.first? t = some i) : Between t i := by
  obtain ⟨a, b, m, htext, hm, hi, -⟩ := firstFrom_eq_some h
  rw [Option.or_none] at hm
  obtain ⟨x, y, rfl, rfl, hapart⟩ := parts_of_mem_all hr a b m hm
  exact ⟨a ++ x, y, by rw [htext, List.append_assoc], by rw [hi, Nat.zero_add, size_append], hapart⟩

/-- A rule that divides a gap has found its mark and takes the place. -/
theorem Rule.index?_inv {r : Rule} (h : r.index? t = some i) :
    r.mark.first? (if r.seesComments then t else masked t) = some i ∧ r.accepts t i = true := by
  obtain ⟨j, hj, h⟩ := Option.bind_eq_some_iff.mp h
  split at h
  · cases h
    exact ⟨hj, ‹_›⟩
  · cases h

theorem Rule.find?_inv {r : Rule} (h : Rule.find? t = some (r, i)) : r ∈ Rule.all ∧ r.index? t = some i := by
  obtain ⟨r', hr', h⟩ := List.exists_of_findSome?_eq_some h
  obtain ⟨i', hi', heq⟩ := Option.map_eq_some_iff.mp h
  cases heq
  exact ⟨hr', hi'⟩

/-- A rule divides what it sees of a gap between two words. -/
theorem between_of_rule {r : Rule} (h : Rule.find? t = some (r, i)) : Between t i ∨ Between (masked t) i := by
  obtain ⟨hr, h⟩ := Rule.find?_inv h
  have hview := between_first? hr (Rule.index?_inv h).1
  split at hview
  · exact .inl hview
  · exact .inr hview

/-- Where the neighbours decide, they decide for the start, for what follows a brace, for a line break or for a mark. -/
theorem Junction.index?_cases {j : Junction} (h : j.index? t = some i) :
    i = 0 ∨ (∃ a b, t = a ++ '{' :: b ∧ i = size a + 1) ∨ (∃ a b, t = a ++ '\n' :: b ∧ i = lineBreakAt t (size a)) ∨
      ∃ a c b, t = a ++ c :: b ∧ i = size a ∧ c ∈ [',', '=', '{'] := by
  unfold index? at h
  split at h
  · cases h
    exact .inl rfl
  split at h
  · obtain ⟨n, hn, rfl⟩ := Option.map_eq_some_iff.mp h
    obtain ⟨a, c, b, htext, rfl, hc, -⟩ := find?_eq_some hn
    obtain rfl := beq_iff_eq.mp hc
    exact .inr (.inl ⟨a, b, htext, rfl⟩)
  split at h
  · unfold betweenDefinitions? at h
    split at h
    · next n hn =>
      cases h
      obtain ⟨a, c, b, htext, rfl, hc, -⟩ := find?_eq_some hn
      obtain rfl := beq_iff_eq.mp hc
      exact .inr (.inr (.inl ⟨a, b, htext, rfl⟩))
    · obtain ⟨a, c, b, htext, rfl, hc, -⟩ := find?_eq_some h
      exact .inr (.inr (.inr ⟨a, c, b, htext, rfl, by simp [beq_iff_eq.mp hc]⟩))
  split at h
  · obtain ⟨a, c, b, htext, rfl, hc, -⟩ := find?_eq_some h
    simp only [Bool.or_eq_true, beq_iff_eq] at hc
    exact .inr (.inr (.inr ⟨a, c, b, htext, rfl, by rcases hc with rfl | rfl <;> simp⟩))
  · cases h

theorem Junction.between_index? {j : Junction} (h : j.index? t = some i) : Between t i := by
  rcases index?_cases h with rfl | ⟨a, b, rfl, rfl⟩ | ⟨a, b, rfl, rfl⟩ | ⟨a, c, b, rfl, rfl, hc⟩
  · exact ⟨[], t, rfl, rfl, rfl⟩
  · exact ⟨a ++ ['{'], b, by simp, by rw [size_append]; rfl, apart_concat (isWordChar_of_mark _ (by decide)) a b⟩
  · rcases lineBreakAt_cases a b with ⟨x, rfl, hindex⟩ | ⟨-, hindex⟩ <;> rw [hindex]
    · exact ⟨x, '\r' :: '\n' :: b, by simp, rfl, apart_cons (isWordChar_of_mark _ (by decide)) _ _⟩
    · exact ⟨a, '\n' :: b, rfl, rfl, apart_cons (isWordChar_of_mark _ (by decide)) _ _⟩
  · have hmark : [',', '=', '{'] ⊆ ['/', ':', '(', ')', '{', '>', '=', ',', '.', '\n', '\r'] := by decide
    exact ⟨a, c :: b, rfl, rfl, apart_cons (isWordChar_of_mark _ (hmark hc)) a b⟩

end Between

end Gap

end Reprint
