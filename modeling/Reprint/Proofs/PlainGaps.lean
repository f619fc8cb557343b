import Mathlib
import Reprint.Proofs.Punctuation
/-!
How the gaps of code that was printed from scratch are divided. They hold no comments, so what decides is the first
mark in the gap. Main statements: between two lists of parameters everything goes to the left (`splitBetween_paren`),
but where empty lists stand between them the left side gets the first empty list only (`splitBetween_pair`), and
behind the last list the closing parenthesis goes to the left (`splitBetween_type`, `splitBetween_body`).
-/

namespace Reprint.Gap
open Text

/-- A mark that begins with a character stands nowhere before it. -/
theorem firstFrom_skip (mark : Mark) {c : Char} (hother : ∀ before d t, d ≠ c → mark before (d :: t) = none)
    {a b : Text} (ha : c ∉ a) (before : Option Char) (offset : Nat) :
    ∃ before', mark.firstFrom before offset (a ++ b) = mark.firstFrom before' (offset + size a) b := by
  induction a generalizing before offset with
  | nil => exact ⟨before, rfl⟩
  | cons d a ih =>
    have hd : d ≠ c := fun h => ha (h ▸ List.mem_cons_self ..)
    obtain ⟨before', ih⟩ := ih (fun h => ha (List.mem_cons_of_mem _ h)) (some d) (offset + d.utf8Size)
    refine ⟨before', ?_⟩
    rw [List.cons_append, Mark.firstFrom, hother _ _ _ hd]
    exact ih.trans (by rw [size_cons, Nat.add_assoc])

/-! ### Texts without comments -/

section Plain
variable {t a b : Text} {i : Nat}

theorem segments_append_plain (h : '/' ∉ a) (b : Text) : segments (a ++ b) = a.map .code ++ segments b := by
  induction a with
  | nil => rfl
  | cons c a ih =>
    have hc : c ≠ '/' := fun hc => h (hc ▸ List.mem_cons_self ..)
    rw [List.cons_append, segments_code fun hs => absurd hs hc, ih fun hs => h (List.mem_cons_of_mem _ hs)]
    rfl

theorem segments_plain (h : '/' ∉ t) : segments t = t.map .code := by
  have hsegments := segments_append_plain h []
  rwa [List.append_nil, segments_nil, List.append_nil] at hsegments

/-- Where everything is code there is no comment, and nothing to blank out. -/
theorem comments_of_code (h : segments t = t.map .code) : comments t = [] := by
  have hcode : ∀ (t : Text) (start : Nat), commentsFrom start (t.map .code) = [] := by
    intro t
    induction t with
    | nil => intro start; rfl
    | cons c t ih => intro start; exact ih _
  rw [comments, h, hcode]

theorem masked_of_code (h : segments t = t.map .code) : masked t = t := by
  rw [masked, h, List.flatMap_map]
  exact List.flatMap_singleton' t

theorem masked_plain (h : '/' ∉ t) : masked t = t := masked_of_code (segments_plain h)

theorem snap_plain (h : '/' ∉ t) : snap t i = i :=
  snap_of_outside (by rw [comments_of_code (segments_plain h)]; exact List.forall_mem_nil _)

/-- A text without commas is cut in two. -/
theorem divide_plain (h : '/' ∉ a ++ b) (hcomma : ',' ∉ a ++ b) : divide (a ++ b) (size a) = (a, b) := by
  have hleft : ¬a.trimEnd.getLast? = some ',' := fun hlast => by
    refine hcomma (List.mem_append_left _ ?_)
    rw [← trimEnd_append_trailingBlanks a]
    exact List.mem_append_left _ (List.mem_of_getLast? hlast)
  have hright : ¬b.trimStart.head? = some ',' := fun hhead => by
    refine hcomma (List.mem_append_right _ ?_)
    rw [← leadingBlanks_append_trimStart b]
    exact List.mem_append_right _ (List.mem_of_head? hhead)
  simp only [divide, leftOf, rightOf, masked_plain h, before_append_size, after_append_size, hleft, hright, if_false]

theorem splitBetween_plain {j : Junction} (h : '/' ∉ t) (hj : j.index? t = none ∨ j.index? t = some i)
    (hrule : (Rule.find? t).map (·.2) = some i) : splitBetween t j = divide t i := by
  obtain ⟨x, hx, rfl⟩ := Option.map_eq_some_iff.mp hrule
  rw [splitBetween, indexBetween, snap_plain h, masked_plain h, hx]
  rcases hj with hj | hj <;> rw [hj]

theorem indexTrailing_code {c : Char} (h : '/' ∉ c :: t) (hc : isBlank c = false) : indexTrailing (c :: t) = 0 := by
  have hfirst : firstCode? (c :: t) = some 0 := by
    rw [firstCode?, masked_plain h, find?]
    simp [hc]
  have hnone : findLast? (· == '\n') (before (c :: t) 0) = none := by
    have := c.utf8Size_pos
    rw [before, if_neg (by omega)]
    rfl
  rw [indexTrailing, snap_plain h, hfirst, Option.getD_some, masked_plain h, hnone]

/-- Behind the last child the gap goes to the parent, if it begins with code. -/
theorem splitTrailing_code {c : Char} (h : '/' ∉ c :: t) (hcomma : ',' ∉ c :: t) (hc : isBlank c = false) :
    splitTrailing (c :: t) = ([], c :: t) := by
  rw [splitTrailing, indexTrailing_code h hc]
  exact divide_plain (a := []) h hcomma

theorem splitLeading_definition {parent : Node} (hparent : parent.isDefinition = true) (h : '/' ∉ t)
    (hcomma : ',' ∉ t) : splitLeading parent t = (t, []) := by
  rw [splitLeading, indexLeading, hparent, if_pos rfl, snap_plain h]
  simpa using divide_plain (a := t) (b := []) (by simpa using h) (by simpa using hcomma)

theorem splitLeading_plain {parent : Node} (hparent : parent.isDefinition = false) (h : '/' ∉ t) :
    splitLeading parent t = divide t ((afterBrace? t).getD ((afterCode? t).getD 0)) := by
  rw [splitLeading, indexLeading, hparent, snap_plain h, masked_plain h, if_neg (by decide)]
  cases afterBrace? t <;> rfl

/-- An opening brace stays with the parent. -/
theorem splitLeading_brace {parent : Node} (hparent : parent.isDefinition = false) (h : '/' ∉ '{' :: t)
    (hcomma : ',' ∉ '{' :: t) : splitLeading parent ('{' :: t) = (['{'], t) := by
  rw [splitLeading_plain hparent h]
  exact divide_plain (a := ['{']) h hcomma

end Plain

theorem ne_of_absent {t : Text} {c d : Char} (h : d ∉ t) (hc : c ∈ t) : (c == d) = false :=
  beq_false_of_ne fun heq => h (heq ▸ hc)

theorem betweenDefinitions?_absent {t : Text} (hline : '\n' ∉ t) (hcomma : ',' ∉ t) : betweenDefinitions? t = none := by
  rw [betweenDefinitions?, find?_absent fun c => ne_of_absent hline]
  exact find?_absent fun c => ne_of_absent hcomma

/-! ### Junctions -/

namespace Junction
variable {j : Junction} {code : Text}

/-- The kinds of the neighbours do not decide where the marks they look for are missing. -/
theorem index?_eq_none (hleft : j.left.tag ≠ .modifierToken) (hcases : j.opensCases = true → afterBrace? code = none)
    (hdefs : betweenDefinitions? code = none)
    (hparams : j.endsParameters = true → (code.find? fun c => c == '=' || c == '{') = none) :
    j.index? code = none := by
  rw [index?, if_neg hleft]
  split
  · exact hcases ‹_›
  · split
    · exact hdefs
    · split
      · exact hparams ‹_›
      · rfl

theorem index?_absent_marks (hleft : j.left.tag ≠ .modifierToken) (h : ∀ c ∈ ['{', '\n', ',', '='], c ∉ code) :
    j.index? code = none := by
  refine index?_eq_none hleft (fun _ => ?_) (betweenDefinitions?_absent (h _ (by decide)) (h _ (by decide))) fun _ => ?_
  · rw [afterBrace?, find?_absent fun c => ne_of_absent (h '{' (by decide)), Option.map_none]
  · refine find?_absent fun c hc => ?_
    rw [ne_of_absent (h '=' (by decide)) hc, ne_of_absent (h '{' (by decide)) hc]
    rfl

/-- Neighbours of all kinds are divided at the beginning, if they are divided by their kinds. -/
theorem index?_eq_zero (hcases : afterBrace? code = none) (hdefs : betweenDefinitions? code = some 0)
    (hparams : (code.find? fun c => c == '=' || c == '{') = none) : j.index? code = none ∨ j.index? code = some 0 := by
  rw [index?]
  split
  · exact .inr rfl
  · split
    · exact .inl hcases
    · split
      · exact .inr hdefs
      · split
        · exact .inl hparams
        · exact .inl rfl

end Junction

section Siblings
variable {j : Junction}

theorem splitBetween_modifier {t : Text} (hleft : j.left.tag = .modifierToken) (h : '/' ∉ t) (hcomma : ',' ∉ t) :
    splitBetween t j = ([], t) := by
  rw [splitBetween, indexBetween, snap_plain h, Junction.index?, if_pos hleft]
  exact divide_plain (a := []) h hcomma

/-- Where the kinds of the neighbours do not decide, the first rule does. -/
theorem splitBetween_rule {t : Text} {i : Nat} (hleft : j.left.tag ≠ .modifierToken) (hcases : j.opensCases = false)
    (hends : j.endsParameters = false) (h : '/' ∉ t) (hdefs : betweenDefinitions? t = none)
    (hrule : (Rule.find? t).map (·.2) = some i) : splitBetween t j = divide t i := by
  refine splitBetween_plain h (.inl (Junction.index?_eq_none hleft (fun hc => ?_) hdefs fun he => ?_)) hrule
  · rw [hcases] at hc
    cases hc
  · rw [hends] at he
    cases he

theorem splitBetween_list : splitBetween [',', ' '] j = ([], [' ']) := by
  rw [splitBetween_plain (i := 0) (by decide) (Junction.index?_eq_zero rfl rfl rfl) (by decide +kernel)]
  decide +kernel

theorem splitBetween_line : splitBetween ['\n', ' ', ' '] j = ([], ['\n', ' ', ' ']) := by
  rw [splitBetween_plain (i := 0) (by decide) (Junction.index?_eq_zero rfl rfl rfl) (by decide +kernel)]
  exact divide_plain (a := []) (by decide) (by decide)

end Siblings

/-! ### Parameters of a method -/

/-- Empty lists of parameters. -/
def pairs (k : Nat) : Text := (List.replicate k ['(', ')']).flatten

theorem pairs_succ (k : Nat) : pairs (k + 1) = '(' :: ')' :: pairs k := by
  rw [pairs, List.replicate_succ, List.flatten_cons]
  rfl

theorem pairs_concat (k : Nat) : pairs (k + 1) = pairs k ++ ['(', ')'] := by
  rw [pairs, List.replicate_succ', List.flatten_append]
  rfl

theorem mem_pairs {k : Nat} {c : Char} (h : c ∈ pairs k) : c = '(' ∨ c = ')' := by
  obtain ⟨l, hl, hc⟩ := List.mem_flatten.mp h
  rw [List.eq_of_mem_replicate hl] at hc
  simpa using hc

/-- Nothing, or the bracket that closes what stands ahead of a list of parameters. -/
inductive Closing : Text → Prop where
  | none : Closing []
  | types : Closing [']']
  | params : Closing [')']

theorem Closing.mem {x : Text} {c : Char} (h : Closing x) (hc : c ∈ x) : c = ']' ∨ c = ')' := by
  cases h with
  | none => cases hc
  | types => exact .inl (List.mem_singleton.mp hc)
  | params => exact .inr (List.mem_singleton.mp hc)

section Params
variable {j : Junction} {x y : Text} {c : Char} {k : Nat}

theorem absent_gap (hx : Closing x) (h : c ∉ '(' :: ')' :: ']' :: y) : c ∉ x ++ pairs k ++ y := by
  intro hc
  rw [List.mem_append, List.mem_append] at hc
  simp only [List.mem_cons, not_or] at h
  rcases hc with (hc | hc) | hc
  · rcases hx.mem hc with rfl | rfl
    · exact h.2.2.1 rfl
    · exact h.2.1 rfl
  · rcases mem_pairs hc with rfl | rfl
    · exact h.1 rfl
    · exact h.2.1 rfl
  · exact h.2.2.2 hc

theorem index?_gap (hx : Closing x) (hleft : j.left.tag ≠ .modifierToken)
    (h : ∀ c ∈ ['{', '\n', ',', '='], c ∉ '(' :: ')' :: ']' :: y) : j.index? (x ++ pairs k ++ y) = none :=
  Junction.index?_absent_marks hleft fun c hc => absent_gap hx (h c hc)

/-- Right ahead of a list of parameters the gap goes to the left. -/
theorem splitBetween_paren (hx : Closing x) (hleft : j.left.tag ≠ .modifierToken) :
    splitBetween (x ++ ['(']) j = (x ++ ['('], []) := by
  have hindex : j.index? (x ++ ['(']) = none := by simpa [pairs] using index?_gap (k := 0) hx hleft (y := ['(']) (by simp)
  have hrule : (Rule.find? (x ++ ['('])).map (·.2) = some (size (x ++ ['('])) := by
    cases hx <;> decide +kernel
  have hslash : '/' ∉ x ++ ['('] ++ [] := by cases hx <;> decide
  have hcomma : ',' ∉ x ++ ['('] ++ [] := by cases hx <;> decide
  rw [splitBetween_plain (by simpa using hslash) (.inl hindex) hrule]
  simpa using divide_plain hslash hcomma

theorem index?_taken {r : Rule} {t : Text} {i : Nat} (hsees : r.seesComments = false)
    (hfirst : r.mark.first? (masked t) = some i) (haccepts : r.accepts t i = true) : r.index? t = some i := by
  rw [Rule.index?, hsees]
  show (r.mark.first? (masked t)).bind (fun i => if r.accepts t i then some i else none) = _
  rw [hfirst, Option.bind_some, if_pos haccepts]

/-- The rules for keywords and comments do not apply to gaps of punctuation. -/
theorem keywords_missing {t : Text} (h : ∀ c ∈ ['e', 'm', 'c', '/'], c ∉ t) (hcode : t.allBlank = false) :
    ∀ r ∈ Rule.all.take 4, r.index? t = none := by
  have hmask := masked_plain (h '/' (by decide))
  intro r hr
  simp only [Rule.all, List.take_succ_cons, List.take_zero, List.mem_cons, List.not_mem_nil, or_false] at hr
  rcases hr with rfl | rfl | rfl | rfl
  · exact index?_absent rfl (needs_word (c := 'e') (by decide)) (hmask.symm ▸ h _ (by decide))
  · exact index?_absent rfl needs_matchWord (hmask.symm ▸ h _ (by decide))
  · exact index?_refused fun _ => by simpa only [hmask] using hcode
  · exact index?_absent rfl (needs_word (c := 'c') (by decide)) (hmask.symm ▸ h _ (by decide))

/-- The first empty list of a gap divides it, if there is no colon. -/
theorem find?_pair (hparen : '(' ∉ x) (habsent : ∀ c ∈ ['e', 'm', 'c', '/', ':'], c ∉ x ++ '(' :: ')' :: y) :
    (Rule.find? (x ++ '(' :: ')' :: y)).map (·.2) = some (size x + (2 + size y.leadingBlanks)) := by
  have hmask := masked_plain (habsent '/' (by decide))
  have hpair : Rule.index? { name := "empty_parens", tier := .primary, mark := .emptyParens } (x ++ '(' :: ')' :: y) =
      some (size x + (2 + size y.leadingBlanks)) := by
    obtain ⟨before, hskip⟩ := firstFrom_skip .emptyParens (b := '(' :: ')' :: y)
      (fun _ d t hd => by unfold Mark.emptyParens; split <;> simp_all) hparen none 0
    have hhere : Mark.emptyParens before ('(' :: ')' :: y) = some (2 + size y.leadingBlanks) := by
      have hspaced : Mark.spaced [')'] none (Text.trimStart (')' :: y)) = some (1 + size y.leadingBlanks) := rfl
      have hblanks : Text.leadingBlanks (')' :: y) = [] := rfl
      rw [Mark.emptyParens, hspaced, hblanks]
      exact congrArg some (by rw [size_nil]; omega)
    rw [index?_accepted rfl fun _ => rfl, Mark.first?, hmask, hskip, Mark.firstFrom, hhere, Nat.zero_add]
  have hnone := keywords_missing (fun c hc => habsent c (List.mem_append_left [':'] hc))
    (by rw [allBlank, List.all_append, List.all_cons]; simp [isBlank])
  refine Option.map_eq_some_iff.mpr ⟨_, List.findSome?_eq_some_iff.mpr ⟨Rule.all.take 5, _, Rule.all.drop 6, rfl,
    Option.map_eq_some_iff.mpr ⟨_, hpair, rfl⟩, fun r hr => ?_⟩, rfl⟩
  have hsplit : Rule.all.take 5 = Rule.all.take 4 ++ (Rule.all.drop 4).take 1 := rfl
  rw [hsplit, List.mem_append] at hr
  rcases hr with hr | hr
  · rw [hnone r hr, Option.map_none]
  · rw [List.mem_singleton.mp hr, index?_absent rfl (needs_spaced (c := ':') (by decide))
      (hmask.symm ▸ habsent _ (by decide)), Option.map_none]

/-- A gap with an empty list in it is divided behind the list and the blanks that follow it. -/
theorem splitBetween_emptyParens {b : Text} (hparen : '(' ∉ x) (hb : leadingBlanks (b ++ y) = b)
    (habsent : ∀ c ∈ ['e', 'm', 'c', '/', ':', ','], c ∉ x ++ '(' :: ')' :: (b ++ y))
    (hindex : j.index? (x ++ '(' :: ')' :: (b ++ y)) = none) :
    splitBetween (x ++ '(' :: ')' :: (b ++ y)) j = (x ++ '(' :: ')' :: b, y) := by
  have hrule := find?_pair hparen fun c hc => habsent c (List.mem_append_left [','] hc)
  have hsize : size x + (2 + size b) = size (x ++ '(' :: ')' :: b) := by
    rw [size_append, size_cons, size_cons, ← Nat.add_assoc ('('.utf8Size)]
    rfl
  have hdivide := divide_plain (a := x ++ '(' :: ')' :: b) (b := y) (by simpa using habsent '/' (by decide))
    (by simpa using habsent ',' (by decide))
  rw [splitBetween_plain (habsent '/' (by decide)) (.inl hindex) hrule, hb, hsize]
  simpa using hdivide

theorem Closing.paren (hx : Closing x) : '(' ∉ x := fun hmem => by rcases hx.mem hmem with h | h <;> cases h

theorem leadingBlanks_pairs {z : Text} (hz : leadingBlanks z = []) : leadingBlanks (pairs k ++ z) = [] := by
  cases k with
  | zero => exact hz
  | succ k => rw [pairs_succ]; rfl

/-- Of empty lists ahead of a list of parameters only the first one goes to the left. -/
theorem splitBetween_pair (hx : Closing x) (hleft : j.left.tag ≠ .modifierToken) :
    splitBetween (x ++ pairs (k + 1) ++ ['(']) j = (x ++ ['(', ')'], pairs k ++ ['(']) := by
  have hindex := index?_gap (k := k + 1) (y := ['(']) hx hleft (by simp)
  have habsent : ∀ c ∈ ['e', 'm', 'c', '/', ':', ','], c ∉ x ++ pairs (k + 1) ++ ['('] :=
    fun c hc => absent_gap hx (by revert c; simp)
  rw [pairs_succ, List.append_assoc] at hindex habsent ⊢
  exact splitBetween_emptyParens (b := []) hx.paren (leadingBlanks_pairs rfl) habsent hindex

/-- Ahead of a type the gap goes to the left. -/
theorem splitBetween_type (hx : Closing x) (hleft : j.left.tag ≠ .modifierToken) :
    splitBetween (x ++ pairs k ++ [':', ' ']) j = (x ++ pairs k ++ [':', ' '], []) := by
  have hindex := index?_gap (k := k) (y := [':', ' ']) hx hleft (by simp)
  have habsent : ∀ c ∈ ['e', 'm', 'c', '/', ',', '@'], c ∉ x ++ pairs k ++ [':', ' '] :=
    fun c hc => absent_gap hx (by revert c; simp)
  have hcolon : ':' ∉ x ++ pairs k := by simpa using absent_gap (k := k) (y := []) hx (by decide : ':' ∉ _)
  have hmask := masked_plain (habsent '/' (by decide))
  have hrule : (Rule.find? (x ++ pairs k ++ [':', ' '])).map (·.2) = some (size (x ++ pairs k ++ [':', ' '])) := by
    obtain ⟨before, hskip⟩ := firstFrom_skip (.spaced [':']) (b := [':', ' '])
      (fun _ d t hd => by simp [Mark.spaced, Ne.symm hd]) hcolon none 0
    have hfirst : (Mark.spaced [':']).first? (x ++ pairs k ++ [':', ' ']) = some (size (x ++ pairs k ++ [':', ' '])) := by
      rw [Mark.first?, hskip, Nat.zero_add, size_append (x ++ pairs k)]
      rfl
    have hnone := keywords_missing (fun c hc => habsent c (List.mem_append_left [',', '@'] hc))
      (by rw [allBlank, List.all_append, List.all_cons]; simp [isBlank])
    have hindex : Rule.index? (Rule.all.get ⟨4, by decide⟩) (x ++ pairs k ++ [':', ' ']) =
        some (size (x ++ pairs k ++ [':', ' '])) := by
      have hat : '@' ∉ (x ++ pairs k ++ [':', ' ']).before (size (x ++ pairs k ++ [':', ' '])) := fun hat =>
        habsent '@' (by decide) (before_append_after (x ++ pairs k ++ [':', ' ']) _ ▸ List.mem_append_left _ hat)
      refine index?_taken rfl (hmask.symm ▸ hfirst) ?_
      show (!((masked (x ++ pairs k ++ [':', ' '])).before _).contains '@') = true
      rw [hmask, Bool.not_eq_true']
      simpa using hat
    exact Option.map_eq_some_iff.mpr ⟨_, List.findSome?_eq_some_iff.mpr ⟨Rule.all.take 4, _, Rule.all.drop 5, rfl,
      Option.map_eq_some_iff.mpr ⟨_, hindex, rfl⟩, fun r hr => by rw [hnone r hr, Option.map_none]⟩, rfl⟩
  have hdivide := divide_plain (a := x ++ pairs k ++ [':', ' ']) (b := []) (by simpa using habsent '/' (by decide))
    (by simpa using habsent ',' (by decide))
  rw [splitBetween_plain (habsent '/' (by decide)) (.inl hindex) hrule]
  simpa using hdivide

/-- Ahead of a body the closing parenthesis goes to the left. -/
theorem splitBetween_body (hleft : j.left.tag ≠ .modifierToken) (hcases : j.opensCases = false)
    (hends : j.endsParameters = true) : ∃ (l m : Nat) (u v : Text), u.allBlank = true ∧
      (v = ['=', ' '] ∨ v = [' ', '=', ' ']) ∧
      splitBetween ([')'] ++ pairs k ++ [' ', '=', ' ']) j = ([')'] ++ pairs l ++ u, pairs m ++ v) := by
  have habsent : ∀ c ∈ ['e', 'm', 'c', '/', ':', ','], c ∉ [')'] ++ pairs k ++ [' ', '=', ' '] :=
    fun c hc => absent_gap .params (by revert c; simp)
  have hslash := habsent '/' (by decide)
  by_cases hdefs : (j.left.isDefinition && j.right.isDefinition) = true
  · have hindex : j.index? ([')'] ++ pairs k ++ [' ', '=', ' ']) = none := by
      rw [Junction.index?, if_neg hleft, hcases, if_neg (by decide), if_pos hdefs]
      exact betweenDefinitions?_absent (absent_gap .params (by decide)) (habsent _ (by decide))
    cases k with
    | zero =>
      refine ⟨0, 0, [], [' ', '=', ' '], rfl, .inr rfl, ?_⟩
      rw [splitBetween_plain (i := 1) hslash (.inl hindex) (by decide +kernel)]
      exact divide_plain (a := [')']) (by decide) (by decide)
    | succ k =>
      rw [pairs_succ, List.append_assoc] at hindex habsent ⊢
      cases k with
      | zero =>
        exact ⟨1, 0, [' '], ['=', ' '], rfl, .inl rfl,
          splitBetween_emptyParens (x := [')']) (b := [' ']) (by decide) rfl habsent hindex⟩
      | succ k =>
        exact ⟨1, k + 1, [], [' ', '=', ' '], rfl, .inr rfl,
          splitBetween_emptyParens (x := [')']) (b := []) (by decide) rfl habsent hindex⟩
  · refine ⟨k, 0, [' '], ['=', ' '], rfl, .inl rfl, ?_⟩
    have hindex : j.index? ([')'] ++ pairs k ++ [' ', '=', ' ']) = some (size ([')'] ++ pairs k ++ [' '])) := by
      rw [Junction.index?, if_neg hleft, hcases, if_neg (by decide), if_neg hdefs, if_pos hends]
      have hfind := find?_append_cons (p := fun c => c == '=' || c == '{') (a := [')'] ++ pairs k ++ [' ']) (b := [' '])
        (c := '=') (fun d hd => ?_) rfl
      · simpa using hfind
      · have hfree : ∀ c ∈ ['=', '{'], c ∉ [')'] ++ pairs k ++ [' '] := fun c hc => absent_gap .params (by revert c; simp)
        rw [ne_of_absent (hfree '=' (by decide)) hd, ne_of_absent (hfree '{' (by decide)) hd]
        rfl
    rw [splitBetween, indexBetween, snap_plain hslash, masked_plain hslash, hindex]
    have hdivide := divide_plain (a := [')'] ++ pairs k ++ [' ']) (b := ['=', ' ']) (by simpa using hslash)
      (by simpa using habsent ',' (by decide))
    simpa [pairs] using hdivide

end Params

end Reprint.Gap
