import Reprint.Proofs.Division
/-!
Gaps whose only code is one punctuation mark. Behind the callee of a call there is a parenthesis, and the gap is
divided behind it. Between two arguments there is a comma; the gap is divided at its first line break, or else at the
comma, and the comma is dropped. Behind the last argument the closing parenthesis stays with the call.
-/

namespace Reprint

namespace Gap
open Text

/-! ### Gaps with one piece of code -/

/-- A gap whose only code is one character. -/
def Only (mark : Char) (t : Text) : Prop :=
  ∃ a b : Text, masked t = a ++ mark :: b ∧ a.allBlank = true ∧ b.allBlank = true

theorem only_singleton {c : Char} (hc : c ≠ '/') : Only c [c] := by
  refine ⟨[], [], ?_, rfl, rfl⟩
  rw [masked, segments_code fun h => absurd h hc, segments_nil]
  rfl

theorem removeAt_append (a b : Text) {c : Char} (hc : c.utf8Size = 1) : removeAt (a ++ c :: b) (size a) = a ++ b := by
  have hafter : (a ++ c :: b).after (size a + 1) = b := by
    have := after_append_size (a ++ [c]) b
    simpa [hc] using this
  rw [removeAt, before_append_size, hafter]

/-- Where the gap between two siblings holds one comma, blanks and comments lead the right one. -/
theorem padding_rightOf {t : Text} {i : Nat} (h : Only ',' t) (hcut : IsCut t i) : Padding (rightOf t i) := by
  obtain ⟨a, b, hmask, ha, hb⟩ := h
  obtain ⟨ss, ss', hss, rfl⟩ := hcut
  have hcomma : isBlank ',' = false := by decide
  rw [masked_cut hss] at hmask
  rw [rightOf, masked_after_cut hss, after_cut hss]
  have hpads : ∀ s, (∀ x ∈ s, x ∈ ss') → Text.allBlank (masks s) = true → ∀ x ∈ s, x.Pads := fun s hs =>
    pads_of_blank fun x hx => by
      rw [hss]
      exact List.mem_append_right _ (hs x hx)
  -- The comma stands on the right, or it has been left behind.
  have hright : ∀ m, a = masks ss ++ m → masks ss' = m ++ ',' :: b →
      Padding (if (masks ss').trimStart.head? = some ',' then removeAt (raws ss') (masks ss').leadingBlanks.size
        else raws ss') := by
    rintro m rfl hm
    have hmblank : m.allBlank = true := (allBlank_append.mp ha).2
    obtain ⟨htrim, hlead⟩ := trimStart_append (b := b) hmblank hcomma
    rw [hm, htrim, hlead, List.head?_cons, if_pos rfl]
    obtain ⟨s, s', rfl, rfl, rfl⟩ := masks_split hcomma hm
    rw [raws_append, raws_cons, size_masks]
    refine ⟨s ++ s', (removeAt_append (raws s) (raws s') rfl).trans (raws_append s s').symm, ?_⟩
    intro x hx
    rcases List.mem_append.mp hx with hx | hx
    · exact hpads s (fun y hy => List.mem_append_left _ hy) hmblank x hx
    · exact hpads s' (fun y hy => List.mem_append_right _ (List.mem_cons_of_mem _ hy)) hb x hx
  rcases List.append_eq_append_iff.mp hmask with ⟨m, hm, hrest⟩ | ⟨m, hm, hrest⟩
  · exact hright m hm hrest
  · cases m with
    | nil => exact hright [] (by simpa using hm.symm) hrest.symm
    | cons d m =>
      obtain ⟨-, rfl⟩ := List.cons.inj hrest
      have hblank : Text.allBlank (masks ss') = true := (allBlank_append.mp hb).2
      rw [trimStart_blank hblank, if_neg (by simp)]
      exact ⟨ss', rfl, hpads ss' (fun _ => id) hblank⟩

/-! ### The opening of a call -/

/-- Wherever a mark stands, a certain character stands ahead. -/
def Needs (mark : Mark) (c : Char) : Prop := ∀ before t n, mark before t = some n → c ∈ t

theorem first?_eq_none {mark : Mark} {c : Char} {t : Text} (h : Needs mark c) (hc : c ∉ t) : mark.first? t = none := by
  refine Option.eq_none_iff_forall_ne_some.mpr fun n hn => ?_
  obtain ⟨a, b, m, rfl, hm, -⟩ := firstFrom_eq_some hn
  exact hc (List.mem_append_right _ (h _ b m hm))

theorem needs_word {w : Text} {c : Char} (hc : c ∈ w) : Needs (.word w) c := by
  intro before t n h
  obtain ⟨-, -, rest, rfl⟩ := word_eq_some h
  exact List.mem_append_left _ hc

theorem needs_spaced {w : Text} {c : Char} (hc : c ∈ w) : Needs (.spaced w) c := by
  intro before t n h
  obtain ⟨rest, rfl, -⟩ := spaced_eq_some h
  exact List.mem_append_left _ hc

theorem needs_matchWord : Needs .matchWord 'm' := by
  intro before t n h
  obtain ⟨c, rest, rfl, -⟩ := matchWord_eq_some h
  simp

theorem needs_emptyParens : Needs .emptyParens ')' := by
  intro before t n h
  obtain ⟨a, rest, rfl, -⟩ := emptyParens_eq_some h
  simp

/-- A mark that looks at one character stands where the character is. -/
theorem firstFrom_append {mark : Mark} {c : Char} {k : Nat} (hhere : ∀ before t, mark before (c :: t) = some k)
    (hother : ∀ before d t, d ≠ c → mark before (d :: t) = none) {a b : Text} (ha : c ∉ a) (before : Option Char)
    (offset : Nat) : mark.firstFrom before offset (a ++ c :: b) = some (offset + (size a + k)) := by
  induction a generalizing before offset with
  | nil => rw [List.nil_append, Mark.firstFrom, hhere, size_nil, Nat.zero_add]
  | cons d a ih =>
    have hd : d ≠ c := fun h => ha (h ▸ List.mem_cons_self ..)
    rw [List.cons_append, Mark.firstFrom, hother _ _ _ hd]
    have := ih (fun h => ha (List.mem_cons_of_mem _ h)) (some d) (offset + d.utf8Size)
    rw [this, size_cons, Nat.add_assoc, Nat.add_assoc]

section Rules
variable {t a b : Text} {mark c : Char} {r : Rule}

theorem absent_of_blank (h : masked t = a ++ mark :: b) (ha : a.allBlank = true) (hb : b.allBlank = true)
    (hblank : isBlank c = false) (hne : c ≠ mark) : c ∉ masked t := by
  intro hc
  rw [h, List.mem_append, List.mem_cons] at hc
  rcases hc with hc | rfl | hc
  · exact not_mem_of_allBlank ha hblank hc
  · exact hne rfl
  · exact not_mem_of_allBlank hb hblank hc

theorem index?_accepted (hsees : r.seesComments = false) (haccepts : ∀ i, r.accepts t i = true) :
    r.index? t = r.mark.first? (masked t) := by
  rw [Rule.index?, hsees]
  show (r.mark.first? (masked t)).bind (fun i => if r.accepts t i then some i else none) = _
  simp only [haccepts, if_true]
  cases r.mark.first? (masked t) <;> rfl

theorem index?_absent (hsees : r.seesComments = false) (hneeds : Needs r.mark c) (hc : c ∉ masked t) :
    r.index? t = none := by
  rw [Rule.index?, hsees]
  show (r.mark.first? (masked t)).bind _ = none
  rw [first?_eq_none hneeds hc]
  rfl

theorem index?_refused (h : ∀ i, r.accepts t i = false) : r.index? t = none :=
  Option.bind_eq_none_iff.mpr fun i _ => by simp [h i]

/-- Where a parenthesis or a comma is all the code of a gap, the rules for keywords and colons do not apply. -/
theorem keywords_absent (h : masked t = a ++ mark :: b) (ha : a.allBlank = true) (hb : b.allBlank = true)
    (hmark : mark = '(' ∨ mark = ',') : ∀ r ∈ Rule.all.take 6, r.index? t = none := by
  have habsent : ∀ c, isBlank c = false → c ≠ '(' → c ≠ ',' → c ∉ masked t := by
    intro c hblank hparen hcomma
    refine absent_of_blank h ha hb hblank ?_
    rcases hmark with rfl | rfl
    · exact hparen
    · exact hcomma
  have hcode : (masked t).allBlank = false := by
    rw [h, allBlank, List.all_append, List.all_cons]
    rcases hmark with rfl | rfl <;> simp [isBlank]
  intro r hr
  simp only [Rule.all, List.take_succ_cons, List.take_zero, List.mem_cons, List.not_mem_nil, or_false] at hr
  rcases hr with rfl | rfl | rfl | rfl | rfl | rfl
  · exact index?_absent rfl (needs_word (c := 'e') (by decide)) (habsent _ (by decide) (by decide) (by decide))
  · exact index?_absent rfl needs_matchWord (habsent _ (by decide) (by decide) (by decide))
  · exact index?_refused fun _ => hcode
  · exact index?_absent rfl (needs_word (c := 'c') (by decide)) (habsent _ (by decide) (by decide) (by decide))
  · exact index?_absent rfl (needs_spaced (c := ':') (by decide)) (habsent _ (by decide) (by decide) (by decide))
  · exact index?_absent rfl needs_emptyParens (habsent _ (by decide) (by decide) (by decide))

/-- Where an opening parenthesis is all the code of a gap, no rule comes before the one that divides behind it. -/
theorem find?_opening (h : masked t = a ++ '(' :: b) (ha : a.allBlank = true) (hb : b.allBlank = true) :
    ∃ r, Rule.find? t = some (r, size a + 1) := by
  have hparen : '(' ∉ a := not_mem_of_allBlank ha rfl
  have hopening : Rule.index? { name := "opening_paren", tier := .primary, mark := .behind ['('] } t =
      some (size a + 1) := by
    rw [index?_accepted rfl fun _ => rfl, Mark.first?, h, firstFrom_append (k := 1)
      (fun _ _ => by simp [Mark.behind]; rfl) (fun _ d _ hd => by simp [Mark.behind, Ne.symm hd]) hparen, Nat.zero_add]
  refine ⟨_, List.findSome?_eq_some_iff.mpr ⟨Rule.all.take 6, _, Rule.all.drop 7, rfl,
    Option.map_eq_some_iff.mpr ⟨_, hopening, rfl⟩, fun r hr => ?_⟩⟩
  rw [keywords_absent h ha hb (.inl rfl) r hr, Option.map_none]

theorem needs_ahead {w : Text} (hc : c ∈ w) : Needs (.ahead w) c := by
  intro before t n h
  obtain ⟨-, rest, rfl⟩ := ahead_eq_some h
  exact List.mem_append_left _ hc

theorem needs_behind {w : Text} (hc : c ∈ w) : Needs (.behind w) c := by
  intro before t n h
  obtain ⟨-, rest, rfl⟩ := behind_eq_some h
  exact List.mem_append_left _ hc

theorem needs_importLine : Needs .importLine 'i' := by
  intro before t n h
  obtain ⟨-, s, hs, hmem⟩ := importLine_eq_some h
  rcases afterLineBreak?_eq_some hs with rfl | rfl <;> simp [hmem]

/-- Where a comma is all the code of a gap, the gap is divided at its first line break, or else at the comma. -/
theorem find?_comma (h : masked t = a ++ ',' :: b) (ha : a.allBlank = true) (hb : b.allBlank = true) :
    ∃ r, Rule.find? t = some (r, (Mark.lineBreak.first? (masked t)).getD (size a)) := by
  have habsent : ∀ c, isBlank c = false → c ≠ ',' → c ∉ masked t := fun c => absent_of_blank h ha hb
  have hcomma : ',' ∉ a := not_mem_of_allBlank ha rfl
  have hnone : ∀ r ∈ Rule.all.take 11, r.index? t = none := by
    have hsplit : Rule.all.take 11 = Rule.all.take 6 ++ (Rule.all.drop 6).take 5 := rfl
    intro r hr
    rw [hsplit, List.mem_append] at hr
    rcases hr with hr | hr
    · exact keywords_absent h ha hb (.inr rfl) r hr
    · simp only [Rule.all, List.drop_succ_cons, List.drop_zero, List.take_succ_cons, List.take_zero, List.mem_cons,
        List.not_mem_nil, or_false] at hr
      rcases hr with rfl | rfl | rfl | rfl | rfl
      · exact index?_absent rfl (needs_behind (c := '(') (by decide)) (habsent _ (by decide) (by decide))
      · exact index?_absent rfl (needs_spaced (c := '=') (by decide)) (habsent _ (by decide) (by decide))
      · exact index?_absent rfl (needs_behind (c := ')') (by decide)) (habsent _ (by decide) (by decide))
      · exact index?_absent rfl (needs_ahead (c := '=') (by decide)) (habsent _ (by decide) (by decide))
      · exact index?_absent rfl needs_importLine (habsent _ (by decide) (by decide))
  have hbreak : Rule.index? { name := "newline", tier := .secondary, mark := .lineBreak } t =
      Mark.lineBreak.first? (masked t) := index?_accepted rfl fun _ => rfl
  have hahead : Rule.index? { name := "comma", tier := .secondary, mark := .ahead [','] } t = some (size a) := by
    rw [index?_accepted rfl fun _ => rfl, Mark.first?, h, firstFrom_append (k := 0) (fun _ _ => by simp [Mark.ahead])
      (fun _ d _ hd => by simp [Mark.ahead, Ne.symm hd]) hcomma, Nat.zero_add]
    rfl
  cases hfirst : Mark.lineBreak.first? (masked t) with
  | some i =>
    refine ⟨_, List.findSome?_eq_some_iff.mpr ⟨Rule.all.take 11, _, Rule.all.drop 12, rfl,
      Option.map_eq_some_iff.mpr ⟨_, hbreak.trans hfirst, rfl⟩, fun r hr => ?_⟩⟩
    rw [hnone r hr, Option.map_none]
  | none =>
    refine ⟨_, List.findSome?_eq_some_iff.mpr ⟨Rule.all.take 12, _, Rule.all.drop 13, rfl,
      Option.map_eq_some_iff.mpr ⟨_, hahead, rfl⟩, fun r hr => ?_⟩⟩
    have hsplit : Rule.all.take 12 = Rule.all.take 11 ++ (Rule.all.drop 11).take 1 := rfl
    rw [hsplit, List.mem_append] at hr
    rcases hr with hr | hr
    · rw [hnone r hr, Option.map_none]
    · rw [List.mem_singleton.mp hr, hbreak, hfirst, Option.map_none]

theorem splitBetween_comma {j : Junction} (h : masked t = a ++ ',' :: b) (ha : a.allBlank = true)
    (hb : b.allBlank = true) (hj : j.index? (masked t) = none) :
    splitBetween t j = divide t (snap t ((Mark.lineBreak.first? (masked t)).getD (size a))) := by
  obtain ⟨r, hr⟩ := find?_comma h ha hb
  rw [splitBetween, indexBetween, hj, hr]

end Rules

theorem closed_of_code {t : Text} {ss : List Segment} {c : Char} (h : segments t = ss ++ [.code c]) (hc : c ≠ '/') :
    Closed t := by
  rcases segments_append_cases t with hclosed | ⟨ss', hss', -⟩ | ⟨ss', l, hss', -⟩ | ⟨ss', l, hss', -⟩
  · exact hclosed
  all_goals
    have hlast := (List.append_inj' (h.symm.trans hss') rfl).2
    cases hlast
  exact absurd rfl hc

/-- The gap between the callee and the first argument falls apart behind the parenthesis. -/
theorem splitBetween_opening {t : Text} {j : Junction} (h : Only '(' t) (hj : j.index? (masked t) = none) :
    (∃ x, (splitBetween t j).1 = x ++ ['(']) ∧ Closed (splitBetween t j).1 ∧ Padding (splitBetween t j).2 := by
  obtain ⟨a, b, hmask, ha, hb⟩ := h
  have hparen : isBlank '(' = false := by decide
  obtain ⟨s, s', hss, rfl, rfl⟩ := masks_split hparen hmask
  have hcut : segments t = (s ++ [.code '(']) ++ s' := by simpa using hss
  have hindex : indexBetween t j = size (raws (s ++ [.code '('])) := by
    obtain ⟨r, hr⟩ := find?_opening hmask ha hb
    have hsize : size (masks s) + 1 = size (raws (s ++ [.code '('])) := by
      rw [size_masks, raws_append, size_append]
      rfl
    rw [indexBetween, hj, hr]
    show snap t (size (masks s) + 1) = _
    rw [hsize]
    exact snap_of_isCut ⟨_, _, hcut, rfl⟩
  have hmasks : masks (s ++ [.code '(']) = masks s ++ ['('] := List.flatMap_append
  have hleft : (splitBetween t j).1 = raws s ++ ['('] := by
    show leftOf t (indexBetween t j) = _
    rw [hindex, leftOf, masked_before_cut hcut, before_cut hcut, hmasks]
    have htrim : (masks s ++ ['(']).trimEnd = masks s ++ ['('] := by
      simp [trimEnd, hparen]
    rw [htrim, List.getLast?_concat, if_neg (by decide), raws_append]
    rfl
  refine ⟨⟨_, hleft⟩, ?_, ?_⟩
  · rw [hleft]
    have hsegments := segments_raws_left hcut
    rw [raws_append] at hsegments
    exact closed_of_code hsegments (by decide)
  · show Padding (rightOf t (indexBetween t j))
    rw [hindex, rightOf, masked_after_cut hcut, after_cut hcut, trimStart_blank hb, if_neg (by simp)]
    refine ⟨s', rfl, pads_of_blank (t := t) (fun x hx => ?_) hb⟩
    rw [hcut]
    exact List.mem_append_right _ hx

theorem splitLeading_nil (parent : Node) : splitLeading parent [] = ([], []) := by
  have hmask : masked [] = [] := by rw [masked, segments_nil]; rfl
  simp [splitLeading, divide, leftOf, rightOf, hmask, before, after, trimStart, trimEnd]

/-- An offset before the first code of a text stays before it. -/
theorem snap_le {t a b : Text} {c : Char} {i : Nat} (h : masked t = a ++ c :: b) (hc : isBlank c = false)
    (hi : i ≤ size a) : snap t i ≤ size a := by
  obtain ⟨s, s', hss, rfl, -⟩ := masks_split hc h
  have hcut : snap t (size (masks s)) = size (masks s) := snap_of_isCut ⟨s, _, hss, size_masks s⟩
  calc snap t i ≤ snap t (size (masks s)) := snap_mono hi
    _ = size (masks s) := hcut

/-- What is left to a call behind its last argument has the closing parenthesis and no other code. -/
theorem only_splitTrailing {t : Text} (h : Only ')' t) : Only ')' (splitTrailing t).2 := by
  obtain ⟨a, b, hmask, ha, hb⟩ := h
  have hparen : isBlank ')' = false := by decide
  obtain ⟨i, hi, hbound, hindex⟩ := indexTrailing_le t
  rw [hmask, (trimStart_append ha hparen).2] at hi
  have hle := snap_le hmask hparen hi
  obtain ⟨ss, ss', hss, hcut⟩ := isCut_snap (.inr hbound)
  rw [hcut, ← size_masks] at hle
  obtain ⟨m, rfl, hm⟩ := append_eq_append_of_size_le ((masked_cut hss).symm.trans hmask) hle
  have hmblank : m.allBlank = true := (allBlank_append.mp ha).2
  have hright : (splitTrailing t).2 = raws ss' := by
    show rightOf t (indexTrailing t) = _
    rw [hindex, hcut, rightOf, masked_after_cut hss, after_cut hss, hm, (trimStart_append hmblank hparen).1,
      List.head?_cons, if_neg (by decide)]
  rw [hright]
  refine ⟨m, b, ?_, hmblank, hb⟩
  rw [masked, (segments_raws_right hss).1]
  exact hm

end Gap

end Reprint
