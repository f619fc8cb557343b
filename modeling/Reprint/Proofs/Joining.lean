import Reprint.Print.Separator
import Reprint.Proofs.Blanks
import Reprint.Proofs.Segments
/-!
Texts joined with commas. Between two texts the printer puts a comma, unless one of them has it already, blanks
apart. It does not look whether that comma, or the place where it would put one, lies in a comment. The outcome can
be read only if each text by itself takes a comma behind it (`TakesComma`) and the last one what closes the list.
-/

namespace Reprint

namespace Separator
open Text Gap

/-- Glue adds nothing, the separator, or what is left of it, and takes nothing from the right text but indentation. -/
theorem glue_cases (out sep t : Text) :
    ((glue out sep t).1 = [] ∨ (glue out sep t).1 = sep ∨ (glue out sep t).1 = fit out sep t) ∧
      ((glue out sep t).2 = t ∨ (glue out sep t).2 = t.dropWhile isIndent) := by
  unfold glue
  dsimp only
  split
  · split <;> simp
  · split
    · simp
    · split <;> simp

/-! ### One comma -/

theorem isSuffixOf_singleton {c : Char} {t : Text} : [c].isSuffixOf t = true ↔ t.getLast? = some c := by
  rw [List.isSuffixOf_iff_suffix, List.getLast?_eq_some_iff]
  exact ⟨fun ⟨a, h⟩ => ⟨a, h.symm⟩, fun ⟨a, h⟩ => ⟨a, h.symm⟩⟩

theorem isPrefixOf_singleton {c : Char} {t : Text} : [c].isPrefixOf t = true ↔ t.head? = some c := by
  cases t with
  | nil => simp
  | cons d t => simp [eq_comm (a := c)]

theorem glue_comma (left right : Text) : glue left ", ".toList right =
    (if left.trimEnd.getLast? = some ',' ∨ right.trimStart.head? = some ',' then []
      else ',' :: if right.leadingBlanks.isEmpty then [' '] else [], right) := by
  have hcore : Text.trim ", ".toList = [','] := by decide
  have hfit : fit left ", ".toList right = ',' :: if right.leadingBlanks.isEmpty then [' '] else [] := by
    have hstart : Text.trimStart ", ".toList = ", ".toList := by decide
    rw [fit, hstart, ite_self]
    split
    · rfl
    · decide
  have hlast : (", ".toList).getLast?.any isBlank = true := by decide
  simp only [glue, hcore, hfit, hlast, isSuffixOf_singleton, isPrefixOf_singleton, List.isEmpty_cons, Bool.not_true,
    Bool.and_false, Bool.false_eq_true, if_false, Bool.or_eq_true]
  split <;> rfl

theorem glue_open (left right : Text) : glue left "(".toList right =
    if left.getLast? = some '(' then ([], right.dropWhile isIndent)
    else if left.trimEnd.getLast? = some '(' ∨ right.trimStart.head? = some '(' then ([], right)
    else (['('], right) := by
  have hcore : Text.trim "(".toList = ['('] := by decide
  have hlast : ("(".toList).getLast?.any isBlank = false := by decide
  have hfit : fit left "(".toList right = ['('] := by
    have hstart : Text.trimStart "(".toList = ['('] := by decide
    have hend : Text.trimEnd ['('] = ['('] := by decide
    rw [fit, hstart]
    show (if _ then (if _ then ['('] else ['(']) else Text.trimEnd (if _ then ['('] else ['('])) = ['(']
    rw [ite_self, hend, ite_self]
  simp only [glue, hcore, hfit, hlast, isSuffixOf_singleton, isPrefixOf_singleton, List.isEmpty_cons, Bool.not_false,
    Bool.and_true, Bool.false_eq_true, if_false, Bool.or_eq_true]

theorem glue_paren (x right : Text) : glue (x ++ ['(']) "(".toList right = ([], right.dropWhile isIndent) := by
  rw [glue_open, if_pos List.getLast?_concat]

/-! ### Lists of texts -/

/-- A text that is not blank and does not begin with a comma. -/
def Filled (t : Text) : Prop := ∃ c r, t.trimStart = c :: r ∧ c ≠ ','

/-- Texts that come behind `out`, each with what the printer puts in front of it. -/
def follow (out : Text) : List Text → List (Text × Text)
  | [] => []
  | t :: ts =>
    let s := (glue out ", ".toList t).1
    (s, t) :: follow (out ++ s ++ t) ts

/-- The texts of a list behind its opening, each with what the printer puts in front of it. The first one follows
the opening as it is. -/
def parts (start : Text) : List Text → List (Text × Text)
  | [] => []
  | t :: ts => ([], t) :: follow (start ++ t) ts

theorem length_follow (out : Text) (ts : List Text) : (follow out ts).length = ts.length := by
  induction ts generalizing out with
  | nil => rfl
  | cons t ts ih => rw [follow, List.length_cons, List.length_cons, ih]

theorem length_parts (start : Text) (ts : List Text) : (parts start ts).length = ts.length := by
  cases ts with
  | nil => rfl
  | cons t ts => rw [parts, List.length_cons, List.length_cons, length_follow]

/-- Texts with what stands in front of them, one behind the other. -/
def joined (l : List (Text × Text)) : Text := l.flatMap fun x => x.1 ++ x.2

/-- What would be code in each text and in what stands in front of it, if nothing else were there. -/
def seen (l : List (Text × Text)) : Text := l.flatMap fun x => bare x.1 ++ bare x.2

/-- A list that can be read: a comma between every two texts, and no part of it in a comment of another part. -/
structure Legible (start : Text) (l : List (Text × Text)) (suffix : Text) : Prop where
  commas : ∀ x ∈ l.tail, ',' ∈ masked x.1
  visible : bare (start ++ joined l ++ suffix) = bare start ++ seen l ++ bare suffix

/-- In a legible list the commas between the texts can be seen. -/
theorem Legible.count_comma {start suffix : Text} {l : List (Text × Text)} (h : Legible start l suffix) :
    l.length - 1 ≤ (masked (start ++ joined l ++ suffix)).count ',' := by
  have hcomma : isBlank ',' = false := by decide
  have hseen : ∀ l : List (Text × Text), (∀ x ∈ l, ',' ∈ masked x.1) → l.length ≤ (seen l).count ',' := by
    intro l hl
    induction l with
    | nil => exact Nat.zero_le _
    | cons x l ih =>
      have hx := List.count_pos_iff.mpr (hl x (List.mem_cons_self ..))
      have hrest := ih fun y hy => hl y (List.mem_cons_of_mem _ hy)
      rw [seen, List.flatMap_cons, List.count_append, List.count_append, count_bare hcomma]
      rw [seen] at hrest
      rw [List.length_cons]
      omega
  rw [← count_bare hcomma, h.visible, List.count_append, List.count_append]
  cases l with
  | nil => exact Nat.zero_le _
  | cons x l =>
    have hrest := hseen l h.commas
    rw [seen] at hrest
    rw [seen, List.flatMap_cons, List.count_append, List.length_cons, Nat.add_sub_cancel]
    omega

/-- In a legible list all the code of the suffix can be seen. -/
theorem Legible.mem_masked {start suffix : Text} {l : List (Text × Text)} {c : Char} (h : Legible start l suffix)
    (hc : isBlank c = false) (hmem : c ∈ masked suffix) : c ∈ masked (start ++ joined l ++ suffix) := by
  rw [← List.count_pos_iff, ← count_bare hc, h.visible, List.count_append, count_bare hc suffix]
  exact Nat.lt_of_lt_of_le (List.count_pos_iff.mpr hmem) (Nat.le_add_left ..)

/-- A comma behind the text is code, and none seems to be there already. -/
structure TakesComma (t : Text) : Prop where
  code : segments (t ++ [',']) = segments t ++ [.code ',']
  lacks : t.trimEnd.getLast? ≠ some ','

/-- All texts but the last take a comma, and the last one takes what closes the list. -/
def InList : List Text → Text → Prop
  | [], _ => True
  | [t], suffix => bare (t ++ suffix) = bare t ++ bare suffix
  | t :: t' :: ts, suffix => TakesComma t ∧ InList (t' :: ts) suffix

theorem closed_append {a b : Text} (ha : Closed a) (hb : Closed b) : Closed (a ++ b) := by
  intro y
  rw [List.append_assoc, ha, hb, ha, List.append_assoc]

theorem bare_closed {a : Text} (h : Closed a) (y : Text) : bare (a ++ y) = bare a ++ bare y := bare_append (h y)

/-- Where a comma is code, nothing of what stands before it reaches beyond it. -/
theorem TakesComma.closed {t b : Text} (h : TakesComma t) (hb : b = [] ∨ b = [' ']) : Closed (t ++ ',' :: b) := by
  have hblank : ∀ y, segments (',' :: (b ++ y)) = segments (',' :: b) ++ segments y := by
    intro y
    rw [segments_comma, segments_comma]
    rcases hb with rfl | rfl
    · simp
    · have hspace : ∀ z, segments (' ' :: z) = .code ' ' :: segments z := fun z =>
        segments_code fun h => absurd h (by decide)
      simp [hspace]
  intro y
  rw [List.append_assoc, List.cons_append, segments_append_comma h.code, hblank, segments_append_comma h.code,
    List.append_assoc]

/-- One text after the other: what has been printed can be read on its own, and so the rest decides. -/
theorem legible_follow {prior t suffix : Text} {ts : List Text} (hprior : Closed prior) (ht : Filled t)
    (hts : ∀ x ∈ ts, Filled x) :
    ((∀ x ∈ follow (prior ++ t) ts, ',' ∈ masked x.1) ∧
        bare (prior ++ t ++ joined (follow (prior ++ t) ts) ++ suffix) =
          bare prior ++ bare t ++ seen (follow (prior ++ t) ts) ++ bare suffix) ↔
      InList (t :: ts) suffix := by
  induction ts generalizing prior t with
  | nil =>
    simp only [follow, joined, seen, InList, List.flatMap_nil, List.append_nil, List.append_assoc, bare_closed hprior,
      List.append_cancel_left_eq, List.not_mem_nil, false_implies, implies_true, true_and]
  | cons t' ts ih =>
    obtain ⟨c, r, htrim, -⟩ := ht
    have ht' := hts t' (List.mem_cons_self ..)
    have hts' : ∀ x ∈ ts, Filled x := fun x hx => hts x (List.mem_cons_of_mem _ hx)
    have hglue := congrArg Prod.fst (glue_comma (prior ++ t) t')
    rw [getLast?_trimEnd_append (by rw [htrim]; simp)] at hglue
    by_cases hlacks : t.trimEnd.getLast? = some ','
    · -- The text seems to end in a comma, and none is put behind it.
      rw [if_pos (.inl hlacks)] at hglue
      refine ⟨fun h => ?_, fun h => absurd hlacks h.1.lacks⟩
      have := h.1 _ (List.mem_cons_self ..)
      rw [hglue, masked, segments_nil] at this
      cases this
    · obtain ⟨b, hs, hb⟩ : ∃ b, (glue (prior ++ t) ", ".toList t').1 = ',' :: b ∧ (b = [] ∨ b = [' ']) := by
        obtain ⟨c', r', htrim', hc'⟩ := ht'
        rw [if_neg (by simp [hlacks, htrim', hc'])] at hglue
        refine ⟨_, hglue, ?_⟩
        split
        · exact .inr rfl
        · exact .inl rfl
      rw [follow, hs]
      by_cases hcode : segments (t ++ [',']) = segments t ++ [.code ',']
      · have htakes : TakesComma t := ⟨hcode, hlacks⟩
        have hnext : Closed (prior ++ (t ++ ',' :: b)) := closed_append hprior (htakes.closed hb)
        have hbare : bare (prior ++ (t ++ ',' :: b)) = bare prior ++ bare t ++ bare (',' :: b) := by
          rw [bare_closed hprior, bare_append (segments_append_comma hcode b), List.append_assoc]
        have ih := ih hnext ht' hts'
        rw [hbare] at ih
        simp only [joined, seen, List.append_assoc, List.cons_append] at ih
        simp only [joined, seen, List.flatMap_cons, List.forall_mem_cons, List.append_assoc, List.cons_append, InList]
        rw [← ih]
        have hseen : ',' ∈ masked (',' :: b) := by
          rw [masked, segments_comma]
          exact List.mem_cons_self ..
        simp [htakes, hseen]
      · -- The comma is put into a comment.
        refine ⟨fun h => ?_, fun h => absurd h.1.code hcode⟩
        have hvisible := h.2
        have hcomma : bare (',' :: b) = ',' :: bare b := by rw [bare_eq, bare_eq, segments_comma]; rfl
        simp only [joined, seen, List.flatMap_cons, List.append_assoc, bare_closed hprior, List.append_cancel_left_eq,
          hcomma] at hvisible
        exact absurd hvisible (bare_append_comma hcode _ _)

/-- A list can be read exactly when each of its texts takes what the printer puts behind it. -/
theorem legible_iff_inList {start suffix : Text} {ts : List Text} (hstart : Closed start)
    (hts : ∀ x ∈ ts, Filled x) : Legible start (parts start ts) suffix ↔ InList ts suffix := by
  cases ts with
  | nil =>
    refine ⟨fun _ => trivial, fun _ => ⟨by simp [parts], ?_⟩⟩
    simp [parts, joined, seen, bare_closed hstart]
  | cons t ts =>
    have ht := hts t (List.mem_cons_self ..)
    rw [← legible_follow hstart ht fun x hx => hts x (List.mem_cons_of_mem _ hx)]
    have hempty : bare [] = [] := by simp [bare_eq]
    constructor
    · rintro ⟨hcommas, hvisible⟩
      refine ⟨hcommas, ?_⟩
      simpa [parts, joined, seen, hempty] using hvisible
    · rintro ⟨hcommas, hvisible⟩
      refine ⟨hcommas, ?_⟩
      simpa [parts, joined, seen, hempty] using hvisible

/-- Behind the opening parenthesis the first text loses its indentation. -/
def unindented : List Text → List Text
  | [] => []
  | t :: ts => t.dropWhile isIndent :: ts

theorem length_unindented (ts : List Text) : (unindented ts).length = ts.length := by
  cases ts <;> rfl

theorem filled_unindented {ts : List Text} (h : ∀ t ∈ ts, Filled t) : ∀ t ∈ unindented ts, Filled t := by
  cases ts with
  | nil => exact h
  | cons t ts =>
    intro x hx
    rcases List.mem_cons.mp hx with rfl | hx
    · obtain ⟨c, r, hcr, hc⟩ := h t (List.mem_cons_self ..)
      exact ⟨c, r, (trimStart_dropWhile_isIndent t).trans hcr, hc⟩
    · exact h x (List.mem_cons_of_mem _ hx)

end Separator

end Reprint
