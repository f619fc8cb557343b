import Reprint.Proofs.Thinning
/-!
The parentheses of a method that has lost parameters. A list of parameters opens with a parenthesis that the text ahead
of it brings along, or its first parameter, or else the printer; it is closed by what its last parameter brings along.
`Parens.left` counts how many stay open. Main statement: the kept parameters of a list lead from one standing of the
text to the next one in this count (`Stands.list`).
-/

namespace Reprint

/-! ### Counting -/

/-- How many parentheses a text leaves open, and whether it ends with one of them. -/
structure Parens where
  depth : Nat
  waiting : Bool

namespace Parens

/-- Whether a list with parameters comes next. Lists of parameters are given by which of them are kept. -/
def opensNext : List (List Bool) → Bool
  | (_ :: _) :: _ => true
  | _ => false

/-- Whether a list with parameters follows. -/
def hasMore (ls : List (List Bool)) : Bool := ls.any (!·.isEmpty)

/-- Behind the last parameter of a list, with further lists and possibly a type or a body behind it. The parameter
brings along the parenthesis that closes its list. If a list with parameters comes next, it brings along also the one
that opens that list. -/
def leave (tail : Bool) (ls : List (List Bool)) (depth : Nat) : Parens :=
  if opensNext ls then ⟨depth, true⟩ else if hasMore ls || tail then ⟨depth - 1, false⟩ else ⟨depth, false⟩

/-- At the first parameter that is kept of a list, where `brings` says whether it brings along a parenthesis. Without
any other parenthesis the printer writes one. -/
def enter (brings : Bool) (p : Parens) : Nat := if p.waiting && !brings then p.depth else p.depth + 1

/-- How many parentheses are left open by lists of parameters. The first parameter of a list that stands apart from
the last one, behind empty lists, brings along the parenthesis of its list. -/
def left (tail : Bool) : List (List Bool) → Bool → Parens → Nat
  | [], _, p => p.depth
  | [] :: ls, _, p => left tail ls true p
  | (k :: ks) :: ls, apart, p =>
    if (k :: ks).any id then
      left tail ls false
        (if (k :: ks).getLast?.any id then leave tail ls (p.enter (apart && k)) else ⟨p.enter (apart && k), false⟩)
    else left tail ls false p

/-- Whether a method with these lists of parameters closes exactly what it opens. Without type and body the last
parenthesis is not brought along by a parameter. -/
def settled (tail : Bool) (ls : List (List Bool)) : Bool :=
  left tail ls false (leave tail ls 1) == if tail then 0 else 1

/-- Nothing is left open where each list keeps its last parameter. -/
theorem settled_of_last {tail : Bool} {ls : List (List Bool)} (h : ∀ l ∈ ls, l.getLast?.all id = true) :
    settled tail ls = true := by
  have hboth : left tail ls false (leave tail ls 1) = (if tail then 0 else 1) ∧
      left tail ls true (leave tail ([] :: ls) 1) = if tail then 0 else 1 := by
    induction ls with
    | nil => cases tail <;> exact ⟨rfl, rfl⟩
    | cons l ls ih =>
      obtain ⟨hhere, hapart⟩ := ih fun m hm => h m (List.mem_cons_of_mem _ hm)
      cases l with
      | nil => exact ⟨hapart, hapart⟩
      | cons k ks =>
        obtain ⟨m, hm⟩ : ∃ m, (k :: ks).getLast? = some m := ⟨_, List.getLast?_cons⟩
        have hkept : m = true := by simpa [hm] using h (k :: ks) (List.mem_cons_self ..)
        have hany : (k :: ks).any id = true := List.any_eq_true.mpr ⟨m, List.mem_of_getLast? hm, hkept⟩
        have hlast : (k :: ks).getLast?.any id = true := by rw [hm, hkept]; rfl
        constructor
        · rw [left, hany, hlast, if_pos rfl, if_pos rfl]
          exact hhere
        · rw [left, hany, hlast, if_pos rfl, if_pos rfl]
          exact hhere
  exact beq_iff_eq.mpr hboth.1

end Parens

/-! ### Parentheses at the ends of a text -/

namespace Text

/-- Whether a text ends with an opening parenthesis, blanks apart. -/
def endsOpen (t : Text) : Bool := t.trimEnd.getLast? == some '('

/-- Whether a text begins with an opening parenthesis, blanks apart. -/
def beginsOpen (t : Text) : Bool := t.trimStart.head? == some '('

/-- A text that begins with something else than a blank or a parenthesis. -/
def Starts (t : Text) : Prop := ∃ c r, t = c :: r ∧ isBlank c = false ∧ c ≠ '('

section Ends
variable {x t : Text}

theorem endsOpen_append (h : t.trimStart ≠ []) : endsOpen (x ++ t) = endsOpen t := by
  rw [endsOpen, getLast?_trimEnd_append h]
  rfl

/-- Where a text ends with an opening parenthesis, this one is left open. -/
theorem exists_of_endsOpen {p q : List Char} (h : Text.endsOpen t = true) (hclose : close p t = some q) :
    ∃ r, q = ')' :: r := by
  obtain ⟨a, ha⟩ := List.getLast?_eq_some_iff.mp (beq_iff_eq.mp h)
  have htext : t = a ++ ['('] ++ t.trailingBlanks := by rw [← ha, trimEnd_append_trailingBlanks]
  have hblank : ∀ p, close p t.trailingBlanks = some p := neutral_of_free (brackets_of_allBlank (allBlank_trailingBlanks t))
  rw [htext, close_append, close_append] at hclose
  cases hp : close p a with
  | none => rw [hp] at hclose; cases hclose
  | some r =>
    have hopen : close r ['('] = some (')' :: r) := rfl
    rw [hp, Option.bind_some, hopen, Option.bind_some, hblank] at hclose
    exact ⟨r, (Option.some.inj hclose).symm⟩

theorem endsOpen_of_close {p : List Char} (h : close p t = some []) : Text.endsOpen t = false := by
  cases hends : Text.endsOpen t with
  | false => rfl
  | true =>
    obtain ⟨r, hr⟩ := exists_of_endsOpen hends h
    cases hr

theorem Starts.trimStart (h : Starts t) : t.trimStart = t := by
  obtain ⟨c, r, rfl, hc, -⟩ := h
  exact List.dropWhile_cons_of_neg (by simp [hc])

theorem Starts.append (h : Starts t) : Starts (t ++ x) := by
  obtain ⟨c, r, rfl, hc, hne⟩ := h
  exact ⟨c, r ++ x, rfl, hc, hne⟩

theorem Starts.ne_nil (h : Starts t) : t.trimStart ≠ [] := by
  rw [h.trimStart]
  obtain ⟨c, r, rfl, -⟩ := h
  exact List.cons_ne_nil _ _

theorem Starts.beginsOpen (h : Starts t) : beginsOpen t = false := by
  rw [Text.beginsOpen, h.trimStart]
  obtain ⟨c, r, rfl, -, hne⟩ := h
  simpa using hne

theorem trimStart_append_ne_nil (h : t.trimStart ≠ []) : Text.trimStart (x ++ t) ≠ [] := by
  induction x with
  | nil => exact h
  | cons c x ih =>
    rw [List.cons_append, Text.trimStart, List.dropWhile_cons]
    split
    · exact ih
    · exact List.cons_ne_nil _ _

theorem beginsOpen_append (h : t.trimStart ≠ []) : Text.beginsOpen (t ++ x) = Text.beginsOpen t := by
  induction t with
  | nil => exact absurd rfl h
  | cons c t ih =>
    cases hc : isBlank c with
    | true =>
      have hstep : ∀ r : Text, Text.trimStart (c :: r) = Text.trimStart r := fun r => List.dropWhile_cons_of_pos hc
      rw [hstep] at h
      rw [List.cons_append, Text.beginsOpen, hstep, Text.beginsOpen, hstep]
      exact ih h
    | false =>
      have hstep : ∀ r : Text, Text.trimStart (c :: r) = c :: r := fun r => List.dropWhile_cons_of_neg (by simp [hc])
      rw [List.cons_append, Text.beginsOpen, hstep, Text.beginsOpen, hstep]
      rfl

end Ends

end Text

namespace Separator
open Text
variable {out sep t : Text}

/-- A parenthesis is written where there is none on either side. -/
theorem brackets_glue_opening :
    brackets (glue out "(".toList t).1 = if endsOpen out || beginsOpen t then [] else ['('] := by
  rw [glue_open]
  split
  · next hlast =>
    obtain ⟨a, rfl⟩ := List.getLast?_eq_some_iff.mp hlast
    have hends : endsOpen (a ++ ['(']) = true := endsOpen_append (t := ['(']) (by decide)
    rw [hends]
    rfl
  · have hopen : (out.trimEnd.getLast? = some '(' ∨ t.trimStart.head? = some '(') ↔
        (endsOpen out || beginsOpen t) = true := by simp [endsOpen, beginsOpen]
    simp only [hopen]
    split <;> rfl

theorem endsOpen_glue (h : t.trimStart ≠ []) : endsOpen (out ++ (glue out sep t).1 ++ (glue out sep t).2) = endsOpen t := by
  rcases (glue_cases out sep t).2 with hglue | hglue
  · rw [hglue, endsOpen_append h]
  · have hdrop : trimStart (t.dropWhile isIndent) ≠ [] := by rwa [trimStart_dropWhile_isIndent]
    have htext := endsOpen_append (x := t.takeWhile isIndent) hdrop
    rw [List.takeWhile_append_dropWhile] at htext
    rw [hglue, endsOpen_append hdrop, htext]

end Separator

/-! ### Lists of parameters -/

/-- How a text stands: it leaves nothing open but parentheses. -/
structure Text.Stands (out : Text) (p : Parens) : Prop where
  waits : close [] out = some (List.replicate p.depth ')')
  ends : endsOpen out = p.waiting

namespace Row
open Text
variable {behind : Text} {keep : Node → Bool} {l : List (Node × Text)} {y : Node × Text}

theorem mem_listShares {ahead : Text} (h : y ∈ listShares ahead behind l) :
    ∃ w ∈ l, ∃ u z, (u = ahead ∨ u = [' ']) ∧ y.2 = u ++ (w.2 ++ z) := by
  induction l generalizing ahead with
  | nil => cases h
  | cons x l ih =>
    cases l with
    | nil =>
      refine ⟨x, List.mem_cons_self .., ahead, behind, .inl rfl, ?_⟩
      rw [List.mem_singleton.mp h, List.append_assoc]
    | cons x' l =>
      rcases List.mem_cons.mp h with rfl | h
      · exact ⟨x, List.mem_cons_self .., ahead, [], .inl rfl, by rw [List.append_nil]⟩
      · obtain ⟨w, hw, u, z, hu, hy⟩ := ih h
        exact ⟨w, List.mem_cons_of_mem _ hw, u, z, .inr (hu.elim id id), hy⟩

theorem filter_listShares_nil {ahead : Text} (h : ∀ w ∈ l, keep w.1 = false) :
    (listShares ahead behind l).filter (keep ·.1) = [] := by
  refine List.filter_eq_nil_iff.mpr fun z hz => ?_
  have hmem := List.mem_map_of_mem (f := (·.1)) hz
  rw [map_fst_listShares] at hmem
  obtain ⟨w, hw, heq⟩ := List.mem_map.mp hmem
  rw [← heq, h w hw]
  exact Bool.false_ne_true

/-- The last child that is kept ends with what stands behind the list, if it is the last one of all. -/
theorem getLast?_kept (ahead behind : Text) (hany : l.any (keep ·.1) = true) :
    ∃ z u w, ((listShares ahead behind l).filter (keep ·.1)).getLast? = some z ∧ w ∈ l ∧
      z.2 = u ++ w.2 ++ bif l.getLast?.any (keep ·.1) then behind else [] := by
  induction l generalizing ahead with
  | nil => cases hany
  | cons x l ih =>
    cases l with
    | nil =>
      have hkeep : keep x.1 = true := by simpa using hany
      refine ⟨(x.1, ahead ++ x.2 ++ behind), ahead, x, ?_, List.mem_cons_self .., ?_⟩
      · simp [listShares, hkeep]
      · simp [hkeep]
    | cons y l =>
      rw [listShares, List.getLast?_cons_cons]
      by_cases hrest : (y :: l).any (keep ·.1) = true
      · obtain ⟨z, u, w, hz, hw, htext⟩ := ih [' '] hrest
        refine ⟨z, u, w, ?_, List.mem_cons_of_mem _ hw, htext⟩
        rw [List.filter_cons]
        split
        · rw [List.getLast?_cons, hz]
          rfl
        · exact hz
      · have hnone : ∀ w ∈ y :: l, keep w.1 = false := by simpa using hrest
        have hkeep : keep x.1 = true := by
          rw [List.any_cons, Bool.or_eq_true] at hany
          exact hany.resolve_right hrest
        have hlast : (y :: l).getLast?.any (keep ·.1) = false := by
          rw [List.getLast?_eq_some_getLast (List.cons_ne_nil _ _), Option.any_some]
          exact hnone _ (List.getLast_mem _)
        refine ⟨(x.1, ahead ++ x.2), ahead, x, ?_, List.mem_cons_self .., ?_⟩
        · rw [List.filter_cons, if_pos hkeep, filter_listShares_nil hnone]
          rfl
        · rw [hlast]
          exact (List.append_nil _).symm

/-- What the first child that is kept begins with. -/
theorem beginsOpen_kept {x : Node × Text} {ahead : Text} {apart : Bool} {K : List (Node × Text)}
    (hahead : beginsOpen (ahead ++ x.2) = apart) (hstarts : ∀ w ∈ x :: l, Starts w.2)
    (hy : (listShares ahead behind (x :: l)).filter (keep ·.1) = y :: K) : beginsOpen y.2 = (apart && keep x.1) := by
  have hshares : ∃ e rest, listShares ahead behind (x :: l) = (x.1, ahead ++ x.2 ++ e) :: rest ∧
      ∀ z ∈ rest, z ∈ listShares [' '] behind l := by
    cases l with
    | nil => exact ⟨behind, [], rfl, by simp⟩
    | cons x' l => exact ⟨[], _, by rw [listShares, List.append_nil], fun z hz => hz⟩
  obtain ⟨e, rest, hshares, hrest⟩ := hshares
  rw [hshares] at hy
  cases hkeep : keep x.1 with
  | true =>
    rw [List.filter_cons, if_pos hkeep] at hy
    cases hy
    have hne : Text.trimStart (ahead ++ x.2) ≠ [] := trimStart_append_ne_nil (hstarts x (List.mem_cons_self ..)).ne_nil
    rw [beginsOpen_append hne, hahead, Bool.and_true]
  | false =>
    rw [List.filter_cons, if_neg (by simp [hkeep])] at hy
    have hmem : y ∈ rest := (List.mem_filter.mp (hy ▸ List.mem_cons_self ..)).1
    obtain ⟨w, hw, u, z, hu, htext⟩ := mem_listShares (hrest y hmem)
    rw [htext, hu.elim id id, Bool.and_false]
    exact ((hstarts w (List.mem_cons_of_mem _ hw)).append (x := z)).beginsOpen

end Row

namespace Printer
open Text Row Separator
variable {parent : Node} {lineBreak out : Text} {l : List (Node × Text)} {left : Node}

/-- What is put together ends as the last child does. -/
theorem endsOpen_assemble {previous : Option Node} {z : Node × Text} (hz : l.getLast? = some z)
    (hne : z.2.trimStart ≠ []) : endsOpen (assemble parent lineBreak previous out l) = endsOpen z.2 := by
  induction l generalizing previous out with
  | nil => cases hz
  | cons x l ih =>
    cases l with
    | nil =>
      cases hz
      cases previous with
      | none => exact endsOpen_append hne
      | some left => exact endsOpen_glue hne
    | cons y l =>
      rw [List.getLast?_cons_cons] at hz
      cases previous <;> exact ih hz

end Printer

namespace Text.Stands
open Text Row Separator
variable {parent : Node} {lineBreak out ahead behind : Text} {p q : Parens} {left : Node} {x : Node × Text}
  {l : List (Node × Text)} {keep : Node → Bool} {apart : Bool}

/-- A parenthesis that waits is open. -/
theorem enter_pos {brings : Bool} (h : Stands out p) : 0 < p.enter brings := by
  unfold Parens.enter
  split
  · next hwaiting =>
    rw [Bool.and_eq_true, ← h.ends] at hwaiting
    obtain ⟨r, hr⟩ := exists_of_endsOpen hwaiting.1 h.waits
    by_contra hzero
    rw [Nat.eq_zero_of_not_pos hzero] at hr
    cases hr
  · exact Nat.succ_pos _

/-- The first parameter that is kept of a list, with the parenthesis that it brings along or that is written for it. -/
theorem close_enter {kept : Bool} (p : Parens)
    (hahead : ∀ pending, close pending (brackets ahead) = some (bif apart then ')' :: pending else pending)) :
    close (List.replicate p.depth ')') ((if p.waiting || (apart && kept) then [] else ['(']) ++
      bif kept then brackets ahead else []) = some (List.replicate (p.enter (apart && kept)) ')') := by
  have hopen : close (List.replicate p.depth ')') ['('] = some (List.replicate (p.depth + 1) ')') := rfl
  rw [close_append]
  cases kept <;> cases apart <;> cases hwaiting : p.waiting <;>
    simp [Parens.enter, hahead, hwaiting, hopen, List.replicate_succ]

/-- The kept parameters of a list behind other children. -/
theorem list (h : Stands out p) (hneutral : ∀ w ∈ x :: l, Neutral w.2) (hstarts : ∀ w ∈ x :: l, Starts w.2)
    (hahead : beginsOpen (ahead ++ x.2) = apart ∧
      ∀ pending, close pending (brackets ahead) = some (bif apart then ')' :: pending else pending))
    (hfirst : ∀ w ∈ x :: l, keep w.1 = true → between parent left w.1 = token "(")
    (hrest : (((x :: l).map (·.1)).filter keep).Pairwise fun a b => Free lineBreak (between parent a b))
    (hany : (x :: l).any (keep ·.1) = true)
    (hbehind : (x :: l).getLast?.any (keep ·.1) = true →
      close (List.replicate (p.enter (apart && keep x.1)) ')') (brackets behind) = some (List.replicate q.depth ')') ∧
        (behind = [] ∧ q.waiting = false ∨ behind.trimStart ≠ [] ∧ endsOpen behind = q.waiting)) :
    Stands (Printer.assemble parent lineBreak (some left) out ((listShares ahead behind (x :: l)).filter (keep ·.1)))
      (if (x :: l).getLast?.any (keep ·.1) then q else ⟨p.enter (apart && keep x.1), false⟩) := by
  obtain ⟨z, u, w, hz, hw, htext⟩ := getLast?_kept ahead behind hany
  obtain ⟨y, K, hK⟩ : ∃ y K, (listShares ahead behind (x :: l)).filter (keep ·.1) = y :: K :=
    List.exists_cons_of_ne_nil fun hnil => by rw [hnil] at hz; cases hz
  have hpairs : (y :: K).Pairwise fun a b => Free lineBreak (between parent a.1 b.1) := by
    rw [← @map_fst_listShares (x :: l) ahead behind, List.filter_map, List.pairwise_map] at hrest
    rw [← hK]
    exact hrest
  have hbegins := beginsOpen_kept hahead.1 hstarts hK
  have hy : between parent left y.1 = token "(" := by
    have hmem := List.mem_filter.mp (hK ▸ List.mem_cons_self .. : y ∈ (listShares ahead behind (x :: l)).filter (keep ·.1))
    have hfst := List.mem_map_of_mem (f := (·.1)) hmem.1
    rw [map_fst_listShares] at hfst
    obtain ⟨w, hw, heq⟩ := List.mem_map.mp hfst
    rw [← heq]
    exact hfirst w hw (heq ▸ hmem.2)
  -- What is left open can be counted from the brackets alone, while the end of the text is that of the last kept child.
  constructor
  · have hbrackets : brackets (Printer.assemble parent lineBreak (some left) out (y :: K)) =
        brackets out ++ ((if p.waiting || (apart && keep x.1) then [] else ['(']) ++ bracketsOf (y :: K)) := by
      obtain ⟨hbehind, hpairs⟩ := List.pairwise_cons.mp hpairs
      rw [Printer.assemble, Printer.brackets_assemble (fun w hw => .inl (hbehind w (List.mem_of_head? hw))) hpairs,
        brackets_append, brackets_append, hy, brackets_glue_snd, bracketsOf_cons]
      show brackets out ++ brackets (glue out "(".toList y.2).1 ++ _ ++ _ = _
      rw [brackets_glue_opening, h.ends, hbegins]
      simp only [List.append_assoc]
    rw [hK, ← close_brackets, hbrackets, ← hK, close_append, close_brackets, h.waits, Option.bind_some, close_append]
    have hkept : ∀ pending, close pending (bracketsOf ((listShares ahead behind (x :: l)).filter (keep ·.1))) =
        close pending ((bif keep x.1 then brackets ahead else []) ++
          bif (x :: l).getLast?.any (keep ·.1) then brackets behind else []) := close_kept keep ahead behind hneutral
    simp only [hkept]
    rw [← close_append, ← List.append_assoc, close_append, close_enter p hahead.2, Option.bind_some]
    cases hlast : (x :: l).getLast?.any (keep ·.1) with
    | true => exact (hbehind hlast).1
    | false => rfl
  · have hne : z.2.trimStart ≠ [] := by
      rw [htext, List.append_assoc]
      exact trimStart_append_ne_nil (hstarts w hw).append.ne_nil
    rw [Printer.endsOpen_assemble hz hne, htext]
    have hends : endsOpen (u ++ w.2) = false := by
      rw [endsOpen_append (hstarts w hw).ne_nil, endsOpen_of_close (hneutral w hw [])]
    cases hlast : (x :: l).getLast?.any (keep ·.1) with
    | true =>
      rcases (hbehind hlast).2 with ⟨hnil, hq⟩ | ⟨hne, hq⟩
      · rw [hnil, Bool.cond_true, List.append_nil, hends]
        exact hq.symm
      · rw [Bool.cond_true, endsOpen_append hne]
        exact hq
    | false => rw [Bool.cond_false, List.append_nil, hends]; rfl

end Text.Stands

end Reprint
