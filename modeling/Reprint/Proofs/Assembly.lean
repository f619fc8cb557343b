import Reprint.Proofs.Joining
import Reprint.Proofs.PlainGaps
import Reprint.Proofs.Spelling
/-!
The brackets of a node that is put together from children which were kept. Separators without brackets add none, and a
separator that the text ends with already is not written again, so that what is open depends on the texts that the
children bring along (`brackets_assemble`). Of a list only the first child brings what opens it, and only the last one
what closes it (`close_kept`).
-/

namespace Reprint

/-! ### Glue -/

namespace Separator
open Text

/-- A separator without brackets. -/
def Free (lineBreak : Text) (s : Separator) : Prop := brackets (s.text lineBreak) = []

/-- A separator that need not be written behind a text, which ends with it. -/
def Present (lineBreak out : Text) (s : Separator) : Prop :=
  (s.text lineBreak).trim ≠ [] ∧ (s.text lineBreak).getLast?.any isBlank = false ∧ (s.text lineBreak).trim <:+ out

theorem present_token {lineBreak out : Text} {s : String} (hcore : Text.trim s.toList ≠ [])
    (hlast : s.toList.getLast?.any isBlank = false) (h : Text.trim s.toList <:+ out) : Present lineBreak out (token s) :=
  ⟨hcore, hlast, h⟩

section Glue
variable {out sep t : Text}

theorem brackets_dropWhile_isIndent (t : Text) : brackets (t.dropWhile isIndent) = brackets t := by
  have hindent : brackets (t.takeWhile isIndent) = [] :=
    brackets_eq_nil (p := isIndent) (by decide) fun c hc => List.all_eq_true.mp List.all_takeWhile c hc
  have htext := congrArg brackets (List.takeWhile_append_dropWhile (p := isIndent) (l := t))
  rwa [brackets_append, hindent] at htext

/-- Glue does not touch the brackets on the right. -/
theorem brackets_glue_snd : brackets (glue out sep t).2 = brackets t := by
  rcases (glue_cases out sep t).2 with h | h
  · rw [h]
  · rw [h, brackets_dropWhile_isIndent]

theorem brackets_glue_fst (h : brackets sep = []) : brackets (glue out sep t).1 = [] := by
  have hstart : ∀ s : Text, brackets s = [] → brackets s.trimStart = [] := fun s hs =>
    brackets_of_subset (fun c hc => (List.dropWhile_sublist _).subset hc) hs
  have hend : ∀ s : Text, brackets s = [] → brackets s.trimEnd = [] := fun s hs => by
    rw [← trimEnd_append_trailingBlanks s, brackets_append] at hs
    exact (List.append_eq_nil_iff.mp hs).1
  rcases (glue_cases out sep t).1 with hglue | hglue | hglue
  · rw [hglue]
    rfl
  · rw [hglue, h]
  · rw [hglue, fit]
    split <;> split
    · exact h
    · exact hstart sep h
    · exact hend sep h
    · exact hend _ (hstart sep h)

theorem glue_present {lineBreak : Text} {s : Separator} (h : Present lineBreak out s) :
    glue out (s.text lineBreak) t = ([], t.dropWhile isIndent) := by
  obtain ⟨hne, hlast, hsuffix⟩ := h
  have hcore : (s.text lineBreak).trim.isEmpty = false := by simpa using hne
  simp only [glue, hcore, hlast, List.isSuffixOf_iff_suffix.mpr hsuffix, Bool.not_false, Bool.and_self,
    Bool.false_eq_true, if_false, if_true]

end Glue

end Separator

/-! ### Brackets of what is put together -/

/-- The brackets that children bring along. -/
def Row.bracketsOf (l : List (Node × Text)) : Text := l.flatMap fun x => x.2.brackets

@[simp] theorem Row.bracketsOf_nil : bracketsOf [] = [] := rfl

@[simp] theorem Row.bracketsOf_cons (x : Node × Text) (l : List (Node × Text)) :
    bracketsOf (x :: l) = x.2.brackets ++ bracketsOf l := List.flatMap_cons

@[simp] theorem Row.bracketsOf_append (l l' : List (Node × Text)) : bracketsOf (l ++ l') = bracketsOf l ++ bracketsOf l' :=
  List.flatMap_append

theorem Row.neutral_bracketsOf {l : List (Node × Text)} (h : ∀ x ∈ l, x.2.Neutral) : (bracketsOf l).Neutral := by
  rw [bracketsOf, List.flatMap_def]
  exact .flatten (List.forall_mem_map.mpr fun x hx => Text.neutral_brackets.mpr (h x hx))

namespace Printer
open Text Separator Row

/-- Children that are put together without a bracket of their parent. -/
def Quiet (parent : Node) (lineBreak out : Text) (l : List (Node × Text)) : Prop :=
  brackets (assemble parent lineBreak none out l) = brackets out ++ bracketsOf l

section Assemble
variable {parent : Node} {lineBreak out : Text} {left : Node} {l l' : List (Node × Text)}

theorem assemble_append {previous : Option Node} : assemble parent lineBreak previous out (l ++ l') =
    assemble parent lineBreak ((l.getLast?.map (·.1)).or previous) (assemble parent lineBreak previous out l) l' := by
  induction l generalizing previous out with
  | nil => cases previous <;> rfl
  | cons x l ih =>
    have hlast : ((x :: l).getLast?.map (·.1)).or previous = (l.getLast?.map (·.1)).or (some x.1) := by
      cases h : l.getLast? with
      | none => rw [List.getLast?_eq_none_iff] at h; subst h; rfl
      | some y => rw [List.getLast?_cons, h]; rfl
    rw [hlast]
    cases previous with
    | none => exact ih
    | some left => exact ih

/-- Separators without brackets, and one that is there already, add none. -/
theorem brackets_assemble
    (hfirst : ∀ x ∈ l.head?, Free lineBreak (between parent left x.1) ∨ Present lineBreak out (between parent left x.1))
    (hrest : l.Pairwise fun a b => Free lineBreak (between parent a.1 b.1)) :
    brackets (assemble parent lineBreak (some left) out l) = brackets out ++ bracketsOf l := by
  induction l generalizing left out with
  | nil => simp [assemble]
  | cons x l ih =>
    have hx : brackets (glue out ((between parent left x.1).text lineBreak) x.2).1 = [] := by
      rcases hfirst x rfl with h | h
      · exact brackets_glue_fst h
      · rw [glue_present h]
        rfl
    obtain ⟨hbehind, hrest⟩ := List.pairwise_cons.mp hrest
    rw [assemble, ih (fun y hy => .inl (hbehind y (List.mem_of_head? hy))) hrest, brackets_append, brackets_append, hx,
      brackets_glue_snd, List.append_nil, bracketsOf_cons, List.append_assoc]

/-- Children behind one that brings their separator along. -/
theorem quiet_cons {x : Node × Text} (hfirst : ∀ y ∈ l, Free lineBreak (between parent x.1 y.1) ∨
      Present lineBreak (out ++ x.2) (between parent x.1 y.1))
    (hrest : l.Pairwise fun a b => Free lineBreak (between parent a.1 b.1)) : Quiet parent lineBreak out (x :: l) := by
  rw [Quiet, assemble, brackets_assemble (fun y hy => hfirst y (List.mem_of_head? hy)) hrest, brackets_append,
    bracketsOf_cons, List.append_assoc]

theorem quiet_of_free (h : l.Pairwise fun a b => Free lineBreak (between parent a.1 b.1)) :
    Quiet parent lineBreak out l := by
  cases l with
  | nil => simp [Quiet, assemble]
  | cons x l =>
    obtain ⟨hx, h⟩ := List.pairwise_cons.mp h
    exact quiet_cons (fun y hy => .inl (hx y hy)) h

end Assemble

end Printer

/-! ### Shares of lists and lines -/

namespace Row
open Text

/-- What the children of a list bring along: the first one what stands ahead of the list, the last one what stands
behind it. -/
def listShares (ahead behind : Text) : List (Node × Text) → List (Node × Text)
  | [] => []
  | [x] => [(x.1, ahead ++ x.2 ++ behind)]
  | x :: y :: l => (x.1, ahead ++ x.2) :: listShares [' '] behind (y :: l)

section Shares
variable {parent : Node} {head : Text} {previous : Option Cell} {r : Row} {l : List (Node × Text)} {ahead behind : Text}

theorem map_fst_listShares : (listShares ahead behind l).map (·.1) = l.map (·.1) := by
  induction l generalizing ahead with
  | nil => rfl
  | cons x l ih =>
    cases l with
    | nil => rfl
    | cons y l => rw [listShares, List.map_cons, ih]; rfl

theorem map_fst_shares {cells : List Cell} : (shares parent head previous cells).map (·.1) = cells.map (·.node) := by
  induction cells generalizing previous with
  | nil => rfl
  | cons c cells ih => rw [shares, List.map_cons, ih]; rfl

/-- The shares of a list, and of what follows it. -/
theorem shares_list (x : Node × Text) (l : List (Node × Text)) : shares parent head previous (list (x :: l) r).cells =
    listShares (lead parent head previous ⟨x.1, x.2, []⟩)
      (trail parent ⟨(l.getLast?.getD x).1, (l.getLast?.getD x).2, r.head⟩ r.cells.head?) (x :: l) ++
    shares parent head (some ⟨(l.getLast?.getD x).1, (l.getLast?.getD x).2, r.head⟩) r.cells := by
  induction l generalizing x previous with
  | nil =>
    cases previous <;> rfl
  | cons y l ih =>
    have hhead : (list (y :: l) r).head = [] := by cases l <;> rfl
    obtain ⟨t, gap, cells, hcells⟩ : ∃ t gap cells, (list (y :: l) r).cells = ⟨y.1, t, gap⟩ :: cells := by
      cases l <;> exact ⟨_, _, _, rfl⟩
    have hgap : [',', ' '] ++ (list (y :: l) r).head = [',', ' '] := by rw [hhead, List.append_nil]
    have hlast : ((y :: l).getLast?.getD x) = l.getLast?.getD y := by
      cases h : l.getLast? <;> rw [List.getLast?_cons, h] <;> rfl
    have hlead : ∀ c : Cell, c.node = y.1 → lead parent head (some ⟨x.1, x.2, [',', ' ']⟩) c = [' '] := fun c _ => by
      rw [lead, Gap.splitBetween_list]
    have htrail : trail parent ⟨x.1, x.2, [',', ' ']⟩ (some ⟨y.1, t, gap⟩) = [] := by rw [trail, Gap.splitBetween_list]
    rw [list, hlast]
    show shares parent head previous (⟨x.1, x.2, [',', ' '] ++ (list (y :: l) r).head⟩ :: (list (y :: l) r).cells) = _
    rw [hgap, shares, ih, hlead _ rfl, listShares, share, hcells, List.head?_cons, htrail, List.append_nil]
    cases previous <;> rfl

/-- The shares of a child with a list behind it, where the text between them is divided into `u` and `v`. -/
theorem shares_child_list {n : Node} {t m u v : Text} {x : Node × Text}
    (hsplit : ∀ right, Gap.splitBetween m { parent, left := n, right } = (u, v)) :
    shares parent head previous (child n t (mark m (list (x :: l) r))).cells =
      (n, lead parent head previous ⟨n, t, m⟩ ++ t ++ u) ::
        (listShares v (trail parent ⟨(l.getLast?.getD x).1, (l.getLast?.getD x).2, r.head⟩ r.cells.head?) (x :: l) ++
          shares parent head (some ⟨(l.getLast?.getD x).1, (l.getLast?.getD x).2, r.head⟩) r.cells) := by
  have hhead : m ++ (list (x :: l) r).head = m := by cases l <;> exact List.append_nil m
  obtain ⟨c, cells, hcells⟩ : ∃ c cells, (list (x :: l) r).cells = c :: cells := by
    cases l <;> exact ⟨_, _, rfl⟩
  have hlead : lead parent head (some ⟨n, t, m⟩) ⟨x.1, x.2, []⟩ = v := congrArg Prod.snd (hsplit _)
  have htrail : trail parent ⟨n, t, m⟩ (some c) = u := congrArg Prod.fst (hsplit _)
  show shares parent head previous (⟨n, t, m ++ (list (x :: l) r).head⟩ :: (list (x :: l) r).cells) = _
  rw [hhead, shares, shares_list, hlead, share, hcells, List.head?_cons, htrail]

/-- The shares of a list with a last child behind it. -/
theorem shares_list_child {n : Node} {t m u v : Text} {x : Node × Text}
    (hsplit : ∀ left ∈ (x :: l).map (·.1), Gap.splitBetween m { parent, left, right := n } = (u, v)) :
    shares parent head previous (list (x :: l) (mark m (child n t nil))).cells =
      listShares (lead parent head previous ⟨x.1, x.2, []⟩) u (x :: l) ++ [(n, v ++ t)] := by
  have hlast : (l.getLast?.getD x).1 ∈ (x :: l).map (·.1) := by
    refine List.mem_map_of_mem ?_
    cases h : l.getLast? with
    | none => exact List.mem_cons_self ..
    | some y => exact List.mem_cons_of_mem _ (List.mem_of_getLast? h)
  have hgap : (mark m (child n t nil)).head = m := List.append_nil m
  have hend : Gap.splitTrailing [] = ([], []) := by decide +kernel
  rw [shares_list, hgap]
  show listShares _ (Gap.splitBetween m _).1 _ ++ [(n, (Gap.splitBetween m _).2 ++ t ++ (Gap.splitTrailing []).1)] = _
  rw [hsplit _ hlast, hend, List.append_nil]

/-- The shares of lines. -/
theorem shares_lines (hahead : ∀ c : Cell, c.node ∈ l.map (·.1) → lead parent head previous c = ['\n', ' ', ' '])
    (hbehind : Gap.splitTrailing r.head = ([], r.head)) (hr : r.cells = []) :
    shares parent head previous (lines l r).cells = l.map fun x => (x.1, ['\n', ' ', ' '] ++ x.2) := by
  induction l generalizing previous with
  | nil =>
    rw [lines, List.foldr_nil, hr]
    rfl
  | cons x l ih =>
    have hstep : (lines (x :: l) r).cells = ⟨x.1, x.2, (lines l r).head⟩ :: (lines l r).cells := rfl
    have htrail : trail parent ⟨x.1, x.2, (lines l r).head⟩ (lines l r).cells.head? = [] := by
      cases l with
      | nil =>
        rw [lines, List.foldr_nil, hr, List.head?_nil, trail, hbehind]
      | cons y l => exact congrArg Prod.fst Gap.splitBetween_line
    rw [hstep, shares, share, hahead _ (List.mem_cons_self ..), htrail, List.append_nil, List.map_cons]
    cases l with
    | nil =>
      rw [lines, List.foldr_nil, hr]
      rfl
    | cons y l => exact congrArg (_ :: ·) (ih fun c _ => congrArg Prod.snd Gap.splitBetween_line)

/-- Of a list only the first child brings brackets ahead of it, and only the last one brings brackets behind it. -/
theorem close_kept (keep : Node → Bool) (ahead behind : Text) (hneutral : ∀ x ∈ l, Neutral x.2) (pending : List Char) :
    close pending (bracketsOf ((listShares ahead behind l).filter (keep ·.1))) =
      close pending ((bif l.head?.any (keep ·.1) then brackets ahead else []) ++
        bif l.getLast?.any (keep ·.1) then brackets behind else []) := by
  induction l generalizing ahead pending with
  | nil => rfl
  | cons x l ih =>
    have hx := neutral_brackets.mpr (hneutral x (List.mem_cons_self ..))
    cases l with
    | nil =>
      cases hkeep : keep x.1 with
      | false => simp [listShares, hkeep]
      | true => simp [listShares, hkeep, close_append, hx _]
    | cons y l =>
      have ih := ih [' '] fun z hz => hneutral z (List.mem_cons_of_mem _ hz)
      have hspace : (bif (y :: l).head?.any (keep ·.1) then brackets [' '] else []) = [] := Bool.cond_self ..
      have hlast : (x :: y :: l).getLast? = (y :: l).getLast? := by rw [List.getLast?_cons_cons]
      rw [hspace, List.nil_append] at ih
      rw [listShares, hlast]
      cases hkeep : keep x.1 with
      | false => simpa [hkeep] using ih pending
      | true => simp [hkeep, close_append, hx _, ih]

end Shares

end Row

end Reprint
