import Reprint.Proofs.Sides
/-!
Gaps divided with cuts that can fail. Cutting a text never fails, since an offset inside a character counts as that
character's start. Here the divisions of a gap are written once more with slices, which refuse offsets inside a
character, past the end or in the wrong order. No division ever comes upon such an offset: the strict ones always have
a result, and it is the same.
-/

namespace Reprint

namespace Text
variable {a b t : Text} {n : Nat}

theorem slice?_zero (h : t.isBoundary n) : t.slice? 0 n = some (t.before n) := by
  obtain ⟨a, b, rfl, rfl⟩ := isBoundary_iff.mp h
  rw [before_append_size]
  exact slice?_append [] a b

theorem slice?_size (h : t.isBoundary n) : t.slice? n t.size = some (t.after n) := by
  obtain ⟨a, b, rfl, rfl⟩ := isBoundary_iff.mp h
  rw [after_append_size]
  have hslice := slice?_append a b []
  rwa [List.append_nil] at hslice

end Text

namespace Gap
open Text

/-! ### Cuts that can fail -/

def removeAt? (t : Text) (offset : Nat) : Option Text := do
  return (← t.slice? 0 offset) ++ (← t.slice? (offset + 1) t.size)

def leftOf? (t : Text) (index : Nat) : Option Text := do
  let left ← t.slice? 0 index
  let code := (← (masked t).slice? 0 index).trimEnd
  if code.getLast? = some ',' then removeAt? left (code.size - 1) else return left

def rightOf? (t : Text) (index : Nat) : Option Text := do
  let right ← t.slice? index t.size
  let ahead ← (masked t).slice? index (masked t).size
  let pad := ahead.size - ahead.trimStart.size
  if (← ahead.slice? pad ahead.size).head? = some ',' then removeAt? right pad else return right

def divide? (t : Text) (index : Nat) : Option (Text × Text) := do return (← leftOf? t index, ← rightOf? t index)

/-- Whether nothing but blanks stands between the last line feed and a comment. -/
def onOwnLine? (t : Text) (start : Nat) : Option Bool := do
  match (← t.slice? 0 start).findLast? (· == '\n') with
  | some lineFeed => return (← t.slice? (lineFeed + 1) start).allBlank
  | none => return false

def snap? (t : Text) (index : Nat) : Option Nat :=
  match (comments t).find? fun (start, stop) => start < index && index < stop with
  | some (start, stop) => do return if ← onOwnLine? t start then start else stop
  | none => some index

/-- Where a rule divides a gap, if it does. A mark inside a character is a failure. -/
def Rule.seek? (r : Rule) (t : Text) : Option (Option Nat) :=
  let view := if r.seesComments then t else masked t
  match r.mark.first? view with
  | some index => do
    guard (view.isBoundary index)
    return if r.accepts t index then some index else none
  | none => some none

def Rule.seekAll? (t : Text) : Option (Option (Rule × Nat)) :=
  Rule.all.findSomeM? fun r => (r.seek? t).map fun index => index.map fun i => (r, i)

def indexBetween? (t : Text) (j : Junction) : Option Nat := do
  match j.index? (masked t) with
  | some i => snap? t i
  | none => match ← Rule.seekAll? t with
    | some (_, i) => snap? t i
    | none => snap? t t.size

def indexLeading? (parent : Node) (t : Text) : Option Nat :=
  if parent.isDefinition then snap? t t.size
  else match afterBrace? (masked t) with
    | some i => snap? t i
    | none => snap? t ((afterCode? t).getD 0)

def indexTrailing? (t : Text) : Option Nat := do
  let first := (firstCode? t).getD t.size
  match (← (masked t).slice? 0 first).findLast? (· == '\n') with
  | some n => snap? t (lineBreakAt (masked t) n)
  | none => snap? t first

def splitBetween? (t : Text) (j : Junction) : Option (Text × Text) := do divide? t (← indexBetween? t j)

def splitLeading? (parent : Node) (t : Text) : Option (Text × Text) := do divide? t (← indexLeading? parent t)

def splitTrailing? (t : Text) : Option (Text × Text) := do divide? t (← indexTrailing? t)

/-! ### Nothing fails -/

section Division
variable {t : Text} {i : Nat} {ss ss' : List Segment}

theorem removeAt?_comma (s s' : List Segment) :
    removeAt? (raws (s ++ .code ',' :: s')) (size (raws s)) =
      some (removeAt (raws (s ++ .code ',' :: s')) (size (raws s))) := by
  have hfront : (raws (s ++ .code ',' :: s')).isBoundary (size (raws s)) := by
    rw [raws_append]
    exact isBoundary_append_size ..
  have hback : (raws (s ++ .code ',' :: s')).isBoundary (size (raws s) + 1) := by
    have hsplit : raws (s ++ .code ',' :: s') = (raws s ++ [',']) ++ raws s' := by simp [Segment.raw]
    have hboundary := isBoundary_append_size (raws s ++ [',']) (raws s')
    rwa [← hsplit, size_append] at hboundary
  rw [removeAt?, slice?_zero hfront, slice?_size hback, removeAt]
  rfl

theorem isBoundary_masked_cut (h : segments t = ss ++ ss') : (masked t).isBoundary (size (raws ss)) := by
  rw [masked_cut h, ← size_masks]
  exact isBoundary_append_size ..

theorem leftOf?_cut (h : segments t = ss ++ ss') :
    leftOf? t (size (raws ss)) = some (leftOf t (size (raws ss))) := by
  simp only [leftOf?, slice?_zero (isBoundary_cut h), slice?_zero (isBoundary_masked_cut h), Option.bind_eq_bind,
    Option.bind_some]
  rw [leftOf, masked_before_cut h, before_cut h]
  split
  · next hlast =>
    obtain ⟨s, s', hcomma⟩ := exists_endsInComma hlast
    rw [hcomma.trimEnd, size_append, size_masks, hcomma.1]
    exact removeAt?_comma s s'
  · rfl

theorem rightOf?_cut (h : segments t = ss ++ ss') :
    rightOf? t (size (raws ss)) = some (rightOf t (size (raws ss))) := by
  -- What is left of a text without the blanks that it begins with is a slice of it.
  have htrim : ∀ m : Text, m.size - m.trimStart.size = m.leadingBlanks.size ∧
      m.slice? m.leadingBlanks.size m.size = some m.trimStart := by
    intro m
    have hsize : m.size = m.leadingBlanks.size + m.trimStart.size := by
      rw [← size_append, leadingBlanks_append_trimStart]
    have hslice := slice?_append m.leadingBlanks m.trimStart []
    rw [List.append_nil, leadingBlanks_append_trimStart] at hslice
    exact ⟨by omega, hslice⟩
  simp only [rightOf?, slice?_size (isBoundary_cut h), slice?_size (isBoundary_masked_cut h), Option.bind_eq_bind,
    Option.bind_some, htrim]
  rw [rightOf, masked_after_cut h, after_cut h]
  split
  · next hhead =>
    obtain ⟨s, s', hcomma⟩ := exists_beginsWithComma hhead
    rw [hcomma.trimStart.2, size_masks, hcomma.1]
    exact removeAt?_comma s s'
  · rfl

theorem divide?_eq (h : IsCut t i) : divide? t i = some (divide t i) := by
  obtain ⟨ss, ss', hss, rfl⟩ := h
  rw [divide?, leftOf?_cut hss, rightOf?_cut hss]
  rfl

theorem onOwnLine?_eq (h : t.isBoundary i) : onOwnLine? t i = some (onOwnLine t i) := by
  obtain ⟨ahead, rest, rfl, rfl⟩ := isBoundary_iff.mp h
  simp only [onOwnLine?, slice?_zero h, Option.bind_eq_bind, Option.bind_some, onOwnLine, before_append_size]
  split
  · next n hn =>
    obtain ⟨a, c, b, rfl, rfl, hc, hb⟩ := findLast?_eq_some hn
    obtain rfl := beq_iff_eq.mp hc
    have hline : '\n' ∉ b := fun hmem => Bool.false_ne_true ((hb _ hmem).symm.trans (beq_self_eq_true '\n'))
    have hslice : slice? (a ++ '\n' :: b ++ rest) (size a + 1) (size (a ++ '\n' :: b)) = some b := by
      have := slice?_append (a ++ ['\n']) b rest
      rw [size_append a, ← List.append_cons] at this
      exact this
    rw [hslice, lastLine_append hline]
    simp
  · next hn =>
    have hline : '\n' ∉ ahead := fun hmem =>
      Bool.false_ne_true ((findLast?_eq_none hn _ hmem).symm.trans (beq_self_eq_true '\n'))
    simp [hline]

theorem snap?_eq (t : Text) (i : Nat) : snap? t i = some (snap t i) := by
  unfold snap? snap
  generalize hfind : (comments t).find? _ = found
  rcases found with _ | ⟨start, stop⟩
  · rfl
  · obtain ⟨pre, s, post, hss, -, hstart, -⟩ := mem_commentsFrom.mp (List.mem_of_find?_eq_some hfind)
    rw [Nat.zero_add] at hstart
    dsimp only
    rw [hstart, onOwnLine?_eq (isBoundary_cut hss)]
    rfl

end Division

section Places
variable {t : Text}

theorem Rule.seek?_eq {r : Rule} (hr : r ∈ Rule.all) : r.seek? t = some (r.index? t) := by
  unfold seek? index?
  dsimp only
  split
  · next i hi =>
    rw [(between_first? hr hi).isBoundary, hi]
    rfl
  · next hi =>
    rw [hi]
    rfl

theorem findSomeM?_eq {α β : Type} {f : α → Option (Option β)} {g : α → Option β} {l : List α}
    (h : ∀ a ∈ l, f a = some (g a)) : l.findSomeM? f = some (l.findSome? g) := by
  induction l with
  | nil => rfl
  | cons a l ih =>
    obtain ⟨ha, hl⟩ := List.forall_mem_cons.mp h
    rw [List.findSomeM?, List.findSome?, ha]
    cases g a with
    | some b => rfl
    | none => exact ih hl

theorem Rule.seekAll?_eq (t : Text) : Rule.seekAll? t = some (Rule.find? t) :=
  findSomeM?_eq fun r hr => by rw [seek?_eq hr]; rfl

theorem indexBetween?_eq (t : Text) (j : Junction) : indexBetween? t j = some (indexBetween t j) := by
  unfold indexBetween? indexBetween
  rw [Rule.seekAll?_eq]
  cases j.index? (masked t) with
  | some i => exact snap?_eq t i
  | none =>
    rcases Rule.find? t with _ | ⟨r, i⟩
    · exact snap?_eq t t.size
    · exact snap?_eq t i

theorem indexLeading?_eq (parent : Node) (t : Text) : indexLeading? parent t = some (indexLeading parent t) := by
  unfold indexLeading? indexLeading
  rcases Bool.eq_false_or_eq_true parent.isDefinition with hparent | hparent
  · rw [hparent]
    exact snap?_eq t t.size
  · rw [hparent]
    cases afterBrace? (masked t) with
    | some i => exact snap?_eq t i
    | none => exact snap?_eq t _

theorem indexTrailing?_eq (t : Text) : indexTrailing? t = some (indexTrailing t) := by
  unfold indexTrailing? indexTrailing
  simp only [slice?_zero (isBoundary_firstCode t), Option.bind_eq_bind, Option.bind_some]
  cases findLast? (· == '\n') ((masked t).before ((firstCode? t).getD t.size)) with
  | some n => exact snap?_eq t _
  | none => exact snap?_eq t _

/-- Dividing a gap loses nothing. Whatever the gap, its neighbours and their parent, every cut that is made on the way
has both its ends between characters, in order. The gap is divided between two characters and inside no comment, and
each side gives up its outermost code next to the division if that is a comma, and nothing else. -/
theorem splits_lossless (t : Text) (j : Junction) (parent : Node) :
    (splitBetween? t j = some (splitBetween t j) ∧ Parted t (indexBetween t j) (splitBetween t j)) ∧
    (splitLeading? parent t = some (splitLeading parent t) ∧
      Parted t (indexLeading parent t) (splitLeading parent t)) ∧
    (splitTrailing? t = some (splitTrailing t) ∧ Parted t (indexTrailing t) (splitTrailing t)) := by
  have hbetween := isCut_indexBetween t j
  have hleading := isCut_indexLeading parent t
  have htrailing := isCut_indexTrailing t
  refine ⟨⟨?_, hbetween.parted⟩, ⟨?_, hleading.parted⟩, ?_, htrailing.parted⟩
  · rw [splitBetween?, indexBetween?_eq]
    exact divide?_eq hbetween
  · rw [splitLeading?, indexLeading?_eq]
    exact divide?_eq hleading
  · rw [splitTrailing?, indexTrailing?_eq]
    exact divide?_eq htrailing

end Places

end Gap

end Reprint
