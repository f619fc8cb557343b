import Mathlib
import Reprint.Proofs.Arguments
import Reprint.Proofs.Refilled
/-!
Calls of names with names, written without any blanks but one behind each comma. Main statements: such a call can be
given any arguments, as many as you like or none, and its text has them in their order with commas between them
(`arguments_rewritten`). A call without arguments cannot be given any: both its parentheses stay behind the new
arguments, which get another one ahead of them (`empty_call_rewritten`).
-/

namespace Reprint

namespace Text

/-- A text that ends with a solid one. -/
def EndsSolid (t : Text) : Prop := ∃ x name, t = x ++ name ∧ isSolid name = true

section Solid
variable {t : Text}

theorem EndsSolid.exists_last (h : EndsSolid t) :
    ∃ r c, t = r ++ [c] ∧ isBlank c = false ∧ c ≠ ',' ∧ c ≠ '(' := by
  obtain ⟨x, name, rfl, hname⟩ := h
  obtain ⟨r, c, rfl, hc⟩ := exists_last_of_isSolid hname
  exact ⟨x ++ r, c, (List.append_assoc ..).symm, hc⟩

theorem EndsSolid.trimEnd (h : EndsSolid t) : t.trimEnd = t := by
  obtain ⟨r, c, rfl, hc, -⟩ := h.exists_last
  simp [Text.trimEnd, hc]

end Solid

/-- A text without its blanks. -/
def condensed (t : Text) : Text := t.filter (!isBlank ·)

@[simp] theorem condensed_append (a b : Text) : condensed (a ++ b) = condensed a ++ condensed b := List.filter_append ..

theorem condensed_cons {c : Char} (hc : isBlank c = false) (t : Text) : condensed (c :: t) = c :: condensed t :=
  List.filter_cons_of_pos (by simp [hc])

theorem condensed_blank {t : Text} (h : t.allBlank = true) : condensed t = [] :=
  List.filter_eq_nil_iff.mpr fun c hc => by simp [List.all_eq_true.mp h c hc]

end Text

namespace Node
open Text

/-- The name of a node, with or without a blank ahead of it. -/
def NamedBy (n : Node) (t : Text) : Prop := n.isName = true ∧ (t = n.inscription ∨ t = ' ' :: n.inscription)

section NamedBy
variable {n : Node} {t : Text}

theorem NamedBy.solid (h : n.NamedBy t) : n.inscription.isSolid = true := (isName_iff.mp h.1).2

theorem NamedBy.trimStart (h : n.NamedBy t) : t.trimStart = n.inscription := by
  obtain ⟨c, s, hs, hblank, -⟩ := exists_head_of_isSolid h.solid
  have hname : Text.trimStart n.inscription = n.inscription := by
    rw [hs]
    exact List.dropWhile_cons_of_neg (by simp [hblank])
  rcases h.2 with rfl | rfl
  · exact hname
  · exact (List.dropWhile_cons_of_pos (by decide)).trans hname

theorem NamedBy.dropWhile_isIndent (h : n.NamedBy t) : t.dropWhile isIndent = n.inscription := by
  obtain ⟨c, s, hs, hblank, -⟩ := exists_head_of_isSolid h.solid
  have hc : isIndent c = false := by
    simp only [isIndent, Bool.or_eq_false_iff, beq_eq_false_iff_ne]
    constructor <;> rintro rfl <;> cases hblank
  have hname : n.inscription.dropWhile isIndent = n.inscription := by
    rw [hs]
    exact List.dropWhile_cons_of_neg (by simp [hc])
  rcases h.2 with rfl | rfl
  · exact hname
  · exact (List.dropWhile_cons_of_pos rfl).trans hname

theorem NamedBy.not_mem (h : n.NamedBy t) : '\n' ∉ t := by
  have hname := not_mem_of_isSolid (c := '\n') h.solid (by decide)
  rcases h.2 with rfl | rfl
  · exact hname
  · exact List.not_mem_cons_of_ne_of_not_mem (by decide) hname

end NamedBy

end Node

namespace Separator
open Text Node

section Glue
variable {out t : Text} {n : Node}

/-- Between two names there is one comma and one blank. -/
theorem glue_names (hout : EndsSolid out) (ht : n.NamedBy t) :
    (glue out ", ".toList t).1 ++ t = [',', ' '] ++ n.inscription := by
  obtain ⟨r, d, hr, -, hd, -⟩ := hout.exists_last
  obtain ⟨c, s, hs, hblank, hc, -⟩ := exists_head_of_isSolid ht.solid
  have hleft : ¬out.trimEnd.getLast? = some ',' := by
    rw [hout.trimEnd, hr, List.getLast?_concat, Option.some.injEq]
    exact hd
  rw [glue_comma, if_neg (by simp [hleft, ht.trimStart, hs, hc])]
  rcases ht.2 with rfl | rfl
  · rw [hs]
    simp [leadingBlanks, hblank]
  · have hspace : isBlank ' ' = true := by decide
    simp [leadingBlanks, hspace]

/-- Between two names an opening parenthesis is put in where it is wanted. -/
theorem glue_opening (hout : EndsSolid out) (ht : n.NamedBy t) : glue out "(".toList t = (['('], t) := by
  obtain ⟨r, d, hr, -, -, hd⟩ := hout.exists_last
  obtain ⟨c, s, hs, -, -, hc⟩ := exists_head_of_isSolid ht.solid
  have hleft : ¬out.getLast? = some '(' := by
    rw [hr, List.getLast?_concat, Option.some.injEq]
    exact hd
  rw [glue_open, if_neg hleft, hout.trimEnd, if_neg (by simp [hleft, ht.trimStart, hs, hc])]

/-- Behind a name, names are joined with commas. -/
theorem joined_follow {l : List (Node × Text)} (hout : EndsSolid out) (hl : ∀ x ∈ l, x.1.NamedBy x.2) :
    joined (follow out (l.map (·.2))) = l.flatMap fun x => [',', ' '] ++ x.1.inscription := by
  induction l generalizing out with
  | nil => rfl
  | cons x l ih =>
    have hx := hl x (List.mem_cons_self ..)
    have hglue := glue_names hout hx
    have hnext : EndsSolid (out ++ (glue out ", ".toList x.2).1 ++ x.2) := by
      refine ⟨out ++ [',', ' '], x.1.inscription, ?_, hx.solid⟩
      rw [List.append_assoc, hglue, List.append_assoc]
    rw [List.map_cons, follow, List.flatMap_cons, ← hglue, ← ih hnext fun y hy => hl y (List.mem_cons_of_mem _ hy)]
    simp only [joined, List.flatMap_cons]

end Glue

end Separator

/-! ### Arguments -/

namespace Printer
open Text Node Separator

section Arguments
variable {n callee previous : Node} {args : List Node} {indent lineBreak out : Text} {l : List (Node × Text)}

/-- A child of a call that is an argument with its name. -/
def IsArgument (callee : Node) (x : Node × Text) : Prop := callee.same x.1 = false ∧ x.1.NamedBy x.2

theorem IsArgument.oneLine {x : Node × Text} (h : IsArgument callee x) : (brought x).2.OneLine := fun _ => by
  rw [text_brought]
  exact h.2.not_mem

theorem forall_brought (hl : ∀ x ∈ l, IsArgument callee x) :
    ∀ y ∈ l.map brought, callee.same y.1 = false ∧ y.2.OneLine :=
  List.forall_mem_map.mpr fun x hx => ⟨(hl x hx).1, (hl x hx).oneLine⟩

theorem map_text_brought : ((l.map brought).map fun x => x.2.text) = l.map (·.2) := by
  rw [List.map_map]
  exact List.map_congr_left fun x _ => text_brought x

/-- Arguments behind another one. -/
theorem addChildren_arguments (hn : n.kind = .apply callee args) (hprevious : callee.same previous = false)
    (hout : EndsSolid out) (hl : ∀ x ∈ l, IsArgument callee x) :
    addChildren n indent lineBreak (some previous) out (l.map brought) =
      out ++ l.flatMap fun x => [',', ' '] ++ x.1.inscription := by
  rw [addChildren_follow hn hprevious (forall_brought hl), map_text_brought, joined_follow hout fun x hx => (hl x hx).2]

/-- Arguments behind the opening parenthesis. -/
theorem addChildren_opened (hn : n.kind = .apply callee args) (hl : ∀ x ∈ l, IsArgument callee x) :
    addChildren n indent lineBreak (some callee) (out ++ ['(']) (l.map brought) =
      out ++ '(' :: [',', ' '].intercalate (l.map (·.1.inscription)) := by
  rw [addChildren_parts hn (forall_brought hl), map_text_brought]
  cases l with
  | nil => simp [unindented, parts, joined]
  | cons x l =>
    obtain ⟨hx, hl⟩ := List.forall_mem_cons.mp hl
    have hout : EndsSolid (out ++ ['('] ++ x.1.inscription) := ⟨_, _, rfl, hx.2.solid⟩
    rw [List.map_cons, unindented, hx.2.dropWhile_isIndent, parts, List.map_cons, intercalate_cons_flatMap,
      List.flatMap_map, ← joined_follow hout fun y hy => (hl y hy).2]
    simp [joined]

/-- New arguments behind a callee without a parenthesis. -/
theorem addChildren_unopened (hn : n.kind = .apply callee args) (hout : EndsSolid out) {x : Node × Text}
    (hx : IsArgument callee x) (htext : x.2 = x.1.inscription) (hl : ∀ y ∈ l, IsArgument callee y) :
    addChildren n indent lineBreak (some callee) out ((x :: l).map brought) =
      out ++ '(' :: [',', ' '].intercalate ((x :: l).map (·.1.inscription)) := by
  have hbetween : between n callee x.1 = .token "(" := by
    rw [between, hn]
    simp
  have hnext : EndsSolid (out ++ ['('] ++ x.1.inscription) := ⟨_, _, rfl, hx.2.solid⟩
  have hfirst : addChild n indent lineBreak (some callee) out x.1 (brought x).2 = out ++ ['('] ++ x.1.inscription := by
    rw [addChild_eq hx.oneLine hbetween, text_brought, glue_opening hout hx.2, htext]
  have hstep : addChildren n indent lineBreak (some callee) out ((x :: l).map brought) =
      addChildren n indent lineBreak (some x.1) (out ++ ['('] ++ x.1.inscription) (l.map brought) :=
    congrArg (addChildren n indent lineBreak (some x.1) · (l.map brought)) hfirst
  rw [hstep, addChildren_arguments hn hx.1 hnext hl, List.map_cons, intercalate_cons_flatMap, List.flatMap_map]
  simp

end Arguments

end Printer

/-! ### Calls of names -/

namespace Node

/-- A call of a name with names, one behind the other with commas between them. -/
def callText (callee : Node) (args : List Node) : Text :=
  callee.inscription ++ '(' :: [',', ' '].intercalate (args.map inscription) ++ [')']

/-- The row of such a call. -/
def callRow (callee : Node) (args : List Node) : Row :=
  .child callee callee.inscription
    (.mark ['('] (.list (args.map fun a => (a, a.inscription)) (.mark [')'] .nil)))

/-- The row of a call without arguments. -/
def emptyCallRow (callee : Node) (blanks : Text) : Row :=
  .child callee callee.inscription (.mark ('(' :: blanks ++ [')']) .nil)

section CallRow
variable {callee : Node} {args : List Node} {blanks : Text}

theorem text_callRow : (callRow callee args).text = callText callee args := by
  simp [callRow, callText, Function.comp_def]

theorem text_emptyCallRow : (emptyCallRow callee blanks).text = callee.inscription ++ '(' :: blanks ++ [')'] := by
  simp [emptyCallRow]

end CallRow

end Node

namespace Row

/-- Of a list with nothing around it each child brings its name along, and all but the first a blank. -/
theorem mem_listShares_name {ahead : Text} {args : List Node} {x : Node × Text} (hahead : ahead = [] ∨ ahead = [' '])
    (h : x ∈ listShares ahead [] (args.map fun a => (a, a.inscription))) :
    x.1 ∈ args ∧ (x.2 = x.1.inscription ∨ x.2 = ' ' :: x.1.inscription) := by
  induction args generalizing ahead with
  | nil => cases h
  | cons a args ih =>
    have hname : ahead ++ a.inscription = a.inscription ∨ ahead ++ a.inscription = ' ' :: a.inscription := by
      rcases hahead with rfl | rfl
      · exact .inl rfl
      · exact .inr rfl
    cases args with
    | nil =>
      rw [List.mem_singleton.mp h, List.append_nil]
      exact ⟨List.mem_singleton_self a, hname⟩
    | cons b args =>
      rcases List.mem_cons.mp h with rfl | h
      · exact ⟨List.mem_cons_self .., hname⟩
      · obtain ⟨hmem, htext⟩ := ih (.inr rfl) h
        exact ⟨List.mem_cons_of_mem _ hmem, htext⟩

end Row

namespace CompilationUnit
open Node Printer

section Calls
variable {p : Printer} {c : CompilationUnit} {q : Span} {r : Row} {callee edited : Node} {args args' : List Node}
  {others : List (Node × Text)} {t : Text}

/-- A call with other arguments. -/
theorem revised_call (hkind : c.root.kind = .apply callee args) (hedited : edited.kind = .apply callee args')
    (hslot : edited.sameSlot c.root) (hsharing : Sharing edited c.root)
    (heach : ∀ a ∈ args', a ∈ args ∨ (a.span = none ∧ a.isName = true)) : c.Revised edited where
  slot := hslot
  content := contentDiffers_apply hedited hkind
  sharing := hsharing
  each := by
    rw [children_apply hedited, children_apply hkind]
    refine List.forall_mem_cons.mpr ⟨.inl (List.mem_cons_self ..), fun a ha => ?_⟩
    exact (heach a ha).imp_left (List.mem_cons_of_mem _)

/-- No argument is the callee. -/
theorem same_callee (hc : c.Inscribed q r) (hkind : c.root.kind = .apply callee args)
    (hedited : edited.kind = .apply callee args') (hsharing : Sharing edited c.root)
    (heach : ∀ a ∈ args', a ∈ args ∨ (a.span = none ∧ a.isName = true)) {a : Node} (ha : a ∈ args') :
    callee.same a = false := by
  have hchild : callee ∈ c.root.children := by rw [children_apply hkind]; exact List.mem_cons_self ..
  cases hsame : callee.same a with
  | false => rfl
  | true =>
    have hmem : a ∈ edited.preorder :=
      mem_preorder_child (by rw [children_apply hedited]; exact List.mem_cons_of_mem _ ha)
    have heq := hsharing a hmem callee (hc.written.mem_child hchild) (same_iff.mpr (same_iff.mp hsame).symm)
    subst heq
    rcases heach a ha with hargs | ⟨hnone, -⟩
    · have hnodup := hc.single.nodup_children
      rw [children_apply hkind, List.map_cons] at hnodup
      exact absurd (List.mem_map_of_mem hargs) (List.nodup_cons.mp hnodup).1
    · exact absurd hnone (hc.span_child hchild)

/-- What the callee and the arguments bring along. -/
theorem exists_arguments (hc : c.Inscribed q r)
    (hshares : Row.shares c.root r.head none r.cells = (callee, t) :: others)
    (hothers : ∀ x ∈ others, x.2 = x.1.inscription ∨ x.2 = ' ' :: x.1.inscription)
    (hedited : edited.kind = .apply callee args') (hrevised : c.Revised edited)
    (hother : ∀ a ∈ args', callee.same a = false) :
    ∃ rest : List (Node × Text), args' = rest.map (·.1) ∧ (∀ x ∈ (callee, t) :: rest, r.Brings c.root x) ∧
      ∀ x ∈ rest, IsArgument callee x ∧ (x.1.span = none → x.2 = x.1.inscription) := by
  obtain ⟨fills, hchildren, hfills⟩ := hrevised.exists_fills hc
  rw [children_apply hedited] at hchildren
  cases fills with
  | nil => cases hchildren
  | cons first rest =>
    obtain ⟨-, rfl⟩ := List.cons.inj hchildren
    have hcallee : r.Brings c.root (callee, t) := .inl (by rw [hshares]; exact List.mem_cons_self ..)
    refine ⟨rest, rfl, List.forall_mem_cons.mpr ⟨hcallee, fun x hx => hfills x (List.mem_cons_of_mem _ hx)⟩,
      fun x hx => ?_⟩
    have hsame := hother x.1 (List.mem_map_of_mem hx)
    rcases hfills x (List.mem_cons_of_mem _ hx) with hshare | ⟨-, hname, htext⟩
    · have hchild : x.1 ∈ c.root.children := by
        rw [hc.children, ← Row.map_fst_shares]
        exact List.mem_map_of_mem hshare
      rw [hshares] at hshare
      rcases List.mem_cons.mp hshare with rfl | hshare
      · rw [same_refl] at hsame
        cases hsame
      · exact ⟨⟨hsame, (hc.name_child hchild).1, hothers x hshare⟩, fun hnone => absurd hnone (hc.span_child hchild)⟩
    · exact ⟨⟨hsame, hname, .inl htext⟩, fun _ => htext⟩

end Calls

end CompilationUnit

namespace Row
open Node

section CallRow
variable {parent callee : Node} {args : List Node} {blanks : Text}

theorem shares_callRow (hcallee : callee.isName = true) (hargs : args ≠ []) :
    shares parent [] none (callRow callee args).cells =
      (callee, callee.inscription ++ ['(']) :: listShares [] [] (args.map fun a => (a, a.inscription)) := by
  obtain ⟨a, args, rfl⟩ := List.exists_cons_of_ne_nil hargs
  have hsplit : ∀ right, Gap.splitBetween ['('] { parent, left := callee, right } = (['('], []) := fun right =>
    Gap.splitBetween_paren .none (by rw [(isName_iff.mp hcallee).1]; decide)
  have hclose : Gap.splitTrailing [')'] = ([], [')']) := Gap.splitTrailing_code (by decide) (by decide) rfl
  rw [callRow, List.map_cons, shares_child_list hsplit]
  simp [lead, trail, mark, nil, shares, Gap.splitLeading_nil, hclose]

theorem splitTrailing_empty (hblank : blanks.allBlank = true) :
    Gap.splitTrailing ('(' :: blanks ++ [')']) = ([], '(' :: blanks ++ [')']) := by
  have habsent : ∀ c, isBlank c = false → c ≠ '(' → c ≠ ')' → c ∉ '(' :: (blanks ++ [')']) := by
    intro c hc hopen hclose hmem
    simp only [List.mem_cons, List.mem_append, List.not_mem_nil, or_false] at hmem
    rcases hmem with rfl | hmem | rfl
    · exact hopen rfl
    · exact Text.not_mem_of_allBlank hblank hc hmem
    · exact hclose rfl
  exact Gap.splitTrailing_code (habsent '/' rfl (by decide) (by decide)) (habsent ',' rfl (by decide) (by decide)) rfl

theorem shares_emptyCallRow (hblank : blanks.allBlank = true) :
    shares parent [] none (emptyCallRow callee blanks).cells = [(callee, callee.inscription)] := by
  have hgap : (mark ('(' :: blanks ++ [')']) nil).head = '(' :: blanks ++ [')'] := List.append_nil _
  show [(callee, (Gap.splitLeading parent []).2 ++ callee.inscription ++ (Gap.splitTrailing _).1)] = _
  rw [hgap, splitTrailing_empty hblank, Gap.splitLeading_nil, List.append_nil, List.nil_append]

end CallRow

end Row

namespace Printer
open Node

/-- A call of names can be given any other arguments: names that it had, in any order and as often as you like, and
new ones. The text is a call again, with these arguments. -/
theorem arguments_rewritten (p : Printer) (c : CompilationUnit) (q : Span) (callee edited : Node)
    (args args' : List Node) (hunit : p.units.get? q.file = some c) (hnames : p.WritesNames)
    (hkind : c.root.kind = .apply callee args) (hargs : args ≠ []) (hcall : c.Inscribed q (callRow callee args))
    (hedited : edited.kind = .apply callee args') (hslot : edited.sameSlot c.root) (hsharing : Sharing edited c.root)
    (heach : ∀ a ∈ args', a ∈ args ∨ (a.span = none ∧ a.isName = true)) :
    c.source.text = callText callee args ∧ p.rewrite? c edited = some (callText callee args') := by
  have htext : c.source.text = callText callee args := hcall.text.trans text_callRow
  have hrevised := CompilationUnit.revised_call hkind hedited hslot hsharing heach
  refine ⟨htext, ?_⟩
  cases hchanged : edited.childrenChanged c.root with
  | false =>
    obtain ⟨hchildren, hrewrite⟩ := hrevised.unnoticed hcall hunit hchanged
    rw [children_apply hedited, children_apply hkind] at hchildren
    rw [hrewrite, htext, (List.cons.inj hchildren).2]
  | true =>
    obtain ⟨hcallee, hplaced⟩ :=
      hcall.name_child (b := callee) (by rw [children_apply hkind]; exact List.mem_cons_self ..)
    have hshares : Row.shares c.root [] none (callRow callee args).cells = _ := Row.shares_callRow hcallee hargs
    obtain ⟨rest, rfl, hbrings, hrest⟩ := CompilationUnit.exists_arguments hcall hshares
      (fun x hx => (Row.mem_listShares_name (.inl rfl) hx).2) hedited hrevised
      fun a ha => CompilationUnit.same_callee hcall hkind hedited hsharing heach ha
    have hlast : (callRow callee args).lastGap = [')'] := by
      obtain ⟨a, args, rfl⟩ := List.exists_cons_of_ne_nil hargs
      simp [callRow]
    have hclose : (Gap.splitTrailing [')']).2 = [')'] := by
      rw [Gap.splitTrailing_code (by decide) (by decide) rfl]
    have hahead : (Gap.splitLeading c.root (callRow callee args).head).1 = [] :=
      congrArg Prod.fst (Gap.splitLeading_nil c.root)
    rw [hrevised.rewrite?_eq hcall hunit hnames hchanged (replaced?_apply hedited)
      (show edited.children = ((callee, callee.inscription ++ ['(']) :: rest).map (·.1) from children_apply hedited)
      hbrings (by simp)
      (by simp [callRow, Row.child]), hlast, hclose, hahead, addChildren_first hplaced, List.nil_append,
      addChildren_opened hedited fun x hx => (hrest x hx).1]
    simp [callText, Function.comp_def]

theorem pair_inscribed : (Call.pair [',', ' ']).Inscribed (.range "A.scala" 0 7)
    (callRow (Node.letter 0 "f" 0) [Node.letter 1 "a" 2, Node.letter 2 "b" 5]) where
  place := rfl
  whole := ⟨rfl, rfl⟩
  children := rfl
  text := rfl
  sits := rfl
  names := by decide
  file := by decide
  single := Call.single_pair _

/-- The call `f(a, b)` with its arguments the other way round, one of them twice, and a new one between them. -/
theorem arguments_mixed :
    let c := Call.pair [',', ' ']
    let a := Node.letter 1 "a" 2
    let b := Node.letter 2 "b" 5
    let edited := Call.callOf 4 7 [b, Call.newName 5 "x1", b, a]
    c.Inscribed (.range "A.scala" 0 7) (callRow (Node.letter 0 "f" 0) [a, b]) ∧ Sharing edited c.root ∧
      c.source.text = "f(a, b)".toList ∧ (plain c).rewrite? c edited = some "f(b, x1, b, a)".toList := by
  intro c a b edited
  have hnew : (Call.newName 5 "x1").isName = true :=
    isName_iff.mpr ⟨rfl, Text.isSolid_of_alphanum (by decide) (List.all_eq_true.mp rfl)⟩
  have hargs : ∀ d ∈ [b, Call.newName 5 "x1", b, a], d ∈ [a, b] ∨ (d = Call.newName 5 "x1") := by simp
  have hsharing : Sharing edited c.root := by
    refine pair_inscribed.sharing (by decide) (List.forall_mem_cons.mpr ⟨.inl (List.mem_cons_self ..), fun d hd => ?_⟩)
    rcases hargs d hd with hold | rfl
    · exact .inl (List.mem_cons_of_mem _ hold)
    · exact .inr ⟨hnew, by decide⟩
  refine ⟨pair_inscribed, hsharing, arguments_rewritten (plain c) c (.range "A.scala" 0 7) (Node.letter 0 "f" 0) edited
    [a, b] [b, Call.newName 5 "x1", b, a] rfl (writesNames_of_pretty fun _ => rfl) rfl (by decide) pair_inscribed rfl
    rfl hsharing fun d hd => ?_⟩
  rcases hargs d hd with hold | rfl
  · exact .inl hold
  · exact .inr ⟨rfl, hnew⟩

/-- A call without arguments that is given some keeps both its parentheses behind them. -/
theorem rewrite?_emptyCall {p : Printer} {c : CompilationUnit} {q : Span} {callee edited : Node} {args : List Node}
    {blanks : Text} (hunit : p.units.get? q.file = some c) (hnames : p.WritesNames)
    (hkind : c.root.kind = .apply callee []) (hblanks : blanks.allBlank = true)
    (hcall : c.Inscribed q (emptyCallRow callee blanks)) (hedited : edited.kind = .apply callee args)
    (hrevised : c.Revised edited) (heach : ∀ a ∈ args, a.span = none ∧ a.isName = true) (hne : args ≠ []) :
    p.rewrite? c edited = some
      (callee.inscription ++ '(' :: [',', ' '].intercalate (args.map inscription) ++ '(' :: blanks ++ [')']) := by
  have hchanged : edited.childrenChanged c.root = true := by
    refine childrenChanged_of_length_ne fun hlength => hne ?_
    rw [children_apply hedited, children_apply hkind] at hlength
    simpa using hlength
  obtain ⟨hcallee, hplaced⟩ :=
    hcall.name_child (b := callee) (by rw [children_apply hkind]; exact List.mem_cons_self ..)
  have hshares : Row.shares c.root [] none (emptyCallRow callee blanks).cells = _ := Row.shares_emptyCallRow hblanks
  obtain ⟨rest, rfl, hbrings, hrest⟩ := CompilationUnit.exists_arguments hcall hshares (by simp) hedited hrevised
    fun a ha => CompilationUnit.same_callee hcall hkind hedited hrevised.sharing (fun b hb => .inr (heach b hb)) ha
  obtain ⟨x, rest, rfl⟩ := List.exists_cons_of_ne_nil (show rest ≠ [] by simpa using hne)
  obtain ⟨⟨hx, hname⟩, hrest⟩ := List.forall_mem_cons.mp hrest
  have hfirst : x.2 = x.1.inscription := hname (heach x.1 (List.mem_cons_self ..)).1
  have hlast : (emptyCallRow callee blanks).lastGap = '(' :: blanks ++ [')'] := by simp [emptyCallRow]
  have hahead : (Gap.splitLeading c.root (emptyCallRow callee blanks).head).1 = [] :=
    congrArg Prod.fst (Gap.splitLeading_nil c.root)
  rw [hrevised.rewrite?_eq hcall hunit hnames hchanged (replaced?_apply hedited)
    (show edited.children = ((callee, callee.inscription) :: x :: rest).map (·.1) from children_apply hedited)
    hbrings (by simp)
    (by simp [emptyCallRow, Row.child]), hlast, Row.splitTrailing_empty hblanks, hahead, addChildren_first hplaced,
    addChildren_unopened hedited ⟨[], _, rfl, (isName_iff.mp hcallee).2⟩ hx hfirst fun y hy => (hrest y hy).1]
  simp [Function.comp_def]

/-- A call without arguments that is given names for arguments keeps both its parentheses behind them, and they get
another one ahead of them. Blanks apart, the text is the call with these arguments only if there are none. -/
theorem empty_call_rewritten (p : Printer) (c : CompilationUnit) (q : Span) (callee edited : Node) (args : List Node)
    (blanks : Text) (hunit : p.units.get? q.file = some c) (hnames : p.WritesNames)
    (hkind : c.root.kind = .apply callee []) (hblanks : blanks.allBlank = true)
    (hcall : c.Inscribed q (emptyCallRow callee blanks)) (hedited : edited.kind = .apply callee args)
    (hslot : edited.sameSlot c.root) (hsharing : Sharing edited c.root)
    (heach : ∀ a ∈ args, a.span = none ∧ a.isName = true) :
    c.source.text = callee.inscription ++ '(' :: blanks ++ [')'] ∧ ∃ t, p.rewrite? c edited = some t ∧
      (args ≠ [] → t = callee.inscription ++ '(' :: [',', ' '].intercalate (args.map inscription) ++
        '(' :: blanks ++ [')']) ∧
      (t.condensed = (callText callee args).condensed ↔ args = []) := by
  have htext : c.source.text = callee.inscription ++ '(' :: blanks ++ [')'] := hcall.text.trans text_emptyCallRow
  have hrevised := CompilationUnit.revised_call hkind hedited hslot hsharing fun a ha => .inr (heach a ha)
  have hparen : isBlank '(' = false := by decide
  refine ⟨htext, ?_⟩
  by_cases hne : args = []
  · subst hne
    have hchildren : edited.children = c.root.children := by rw [children_apply hedited, children_apply hkind]
    refine ⟨_, (hrevised.unnoticed hcall hunit (childrenChanged_of_children_eq hchildren)).2,
      fun hne => absurd rfl hne, iff_of_true ?_ rfl⟩
    rw [htext]
    simp [callText, Text.condensed_cons hparen, Text.condensed_blank hblanks]
  · refine ⟨_, rewrite?_emptyCall hunit hnames hkind hblanks hcall hedited hrevised heach hne, fun _ => rfl,
      iff_of_false (fun heq => ?_) hne⟩
    -- There is one parenthesis too many.
    have hlength := congrArg List.length heq
    simp [callText, Text.condensed_cons hparen, Text.condensed_blank hblanks] at hlength

/-- The call of `f` without arguments. -/
def emptyCall (blanks : Text) : CompilationUnit where
  source := { name := "A.scala", text := "f(".toList ++ blanks ++ [')'] }
  root := Call.callOf 1 (3 + blanks.size) []

theorem emptyCall_inscribed (blanks : Text) :
    (emptyCall blanks).Inscribed (.range "A.scala" 0 (3 + blanks.size))
      (emptyCallRow (Node.letter 0 "f" 0) blanks) where
  place := rfl
  whole := by
    refine ⟨rfl, ?_⟩
    show 3 + blanks.size = Text.size ("f(".toList ++ blanks ++ [')'])
    have hmarks : Text.size "f(".toList = 2 ∧ Text.size [')'] = 1 := by decide
    rw [Text.size_append, Text.size_append, hmarks.1, hmarks.2]
    omega
  children := rfl
  text := by
    rw [text_emptyCallRow]
    rfl
  sits := rfl
  names := List.forall_mem_singleton.mpr ⟨rfl, rfl⟩
  file := List.forall_mem_singleton.mpr fun s hs => by
    cases hs
    rfl
  single := by
    have hpreorder : (emptyCall blanks).root.preorder = [(emptyCall blanks).root, Node.letter 0 "f" 0] := by
      simp [preorder_eq, emptyCall, Call.callOf, Node.letter, children]
    rw [Single, hpreorder]
    simp [emptyCall, Call.callOf, Node.letter, identity]

theorem sharing_emptyCall (blanks : Text) {args : List Node}
    (h : ∀ a ∈ args, a.isName = true ∧ a.identity ∉ [.built 1, .built 0]) :
    Sharing (Call.callOf 2 (3 + blanks.size) args) (emptyCall blanks).root :=
  (emptyCall_inscribed blanks).sharing (show Identity.built 2 ∉ [.built 1, .built 0] by decide)
    (List.forall_mem_cons.mpr ⟨.inl (List.mem_cons_self ..), fun a ha => .inr (h a ha)⟩)

/-- The call `f( )` with two arguments becomes `f(x, y( )`. -/
theorem empty_call_with_two :
    let c := emptyCall [' ']
    let x := Call.newName 3 "x"
    let y := Call.newName 4 "y"
    let edited := Call.callOf 2 4 [x, y]
    c.Inscribed (.range "A.scala" 0 4) (emptyCallRow (Node.letter 0 "f" 0) [' ']) ∧ Sharing edited c.root ∧
      c.source.text = "f( )".toList ∧ (plain c).rewrite? c edited = some "f(x, y( )".toList := by
  intro c x y edited
  have hargs : ∀ a ∈ [x, y], a.isName = true ∧ a.identity ∉ [.built 1, .built 0] := by decide
  have hcall := emptyCall_inscribed [' ']
  have hsharing : Sharing edited c.root := sharing_emptyCall [' '] hargs
  obtain ⟨htext, t, hrewrite, hlong, -⟩ := empty_call_rewritten (plain c) c (.range "A.scala" 0 4) (Node.letter 0 "f" 0)
    edited [x, y] [' '] rfl (writesNames_of_pretty fun _ => rfl) rfl (by decide) hcall rfl rfl hsharing
    fun a ha => ⟨by revert a; decide, (hargs a ha).1⟩
  exact ⟨hcall, hsharing, htext, hrewrite.trans (congrArg some (hlong (by simp)))⟩

/-- With one argument, `f()` becomes `f(x()` and not `f(x)`. -/
theorem empty_call_unclosed :
    let c := emptyCall []
    let edited := Call.callOf 2 3 [Call.newName 3 "x"]
    c.Inscribed (.range "A.scala" 0 3) (emptyCallRow (Node.letter 0 "f" 0) []) ∧ Sharing edited c.root ∧
      c.source.text = "f()".toList ∧ (plain c).rewrite? c edited = some "f(x()".toList ∧
      Text.condensed "f(x()".toList ≠ Text.condensed (callText (Node.letter 0 "f" 0) [Call.newName 3 "x"]) := by
  intro c edited
  exact ⟨emptyCall_inscribed [], sharing_emptyCall [] (by decide), rfl, by cbv, by decide⟩

end Printer

end Reprint
