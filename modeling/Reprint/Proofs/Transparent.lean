import Mathlib
import Reprint.Proofs.ArgumentLists
import Reprint.Proofs.Words
/-!
Calls with transparent arguments. Layout is never measured from a transparent argument, so its name is part of a gap
and goes along with the layout of a neighbour or of the call. But an argument is also printed by itself, transparent
or not. Main statement: a call that is given one more argument has each transparent argument twice and all the others
once (`transparent_arguments_twice`).
-/

namespace Reprint

/-! ### Gaps between words -/

/-- A gap without comments that begins with a mark and does not end within a word. Behind a comma there is something
that keeps the next word apart. -/
structure Gap.Parting (t : Text) : Prop where
  plain : '/' ∉ t
  start : ∃ c s, t = c :: s ∧ isBlank c = false ∧ isWordChar c = false ∧ (c = ',' → s ≠ [] ∧ endsWord s = true)
  stop : t.leavesWord = true

namespace Gap.Parting
open Text

section Parting
variable {t a b : Text}

theorem endsWord (h : Parting t) : endsWord t = true := by
  obtain ⟨c, s, rfl, -, hc, -⟩ := h.start
  rw [Reprint.endsWord, hc]
  rfl

/-- More text may follow, if it does not end within a word either. -/
theorem append (h : Parting a) (hplain : '/' ∉ b) (hstop : b.leavesWord = true) : Parting (a ++ b) where
  plain := by simp [h.plain, hplain]
  start := by
    obtain ⟨c, s, rfl, hblank, hc, hcomma⟩ := h.start
    refine ⟨c, s ++ b, rfl, hblank, hc, fun heq => ?_⟩
    obtain ⟨hne, hs⟩ := hcomma heq
    exact ⟨by simp [hne], endsWord_append hs fun hnil => absurd hnil hne⟩
  stop := leavesWord_append hstop fun _ => h.stop

theorem words_between (h : Parting t) (a b : Text) : (a ++ t ++ b).words = a.words ++ t.words ++ b.words := by
  have hright : (a ++ t).leavesWord = true := by
    obtain ⟨c, s, ht, -⟩ := h.start
    exact leavesWord_append h.stop fun hnil => by simp [ht] at hnil
  rw [words_append (apart_of_leavesWord hright), words_append (apart_of_endsWord h.endsWord)]

/-- Behind the last child all of the gap goes to the parent, but for a comma. -/
theorem splitTrailing (h : Parting t) : (splitTrailing t).1 = [] ∧ (splitTrailing t).2.words = t.words ∧
    Reprint.endsWord (splitTrailing t).2 = true := by
  obtain ⟨c, s, rfl, hblank, hc, hcomma⟩ := h.start
  have hplain : '/' ∉ [] ++ c :: s := h.plain
  rw [Gap.splitTrailing, indexTrailing_code h.plain hblank, divide]
  refine ⟨?_, words_rightOf hplain, ?_⟩
  · rcases leftOf_cases hplain with hleft | ⟨x, y, hnil, -⟩
    · exact hleft
    · simp at hnil
  · rcases rightOf_cases hplain with hright | ⟨x, y, hgap, hx, hright⟩
    · exact (congrArg Reprint.endsWord hright).trans h.endsWord
    · refine (congrArg Reprint.endsWord hright).trans (endsWord_append (endsWord_of_allBlank hx) fun hnil => ?_)
      rw [hnil] at hgap
      obtain ⟨hhead, rfl⟩ := List.cons.inj hgap
      exact (hcomma hhead).2

end Parting

end Gap.Parting

/-- A child whose text is its name, one word, with a gap behind it that keeps it apart from the next one. -/
structure Cell.Worded (cell : Cell) : Prop where
  name : cell.text = cell.node.inscription
  word : cell.text ≠ [] ∧ ∀ c ∈ cell.text, isWordChar c = true
  gap : Gap.Parting cell.gap

namespace Row
open Text Gap

section Worded
variable {cells : List Cell} {cell : Cell}

theorem words_of_worded (h : cell.Worded) : cell.text.words = [cell.node.inscription] := by
  rw [words_of_all h.word.1 h.word.2, h.name]

theorem plain_of_worded (h : cell.Worded) : '/' ∉ cell.text := fun hmem => by
  have hslash := h.word.2 '/' hmem
  rw [isWordChar_of_mark '/' (by decide)] at hslash
  cases hslash

theorem plain_ahead (h : ∀ cell ∈ cells, cell.Worded) : '/' ∉ ahead cells ∧ (ahead cells).leavesWord = true := by
  induction cells with
  | nil => exact ⟨by simp [ahead], rfl⟩
  | cons cell cells ih =>
    obtain ⟨hcell, hcells⟩ := List.forall_mem_cons.mp h
    obtain ⟨hplain, hstop⟩ := ih hcells
    rw [ahead]
    split
    · exact ⟨by simp, rfl⟩
    · refine ⟨by simp [plain_of_worded hcell, hcell.gap.plain, hplain], ?_⟩
      obtain ⟨c, s, hgap, -⟩ := hcell.gap.start
      exact leavesWord_append hstop fun _ => leavesWord_append hcell.gap.stop fun hnil => by simp [hgap] at hnil

/-- The transparent children in a gap keep it apart from the words around it. -/
theorem worded_anchorCells (h : ∀ cell ∈ cells, cell.Worded) : ∀ cell ∈ anchorCells cells, cell.Worded := by
  induction cells with
  | nil => simp [anchorCells]
  | cons cell cells ih =>
    obtain ⟨hcell, hcells⟩ := List.forall_mem_cons.mp h
    rw [anchorCells]
    split
    · obtain ⟨hplain, hstop⟩ := plain_ahead hcells
      exact List.forall_mem_cons.mpr ⟨⟨hcell.name, hcell.word, hcell.gap.append hplain hstop⟩, ih hcells⟩
    · exact ih hcells

/-- The words of a row whose gaps hold none. -/
theorem words_textOf (h : ∀ cell ∈ cells, cell.Worded ∧ cell.gap.words = []) :
    (textOf cells).words = cells.map (·.node.inscription) := by
  induction cells with
  | nil => rfl
  | cons cell cells ih =>
    obtain ⟨⟨hcell, hgap⟩, hcells⟩ := List.forall_mem_cons.mp h
    rw [textOf_cons, hcell.gap.words_between, words_of_worded hcell, hgap, ih hcells]
    rfl

theorem words_share {parent : Node} {head : Text} {previous next : Option Cell}
    (hlead : (lead parent head previous cell).leavesWord = true) (htrail : endsWord (trail parent cell next) = true) :
    (share parent head previous cell next).words =
      (lead parent head previous cell).words ++ cell.text.words ++ (trail parent cell next).words := by
  rw [share, words_append (apart_of_endsWord htrail), words_append (apart_of_leavesWord hlead)]

/-- The children bring all the words of a row along, but for those that the node keeps behind the last child. -/
theorem words_shares {parent : Node} {head : Text} {previous : Option Cell} {last : Cell}
    (h : ∀ d ∈ cell :: cells, d.Worded) (hlead : (lead parent head previous cell).leavesWord = true)
    (hlast : (cell :: cells).getLast? = some last) :
    ((shares parent head previous (cell :: cells)).flatMap fun x => x.2.words) ++ (splitTrailing last.gap).2.words =
      (lead parent head previous cell).words ++ (textOf (cell :: cells)).words := by
  -- What trails a child and what leads the next one are the two sides of one gap.
  induction cells generalizing previous cell with
  | nil =>
    obtain rfl : cell = last := by simpa using hlast
    obtain ⟨hcell, -⟩ := List.forall_mem_cons.mp h
    obtain ⟨hnil, hwords, -⟩ := hcell.gap.splitTrailing
    have htrail : trail parent cell none = [] := hnil
    rw [shares, shares, List.flatMap_singleton, List.head?_nil, words_share hlead (by rw [htrail]; rfl), htrail, hwords,
      textOf_cons, hcell.gap.words_between]
    simp
  | cons next cells ih =>
    obtain ⟨hcell, hcells⟩ := List.forall_mem_cons.mp h
    obtain ⟨hgap, hstart, hstop⟩ :=
      spared_splitBetween hcell.gap.plain { parent, left := cell.node, right := next.node }
    have hlead' : (lead parent head (some cell) next).leavesWord = true := hstop hcell.gap.stop
    have hrest := ih hcells hlead' (by simpa using hlast)
    have htrail : endsWord (trail parent cell (some next)) = true := hstart hcell.gap.endsWord
    rw [shares, List.flatMap_cons, List.append_assoc, hrest, List.head?_cons, words_share hlead htrail, textOf_cons cell,
      hcell.gap.words_between, hgap]
    simp only [trail, lead, List.append_assoc]

/-- Where layout is measured from the first child of a row, the children from which it is measured bring the names of
all children along, but for those that the node keeps. -/
theorem words_anchored {r : Row} (parent : Node) (hhead : r.head = []) (hcells : r.cells = cell :: cells)
    (hsome : cell.node.layoutSpan.isSome = true) (h : ∀ d ∈ r.cells, d.Worded ∧ d.gap.words = []) :
    r.anchored.head = [] ∧ r.anchored.cells ≠ [] ∧ endsWord (splitTrailing r.anchored.lastGap).2 = true ∧
      ((shares parent [] none r.anchored.cells).flatMap fun x => x.2.words) ++
        (splitTrailing r.anchored.lastGap).2.words = r.cells.map (·.node.inscription) := by
  have hanchors : r.anchored.cells = { cell with gap := cell.gap ++ ahead cells } :: anchorCells cells := by
    rw [anchored, hcells, anchorCells, if_pos hsome]
  have hnil : r.anchored.head = [] := by rw [anchored, hhead, hcells, ahead, if_pos hsome, List.append_nil]
  have hworded : ∀ d ∈ r.anchored.cells, d.Worded := worded_anchorCells fun d hd => (h d hd).1
  have hne : r.anchored.cells ≠ [] := by simp [hanchors]
  have hlast := List.getLast?_eq_some_getLast hne
  have hgap : r.anchored.lastGap = (r.anchored.cells.getLast hne).gap := by rw [lastGap, hlast]; rfl
  obtain ⟨-, -, hend⟩ := (hworded _ (List.getLast_mem hne)).gap.splitTrailing
  refine ⟨hnil, hne, hgap ▸ hend, ?_⟩
  have hlead : ∀ first, lead parent [] none first = [] := fun _ => congrArg Prod.snd (Gap.splitLeading_nil parent)
  have htext : textOf r.anchored.cells = textOf r.cells := by
    have hrow := text_anchored r
    rwa [text, text, hnil, hhead] at hrow
  rw [hgap, ← words_textOf h, ← htext]
  generalize r.anchored.cells.getLast hne = last at hlast
  rw [hanchors] at hworded hlast ⊢
  rw [words_shares hworded (by rw [hlead]; rfl) hlast, hlead]
  rfl

end Worded

/-- Some nodes with texts, and between them the other nodes of a list with texts of their own. -/
theorem exists_fills {l : List Node} {given : List (Node × Text)} {keep : Node → Bool} (f : Node → Text)
    (h : given.map (·.1) = l.filter keep) : ∃ fills : List (Node × Text), fills.map (·.1) = l ∧
      fills.filter (keep ·.1) = given ∧ fills.filter (!keep ·.1) = (l.filter (!keep ·)).map fun n => (n, f n) := by
  induction l generalizing given with
  | nil => exact ⟨[], rfl, (List.map_eq_nil_iff.mp h).symm, rfl⟩
  | cons n l ih =>
    cases hn : keep n with
    | true =>
      rw [List.filter_cons_of_pos hn] at h
      obtain ⟨x, given, rfl, rfl, hrest⟩ := List.map_eq_cons_iff.mp h
      obtain ⟨fills, rfl, hgiven, hothers⟩ := ih hrest
      exact ⟨x :: fills, rfl, by simp [hn, hgiven], by simp [hn, hothers]⟩
    | false =>
      rw [List.filter_cons_of_neg (by simp [hn])] at h
      obtain ⟨fills, rfl, hgiven, hothers⟩ := ih h
      exact ⟨(n, f n) :: fills, rfl, by simp [hn, hgiven], by simp [hn, hothers]⟩

end Row

/-! ### Calls -/

namespace Printer
open Node Text Separator

/-- No word is lost or joined to another one where the children of a call are put together. -/
theorem words_addChildren {n callee previous : Node} {args : List Node} {indent lineBreak out : Text}
    {l : List (Node × Fragment)} (hn : n.kind = .apply callee args) (hl : ∀ x ∈ l, x.2.OneLine) :
    (addChildren n indent lineBreak (some previous) out l).words = out.words ++ l.flatMap fun x => x.2.text.words := by
  induction l generalizing previous out with
  | nil => simp [addChildren]
  | cons x l ih =>
    obtain ⟨hx, hl⟩ := List.forall_mem_cons.mp hl
    have hchild : (addChild n indent lineBreak (some previous) out x.1 x.2).words = out.words ++ x.2.text.words := by
      cases hsame : callee.same previous with
      | true =>
        rw [addChild_eq hx (s := "(") (by rw [between, hn]; simp [hsame]), words_glue_paren]
      | false =>
        rw [addChild_eq hx (s := ", ") (by rw [between, hn]; simp [hsame]), words_glue_comma]
    rw [addChildren, ih hl, hchild, List.flatMap_cons, List.append_assoc]

end Printer

namespace Node
open Text

/-- Whether a node is an identifier whose name is one word. -/
def isWord (n : Node) : Bool := n.isName && n.inscription.all isWordChar

theorem isWord_iff {n : Node} :
    n.isWord = true ↔ n.isName = true ∧ n.inscription ≠ [] ∧ ∀ c ∈ n.inscription, isWordChar c = true := by
  rw [isWord, Bool.and_eq_true, List.all_eq_true]
  exact ⟨fun h => ⟨h.1, (isSolid_iff.mp (isName_iff.mp h.1).2).1, h.2⟩, fun h => ⟨h.1, h.2.2⟩⟩

theorem words_of_isWord {n : Node} (h : n.isWord = true) : n.inscription.words = [n.inscription] := by
  obtain ⟨-, hne, hall⟩ := isWord_iff.mp h
  exact words_of_all hne hall

/-- The children of a call stand for their names, with a mark behind each. -/
theorem mem_callRow {callee : Node} {args : List Node} {cell : Cell} (h : cell ∈ (callRow callee args).cells) :
    cell.node ∈ callee :: args ∧ cell.text = cell.node.inscription ∧
      cell.gap ∈ [['('], [',', ' '], [')'], ['(', ')']] := by
  have hlist : ∀ args : List Node, ∀ cell ∈ (Row.list (args.map fun a => (a, a.inscription)) (.mark [')'] .nil)).cells,
      cell.node ∈ args ∧ cell.text = cell.node.inscription ∧ (cell.gap = [',', ' '] ∨ cell.gap = [')']) := by
    intro args
    induction args with
    | nil => exact fun cell hcell => by cases hcell
    | cons a args ih =>
      cases args with
      | nil => exact List.forall_mem_singleton.mpr ⟨List.mem_singleton_self a, rfl, .inr rfl⟩
      | cons b args =>
        have hhead : (Row.list ((b :: args).map fun a => (a, a.inscription)) (.mark [')'] .nil)).head = [] := by
          cases args <;> rfl
        refine List.forall_mem_cons.mpr ⟨⟨List.mem_cons_self .., rfl, .inl ?_⟩, fun cell hcell => ?_⟩
        · exact congrArg ([',', ' '] ++ ·) hhead
        · obtain ⟨hmem, hrest⟩ := ih cell hcell
          exact ⟨List.mem_cons_of_mem _ hmem, hrest⟩
  rcases List.mem_cons.mp h with rfl | h
  · refine ⟨List.mem_cons_self .., rfl, ?_⟩
    rcases args with _ | ⟨a, _ | ⟨b, args⟩⟩
    · show ['(', ')'] ∈ _
      decide
    · exact List.mem_cons_self ..
    · exact List.mem_cons_self ..
  · obtain ⟨hmem, htext, hgap⟩ := hlist args cell h
    refine ⟨List.mem_cons_of_mem _ hmem, htext, ?_⟩
    rcases hgap with hgap | hgap <;> rw [hgap] <;> decide

theorem parting_callRow {gap : Text} (h : gap ∈ [['('], [',', ' '], [')'], ['(', ')']]) :
    Gap.Parting gap ∧ gap.words = [] := by
  have hopen : isWordChar '(' = false := isWordChar_of_mark '(' (by decide)
  have hclose : isWordChar ')' = false := isWordChar_of_mark ')' (by decide)
  have hcomma : isWordChar ',' = false := isWordChar_of_mark ',' (by decide)
  have hspace : isWordChar ' ' = false := isWordChar_of_isBlank (by decide)
  simp only [List.mem_cons, List.not_mem_nil, or_false] at h
  rcases h with rfl | rfl | rfl | rfl
  · exact ⟨⟨by decide, ⟨'(', [], rfl, rfl, hopen, by decide⟩, by simp [leavesWord, hopen]⟩, by simp [words_cons, hopen]⟩
  · exact ⟨⟨by decide, ⟨',', [' '], rfl, rfl, hcomma, fun _ => ⟨by simp, by simp [endsWord, hspace]⟩⟩,
      by simp [leavesWord, hspace]⟩, by simp [words_cons, hcomma, hspace]⟩
  · exact ⟨⟨by decide, ⟨')', [], rfl, rfl, hclose, by decide⟩, by simp [leavesWord, hclose]⟩,
      by simp [words_cons, hclose]⟩
  · exact ⟨⟨by decide, ⟨'(', [')'], rfl, rfl, hopen, by decide⟩, by simp [leavesWord, hclose]⟩,
      by simp [words_cons, hopen, hclose]⟩

end Node

namespace CompilationUnit
open Node Text

section Calls
variable {p : Printer} {c : CompilationUnit} {q : Span} {callee : Node} {args : List Node}

theorem worded_callRow (hwords : ∀ a ∈ callee :: args, a.isWord = true) :
    ∀ cell ∈ (callRow callee args).cells, cell.Worded ∧ cell.gap.words = [] := by
  intro cell hcell
  obtain ⟨hmem, htext, hgap⟩ := mem_callRow hcell
  obtain ⟨hparting, hnone⟩ := parting_callRow hgap
  obtain ⟨-, hword⟩ := isWord_iff.mp (hwords cell.node hmem)
  exact ⟨⟨htext, htext ▸ hword, hparting⟩, hnone⟩

/-- What the old children of a call give to the text. With the end of the call they have the words that the call had,
and those of the transparent arguments once more. -/
theorem exists_gives (hunit : p.units.get? q.file = some c) (hkind : c.root.kind = .apply callee args)
    (hcall : c.Lettered q (callRow callee args)) (hcallee : callee.layoutSpan.isSome = true)
    (hwords : ∀ a ∈ callee :: args, a.isWord = true) : ∃ fills : List (Node × Text),
      fills.map (·.1) = callee :: args ∧ (∀ x ∈ fills, p.Brings c x) ∧
      ((fills.flatMap fun x => x.2.words) ++ (Gap.splitTrailing (callRow callee args).anchored.lastGap).2.words).Perm
        ((callee :: args).map inscription ++ (args.filter (·.layoutSpan.isNone)).map inscription) := by
  have hworded := worded_callRow hwords
  have hnodes : (callRow callee args).cells.map (·.node) = callee :: args := by
    rw [← hcall.children, children_apply hkind]
  obtain ⟨hhead, -, -, hshares⟩ := Row.words_anchored c.root rfl rfl hcallee hworded
  have hgiven : (Row.shares c.root [] none (callRow callee args).anchored.cells).map (·.1) =
      (callee :: args).filter (·.layoutSpan.isSome) := by
    rw [Row.map_fst_shares, ← hnodes]
    exact Row.node_anchorCells _
  obtain ⟨fills, hfills, hkept, hothers⟩ := Row.exists_fills inscription hgiven
  refine ⟨fills, hfills, fun x hx => ?_, ?_⟩
  · cases hsome : x.1.layoutSpan.isSome with
    | true =>
      have hmem : x ∈ fills.filter (·.1.layoutSpan.isSome) := List.mem_filter.mpr ⟨hx, hsome⟩
      rw [hkept, ← hhead] at hmem
      exact Printer.brings_share hcall.laid hcall.sound.distinct hunit hmem
    | false =>
      have hmem : x ∈ fills.filter (!·.1.layoutSpan.isSome) := List.mem_filter.mpr ⟨hx, by simp [hsome]⟩
      rw [hothers] at hmem
      obtain ⟨n, hn, rfl⟩ := List.mem_map.mp hmem
      refine Printer.brings_transparent hcall hunit ?_ (by simpa using hsome) rfl
      rw [children_apply hkind]
      exact (List.mem_filter.mp hn).1
  · -- The others are the transparent arguments. Each gives its name, though the gaps hold that name already.
    have htransparent : (callee :: args).filter (!·.layoutSpan.isSome) = args.filter (·.layoutSpan.isNone) := by
      rw [List.filter_cons_of_neg (by simp [hcallee])]
      simp only [Option.not_isSome]
    have hnamed : ((fills.filter (!·.1.layoutSpan.isSome)).flatMap fun x => x.2.words) =
        (args.filter (·.layoutSpan.isNone)).map inscription := by
      rw [hothers, htransparent, List.flatMap_map, List.map_eq_flatMap]
      refine List.flatMap_congr fun n hn => ?_
      exact words_of_isWord (hwords n (List.mem_cons_of_mem _ (List.mem_filter.mp hn).1))
    have hold : ((fills.filter (·.1.layoutSpan.isSome)).flatMap fun x => x.2.words) ++
        (Gap.splitTrailing (callRow callee args).anchored.lastGap).2.words = (callee :: args).map inscription := by
      rw [hkept, hshares, ← hnodes, List.map_map]
      rfl
    have hsplit := List.filter_append_perm (fun x : Node × Text => x.1.layoutSpan.isSome) fills
    rw [← hold, ← hnamed]
    refine ((hsplit.symm.flatMap_right _).append_right _).trans ?_
    rw [List.flatMap_append, List.append_assoc, List.append_assoc]
    exact List.perm_append_comm.append_left _

end Calls

end CompilationUnit

namespace Printer
open Node Text

section Calls
variable {p : Printer} {c : CompilationUnit} {q : Span} {callee edited x : Node} {args : List Node}

/-- A call that is given a new argument is printed with the words that its old children give to the text, with the new
one behind them and the end of the call behind that. -/
theorem words_rewritten {fills : List (Node × Text)} (hunit : p.units.get? q.file = some c) (hnames : p.WritesNames)
    (hkind : c.root.kind = .apply callee args) (hcall : c.Lettered q (callRow callee args))
    (hcallee : callee.layoutSpan.isSome) (hwords : ∀ a ∈ callee :: args, a.isWord = true)
    (hedited : edited.kind = .apply callee (args ++ [x])) (hrevised : c.Revised edited) (hnew : x.span = none)
    (hx : x.isWord = true) (hfills : fills.map (·.1) = callee :: args) (hbrings : ∀ y ∈ fills, p.Brings c y) :
    ∃ t, p.rewrite? c edited = some t ∧ t.words = (fills.flatMap fun y => y.2.words) ++ [x.inscription] ++
      (Gap.splitTrailing (callRow callee args).anchored.lastGap).2.words := by
  obtain ⟨first, rest, rfl, rfl, rfl⟩ := List.map_eq_cons_iff.mp hfills
  have hname := (isWord_iff.mp hx).1
  have hchanged : edited.childrenChanged c.root = true := by
    refine childrenChanged_of_length_ne ?_
    rw [children_apply hedited, children_apply hkind]
    simp
  have hchildren : edited.children = (first :: rest ++ [(x, x.inscription)]).map (·.1) := by
    rw [children_apply hedited]
    simp
  have hall : ∀ y ∈ first :: rest ++ [(x, x.inscription)], p.Brings c y :=
    List.forall_mem_append.mpr ⟨hbrings, List.forall_mem_singleton.mpr (brings_new hnames hnew hname rfl)⟩
  have hflat : ∀ y ∈ (rest ++ [(x, x.inscription)]).map brought, y.2.OneLine := by
    refine List.forall_mem_map.mpr fun y hy hfresh => ?_
    rcases List.mem_append.mp hy with hy | hy
    · have hchild : y.1 ∈ c.root.children := by
        rw [children_apply hkind]
        exact List.mem_cons_of_mem _ (List.mem_map_of_mem hy)
      exact absurd (Option.isNone_iff_eq_none.mp hfresh) (hcall.span_child hchild)
    · rw [List.mem_singleton.mp hy, text_brought]
      exact not_mem_of_isSolid (isName_iff.mp hname).2 (by decide)
  have hplaced : first.1.span.isSome := by
    obtain ⟨s, hs⟩ := Option.isSome_iff_exists.mp hcallee
    rw [(layoutSpan_eq_some_iff.mp hs).1]
    rfl
  obtain ⟨hhead, hne, hend, -⟩ :=
    Row.words_anchored c.root rfl rfl hcallee (CompilationUnit.worded_callRow hwords)
  have hrewrite := hrevised.rewrite?_of_gives hcall hcall.laid hunit hchanged (replaced?_apply hedited) hchildren hall
    (by simp) hne
  refine ⟨_, hrewrite, ?_⟩
  rw [words_append (apart_of_endsWord hend), hhead, Gap.splitLeading_nil, List.cons_append,
    addChildren_first hplaced, words_addChildren hedited hflat, List.flatMap_map, List.nil_append]
  simp only [text_brought, List.flatMap_append, List.flatMap_cons, List.flatMap_nil, words_of_isWord hx,
    List.append_assoc, List.nil_append]

end Calls

/-- A call of words that is given one more argument, a new one, has all its children and each transparent argument
once more. So each of them stands there once only if no argument is transparent. -/
theorem transparent_arguments_twice (p : Printer) (c : CompilationUnit) (q : Span) (callee edited x : Node)
    (args : List Node) (hunit : p.units.get? q.file = some c) (hnames : p.WritesNames)
    (hkind : c.root.kind = .apply callee args) (hcall : c.Lettered q (callRow callee args))
    (hcallee : callee.layoutSpan.isSome) (hwords : ∀ a ∈ callee :: args ++ [x], a.isWord = true)
    (hedited : edited.kind = .apply callee (args ++ [x])) (hslot : edited.sameSlot c.root)
    (hsharing : Sharing edited c.root) (hnew : x.span = none) :
    c.source.text = callText callee args ∧ ∃ t, p.rewrite? c edited = some t ∧
      t.words.Perm
        ((callee :: args ++ [x]).map inscription ++ (args.filter (·.layoutSpan.isNone)).map inscription) ∧
      (t.words.Perm ((callee :: args ++ [x]).map inscription) ↔ ∀ a ∈ args, a.layoutSpan.isSome) := by
  obtain ⟨hold, hx⟩ := List.forall_mem_append.mp hwords
  have hx : x.isWord = true := hx x (List.mem_singleton_self x)
  have hrevised : c.Revised edited := CompilationUnit.revised_call hkind hedited hslot hsharing fun a ha =>
    (List.mem_append.mp ha).imp_right fun ha => by
      rw [List.mem_singleton.mp ha]
      exact ⟨hnew, (isWord_iff.mp hx).1⟩
  obtain ⟨fills, hfills, hbrings, hperm⟩ := CompilationUnit.exists_gives hunit hkind hcall hcallee hold
  obtain ⟨t, hrewrite, htext⟩ :=
    words_rewritten hunit hnames hkind hcall hcallee hold hedited hrevised hnew hx hfills hbrings
  have htwice : t.words.Perm
      ((callee :: args ++ [x]).map inscription ++ (args.filter (·.layoutSpan.isNone)).map inscription) := by
    rw [htext, List.map_append, List.append_assoc, List.append_assoc]
    refine (List.perm_append_comm.append_left _).trans ?_
    rw [← List.append_assoc]
    refine (hperm.append_right _).trans ?_
    rw [List.append_assoc]
    exact List.perm_append_comm.append_left _
  refine ⟨hcall.text.trans text_callRow, t, hrewrite, htwice, ?_⟩
  -- There are as many words too many as there are transparent arguments.
  constructor
  · intro honce a ha
    have hlength := htwice.symm.trans honce |>.length_eq
    rw [List.length_append, List.length_map, Nat.add_eq_left, List.length_map, List.length_eq_zero_iff,
      List.filter_eq_nil_iff] at hlength
    exact Option.isSome_iff_ne_none.mpr fun hnone => hlength a ha (by rw [hnone]; rfl)
  · intro hplaces
    have hnil : args.filter (·.layoutSpan.isNone) = [] := by
      refine List.filter_eq_nil_iff.mpr fun a ha => ?_
      rw [Option.isNone_iff_eq_none]
      exact Option.isSome_iff_ne_none.mp (hplaces a ha)
    rwa [hnil, List.map_nil, List.append_nil] at htwice

/-- A transparent argument. -/
def fadedArgument : Node :=
  .mk (.built 2) (some { Span.range "A.scala" 5 6 with transparent := true }) (.ident "b")

/-- The call `f(a, b)`, whose second argument is transparent. -/
def fadedCall : CompilationUnit where
  source := { name := "A.scala", text := "f(a, b)".toList }
  root := Call.callOf 3 7 [Node.letter 1 "a" 2, fadedArgument]

theorem fadedCall_lettered : fadedCall.Lettered (.range "A.scala" 0 7)
    (callRow (Node.letter 0 "f" 0) [Node.letter 1 "a" 2, fadedArgument]) where
  place := rfl
  whole := ⟨rfl, rfl⟩
  children := rfl
  text := rfl
  stands := rfl
  names := by decide
  file := by decide
  single := by
    have hpreorder : fadedCall.root.preorder =
        [fadedCall.root, Node.letter 0 "f" 0, Node.letter 1 "a" 2, fadedArgument] := by
      simp [preorder_eq, fadedCall, fadedArgument, Call.callOf, Node.letter, children]
    rw [Single, hpreorder]
    simp [fadedCall, fadedArgument, Call.callOf, Node.letter, identity]

/-- With a new argument `x`, it has the transparent one twice. -/
theorem faded_argument_twice :
    let c := fadedCall
    let f := Node.letter 0 "f" 0
    let a := Node.letter 1 "a" 2
    let x := Call.newName 5 "x"
    let edited := Call.callOf 4 7 [a, fadedArgument, x]
    c.Lettered (.range "A.scala" 0 7) (callRow f [a, fadedArgument]) ∧ Sharing edited c.root ∧
      c.source.text = "f(a, b)".toList ∧ ∃ t, (plain c).rewrite? c edited = some t ∧
      t.words.Perm [['f'], ['a'], ['b'], ['x'], ['b']] := by
  intro c f a x edited
  have hsharing : Sharing edited c.root := by
    have hchildren : edited.children = c.root.children ++ [x] := rfl
    refine fadedCall_lettered.sharing (by decide) ?_
    rw [hchildren]
    refine List.forall_mem_append.mpr ⟨fun d hd => .inl hd, ?_⟩
    exact List.forall_mem_singleton.mpr (.inr (by decide))
  obtain ⟨htext, t, hrewrite, htwice, -⟩ := transparent_arguments_twice (plain c) c (.range "A.scala" 0 7) f edited x
    [a, fadedArgument] rfl (writesNames_of_pretty fun _ => rfl) rfl fadedCall_lettered rfl (by decide) rfl rfl hsharing
    rfl
  exact ⟨fadedCall_lettered, hsharing, htext, t, hrewrite, htwice⟩

set_option maxRecDepth 2000 in
/-- The call becomes `f(a, b, x b)`, and not one with each of its children once. -/
theorem faded_argument_again :
    let c := fadedCall
    let f := Node.letter 0 "f" 0
    let a := Node.letter 1 "a" 2
    let x := Call.newName 5 "x"
    let edited := Call.callOf 4 7 [a, fadedArgument, x]
    c.Lettered (.range "A.scala" 0 7) (callRow f [a, fadedArgument]) ∧
      (plain c).rewrite? c edited = some "f(a, b, x b)".toList ∧
      ¬(words "f(a, b, x b)".toList).Perm ([f, a, fadedArgument, x].map inscription) := by
  intro c f a x edited
  exact ⟨fadedCall_lettered, by cbv, by decide +kernel⟩

end Printer

end Reprint
