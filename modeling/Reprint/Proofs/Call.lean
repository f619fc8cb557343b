import Reprint.Proofs.Discovery
import Reprint.Proofs.Joining
import Reprint.Proofs.Lines
import Reprint.Proofs.Punctuation
import Reprint.Proofs.Runs
import Reprint.Proofs.Surroundings
/-!
Calls with other arguments. Where the arguments of a call were removed, moved or joined by new ones, the call is put
together again: the callee with the opening parenthesis, each argument with the blanks and comments around it, and
the closing parenthesis. `Call` says which calls these are, `Edited` what may become of them. Main statement: such a
call makes one region, and printing it never fails and leaves no diagnostics (`Edited.printRegion`).
-/

namespace Reprint

namespace Node

section Apply
variable {n b callee callee' : Node} {args args' : List Node}

theorem children_apply (h : n.kind = .apply callee args) : n.children = callee :: args := by
  obtain ⟨i, s, k⟩ := n
  cases h
  rfl

theorem contentDiffers_apply (h : n.kind = .apply callee args) (hb : b.kind = .apply callee' args') :
    n.contentDiffers b = false := by
  have htag : n.tag = b.tag := by rw [tag, tag, h, hb]; rfl
  have hdef : n.isDefinition = false := by rw [isDefinition, tag, h]; rfl
  unfold contentDiffers
  rw [h, hb]
  simp [htag, hdef]

theorem replaced?_apply (h : n.kind = .apply callee args) : n.replaced? b = none := by
  have hseq : n.isSequence = false := by rw [isSequence, tag, h]; rfl
  rw [replaced?, hseq]
  rfl

end Apply

end Node

/-- A text that begins with neither a blank nor a comma. -/
def Text.Leads (t : Text) : Prop := ∃ c r, t = c :: r ∧ isBlank c = false ∧ c ≠ ','

/-- A call of a base tree. Besides blanks and comments there is one parenthesis between the callee and the first
argument, one comma between every two arguments, and one parenthesis behind the last one. -/
structure Call (u : Units) where
  unit : CompilationUnit
  node : Node
  span : Span
  callee : Node
  args : List Node
  known : u.get? span.file = some unit
  placed : unit.root.WellPlaced
  single : unit.root.Single
  fits : unit.Fits
  mem : node ∈ unit.root.preorder
  place : node.layoutSpan = some span
  kind : node.kind = .apply callee args
  hasArgs : args ≠ []
  anchored : ∀ c ∈ node.children, c.layoutSpan.isSome
  begins : callee.start? = some span.start
  simple : callee.isDefinition = false ∧ callee.tag ≠ .modifierToken
  /-- The callee leaves no comment open. -/
  calleeText : ∀ s, callee.span = some s → ∃ x, unit.source.slice s.start s.stop = .ok x ∧ Gap.Closed x
  argText : ∀ a ∈ args, ∀ s, a.span = some s → ∃ x, unit.source.slice s.start s.stop = .ok x ∧ x.Leads
  gaps : ∀ (i : Nat) (a b : Node) (s t : Span), node.children[i]? = some a → node.children[i + 1]? = some b →
    a.span = some s → b.span = some t →
    ∃ g, Layout.gap unit.source s.stop t.start = .ok g ∧ Gap.Only (if i = 0 then '(' else ',') g
  closing : ∀ a s, node.children.getLast? = some a → a.span = some s →
    ∃ g, Layout.gap unit.source s.stop span.stop = .ok g ∧ Gap.Only ')' g

namespace Printer

/-- A new argument: the fallback printer prints it on one line. -/
def PrintsNew (p : Printer) (a : Node) : Prop :=
  a.span = none ∧ ∃ x, p.fallback a = .ok x ∧ x.Leads ∧ '\n' ∉ x

/-- The text that a node brings along: its base text with what is around it, or else what the fallback printer
prints. -/
def broughtText (p : Printer) (n : Node) : Option Text :=
  match n.span with
  | none => (p.fallback n).toOption
  | some s => do
    let layout ← (Layout.around p.units n).toOption
    let text ← (p.sliceOf s).toOption
    return layout.leading ++ text ++ layout.trailing

end Printer

/-- The call with other arguments, base ones in any order or new ones, such that discovery takes notice. -/
structure Call.Edited {p : Printer} (call : Call p.units) (n : Node) (args : List Node) : Prop where
  kind : n.kind = .apply call.callee args
  slot : n.sameSlot call.node
  other : n.same call.node = false
  changed : n.childrenChanged call.node = true
  each : ∀ a ∈ args, a ∈ call.args ∨ (p.PrintsNew a ∧ call.callee.same a = false)

namespace Call
open Node

section Site
variable {u : Units} (call : Call u)

theorem children : call.node.children = call.callee :: call.args := children_apply call.kind

theorem span_node : call.node.span = some call.span := (layoutSpan_eq_some_iff.mp call.place).1

theorem tree : u.tree? call.span.file = some call.unit.root := by rw [Units.tree?, call.known, Option.map_some]

theorem mem_child {a : Node} (ha : a ∈ call.node.children) : a ∈ call.unit.root.preorder :=
  mem_preorder_trans call.mem (mem_preorder_child ha)

theorem anchors : Layout.anchors call.node = call.node.children :=
  List.filter_eq_self.mpr call.anchored

/-- A child of the call stands somewhere in the file of the call. -/
theorem child_place {a : Node} (ha : a ∈ call.node.children) :
    ∃ s, a.span = some s ∧ a.layoutSpan = some s ∧ s.file = call.span.file := by
  obtain ⟨s, hs⟩ := Option.isSome_iff_exists.mp (call.anchored a ha)
  have hspan := (layoutSpan_eq_some_iff.mp hs).1
  have hin := call.placed.within _ call.mem a (mem_preorder_child ha) _ s call.span_node hspan
  exact ⟨s, hspan, hs, (Span.includes_iff.mp hin).1.symm⟩

theorem parent {a : Node} (ha : a ∈ call.node.children) : u.parent? a = some call.node := by
  obtain ⟨s, hs, -, hfile⟩ := call.child_place ha
  exact Units.parent?_of_child (by rw [hfile, call.tree]) (call.placed.within.encloses_child ha hs)
    call.single.once call.mem ha hs

theorem counterpart_child {a : Node} (ha : a ∈ call.node.children) : u.counterpart? a = some a := by
  obtain ⟨s, hs, -, hfile⟩ := call.child_place ha
  exact Units.counterpart?_self call.placed.within call.placed.distinct (call.mem_child ha) hs
    (by rw [hfile, call.tree])

theorem gap_ahead {s : Span} (hs : call.callee.span = some s) :
    Layout.gap call.unit.source call.span.start s.start = .ok [] := by
  have hstart : s.start = call.span.start := by
    have := call.begins
    rw [start?, hs] at this
    exact Option.some.inj this
  rw [hstart, Layout.gap, Source.gap, if_neg (Nat.lt_irrefl _)]

/-- What a child gets of the gaps to its neighbours: the child `a` at index `i`, which stands at `s`. -/
structure Shares (i : Nat) (a : Node) (s : Span) (l : Layout) : Prop where
  first : i = 0 → l.leading = []
  leading : ∀ k b t g, i = k + 1 → call.node.children[k]? = some b → b.span = some t →
    Layout.gap call.unit.source t.stop s.start = .ok g →
    l.leading = (Gap.splitBetween g { parent := call.node, left := b, right := a }).2
  trailing : ∀ b t g, call.node.children[i + 1]? = some b → b.span = some t →
    Layout.gap call.unit.source s.stop t.start = .ok g →
    l.trailing = (Gap.splitBetween g { parent := call.node, left := a, right := b }).1
  last : ∀ g, call.node.children[i + 1]? = none → Layout.gap call.unit.source s.stop call.span.stop = .ok g →
    l.trailing = (Gap.splitTrailing g).1

theorem around_child {i : Nat} {a : Node} {s : Span} (hi : call.node.children[i]? = some a) (hs : a.span = some s) :
    ∃ l, Layout.around u a = .ok l ∧ call.Shares i a s l := by
  have ha : a ∈ call.node.children := List.mem_of_getElem? hi
  obtain ⟨s', hs', hlayout, hfile⟩ := call.child_place ha
  cases hs.symm.trans hs'
  have hunit : u.get? s.file = some call.unit := by rw [hfile, call.known]
  obtain ⟨l, hl⟩ := Layout.within_ok call.fits call.mem call.span_node (call.mem_child ha) hs
  obtain ⟨hleading, htrailing⟩ := Layout.within_inv (i := i) hl (by rw [call.anchors]; exact hi) fun j m hj hm =>
    (call.single.sub call.mem).children hj (by rwa [call.anchors] at hm) hi
  rw [call.anchors] at hleading htrailing
  refine ⟨l, (Layout.around_eq_within hunit hlayout (call.parent ha) call.place).trans hl, ?_, ?_, ?_, ?_⟩
  · rintro rfl
    rw [call.children] at hi
    cases hi
    rw [if_pos rfl, Layout.leadingOf, call.gap_ahead hs] at hleading
    have hshare : (Gap.splitLeading call.node []).2 = l.leading := Except.ok.inj hleading
    rw [← hshare, Gap.splitLeading_nil]
  · rintro k b t g rfl hb ht hg
    rw [if_neg (Nat.succ_ne_zero k), Nat.add_sub_cancel, hb, Layout.leadingOf, ht, Option.map_some, Option.getD_some,
      hg] at hleading
    exact (Except.ok.inj hleading).symm
  · intro b t g hb ht hg
    rw [hb, Layout.trailingOf, ht, Option.map_some, Option.getD_some, hg] at htrailing
    exact (Except.ok.inj htrailing).symm
  · intro g hnone hg
    rw [hnone, Layout.trailingOf, hg] at htrailing
    exact (Except.ok.inj htrailing).symm

/-- The junctions behind the callee are divided by rules alone. -/
theorem junction_index {left right : Node} (h : left.isDefinition = false ∧ left.tag ≠ .modifierToken) (code : Text) :
    Gap.Junction.index? { parent := call.node, left, right } code = none := by
  have hcases : Gap.Junction.opensCases { parent := call.node, left, right } = false := by
    rw [Gap.Junction.opensCases, call.kind]
  have hparams : Gap.Junction.endsParameters { parent := call.node, left, right } = false := by
    rw [Gap.Junction.endsParameters, call.kind]
  simp [Gap.Junction.index?, hcases, hparams, h]

/-- The callee takes the opening parenthesis with it. -/
theorem around_callee : ∃ l, Layout.around u call.callee = .ok l ∧ l.leading = [] ∧
    (∃ x, l.trailing = x ++ ['(']) ∧ Gap.Closed l.trailing := by
  have hcallee : call.node.children[0]? = some call.callee := by rw [call.children]; rfl
  obtain ⟨s, hs, -, -⟩ := call.child_place (List.mem_of_getElem? hcallee)
  obtain ⟨first, rest, hargs⟩ := List.exists_cons_of_ne_nil call.hasArgs
  have hfirst : call.node.children[0 + 1]? = some first := by rw [call.children, hargs]; rfl
  obtain ⟨t, ht, -, -⟩ := call.child_place (List.mem_of_getElem? hfirst)
  obtain ⟨g, hg, honly⟩ := call.gaps 0 _ _ s t hcallee hfirst hs ht
  obtain ⟨l, hl, hshares⟩ := call.around_child hcallee hs
  obtain ⟨hparen, hclosed, -⟩ := Gap.splitBetween_opening honly (call.junction_index call.simple _)
  refine ⟨l, hl, hshares.first rfl, ?_⟩
  rw [hshares.trailing first t g hfirst ht hg]
  exact ⟨hparen, hclosed⟩

/-- Blanks and comments lead an argument. -/
theorem around_arg {a : Node} (ha : a ∈ call.args) :
    ∃ l, Layout.around u a = .ok l ∧ Gap.Padding l.leading := by
  obtain ⟨i, hi⟩ := List.getElem?_of_mem ha
  have hi : call.node.children[i + 1]? = some a := by rw [call.children]; exact hi
  obtain ⟨s, hs, -, -⟩ := call.child_place (List.mem_of_getElem? hi)
  obtain ⟨b, hb⟩ : ∃ b, call.node.children[i]? = some b := by
    obtain ⟨hlt, -⟩ := List.getElem?_eq_some_iff.mp hi
    exact ⟨_, List.getElem?_eq_getElem (Nat.lt_of_succ_lt hlt)⟩
  obtain ⟨t, ht, -, -⟩ := call.child_place (List.mem_of_getElem? hb)
  obtain ⟨g, hg, honly⟩ := call.gaps i b a t s hb hi ht hs
  obtain ⟨l, hl, hshares⟩ := call.around_child hi hs
  refine ⟨l, hl, ?_⟩
  rw [hshares.leading i b t g rfl hb ht hg]
  by_cases hzero : i = 0
  · subst hzero
    rw [call.children] at hb
    cases hb
    exact (Gap.splitBetween_opening honly (call.junction_index call.simple _)).2.2
  · rw [if_neg hzero] at honly
    exact Gap.padding_rightOf honly (Gap.isCut_indexBetween ..)

/-- What is left to the call itself: nothing ahead of the callee, and the closing parenthesis. -/
theorem affixes : ∃ suffix,
    Layout.affixes? call.unit.source call.node = .ok (some { leading := [], trailing := suffix }) ∧
      Gap.Only ')' suffix := by
  have hne : call.node.children ≠ [] := by rw [call.children]; simp
  obtain ⟨init, last, hlast⟩ : ∃ init last, call.node.children = init ++ [last] :=
    ⟨_, _, (List.dropLast_concat_getLast hne).symm⟩
  obtain ⟨s, hs, hslayout, -⟩ := call.child_place (a := call.callee) (by rw [call.children]; simp)
  obtain ⟨t, ht, htlayout, -⟩ := call.child_place (a := last) (by rw [hlast]; simp)
  have hfirst : (call.node.children.filterMap (·.layoutSpan)).head? = some s := by
    rw [call.children, List.filterMap_cons_some hslayout, List.head?_cons]
  have hend : (call.node.children.filterMap (·.layoutSpan)).getLast? = some t := by
    rw [hlast, List.filterMap_append, List.filterMap_cons_some htlayout, List.filterMap_nil, List.getLast?_concat]
  obtain ⟨g, hg, honly⟩ := call.closing last t (by rw [hlast, List.getLast?_concat]) ht
  refine ⟨(Gap.splitTrailing g).2, ?_, Gap.only_splitTrailing honly⟩
  simp only [Layout.affixes?, call.place, hfirst, hend, call.gap_ahead hs, hg]
  show Except.ok (some (Layout.mk (Gap.splitLeading call.node []).1 (Gap.splitTrailing g).2)) = _
  rw [Gap.splitLeading_nil]

end Site

/-! ### Printing the parts of a call -/

section Parts
variable {p : Printer} (call : Call p.units)

theorem sliceOf_child {a : Node} {s : Span} {x : Text} (ha : a ∈ call.node.children) (hs : a.span = some s)
    (hx : call.unit.source.slice s.start s.stop = .ok x) : p.sliceOf s = .ok x := by
  obtain ⟨s', hs', -, hfile⟩ := call.child_place ha
  cases hs.symm.trans hs'
  have hsource : p.units.source? s.file = some call.unit.source := by
    rw [Units.source?, hfile, call.known, Option.map_some]
  have hsourceOf : p.sourceOf s = .ok call.unit.source := by
    rw [Printer.sourceOf, hsource]
  rw [Printer.sliceOf, hsourceOf]
  dsimp only [bind, Except.bind]
  rw [hx]
  rfl

theorem broughtText_child {a : Node} {s : Span} {x : Text} {l : Layout} (ha : a ∈ call.node.children)
    (hs : a.span = some s) (hl : Layout.around p.units a = .ok l)
    (hx : call.unit.source.slice s.start s.stop = .ok x) :
    p.broughtText a = some (l.leading ++ x ++ l.trailing) := by
  simp only [Printer.broughtText, hs, hl, call.sliceOf_child ha hs hx]
  rfl

/-- A child of the call is printed with its base text and what is around it. -/
theorem printIn_child {a : Node} {s : Span} {x : Text} {l : Layout} (changed : NodeSet) (ds : List Diagnostic)
    (ha : a ∈ call.node.children) (hs : a.span = some s) (hl : Layout.around p.units a = .ok l)
    (hx : call.unit.source.slice s.start s.stop = .ok x) :
    Yields (p.printIn changed (some call.node) a) ds
      { leading := l.leading, center := x, trailing := l.trailing } ds := by
  have hpristine : a.isPristine changed a = true := a.isPristine_self changed
  have hstays : p.relocate { leading := l.leading, center := x, trailing := l.trailing } a (some call.node) =
      .ok { leading := l.leading, center := x, trailing := l.trailing } := by
    simp only [Printer.relocate, call.parent ha, same_refl, Bool.true_or, if_true]
  rw [Printer.printIn]
  simp only [call.counterpart_child ha, hs, hpristine, if_true]
  exact Yields.bind_iff.mpr ⟨l, ds, Yields.lift_iff.mpr ⟨hl, rfl⟩, Yields.bind_iff.mpr ⟨x, ds,
    Yields.lift_iff.mpr ⟨call.sliceOf_child ha hs hx, rfl⟩, Yields.lift_iff.mpr ⟨hstays, rfl⟩⟩⟩

/-- A new argument is printed by the fallback printer. -/
theorem printIn_new {a : Node} {x : Text} (changed : NodeSet) (context : Option Node) (ds : List Diagnostic)
    (ha : a.span = none) (hx : p.fallback a = .ok x) :
    Yields (p.printIn changed context a) ds { center := x, fresh := true } ds := by
  have hcp : p.units.counterpart? a = none := Units.counterpart?_unplaced ha
  rw [Printer.printIn]
  simp only [hcp]
  refine Yields.bind_iff.mpr ⟨x, ds, ?_, Yields.pure_iff.mpr ⟨rfl, rfl⟩⟩
  rw [Printer.printNew, hx]
  exact Yields.pure_iff.mpr ⟨rfl, rfl⟩

end Parts

end Call

/-! ### Putting the parts together -/

/-- A text on one line has nothing to indent. -/
theorem Text.indentLines_of_not_mem {t : Text} (h : '\n' ∉ t) (indent : Text) : t.indentLines indent = t := by
  rw [indentLines, reindent, lines, splitOn_of_not_mem h]
  simp

/-- A fragment that stands on one line if it was printed from scratch. -/
def Fragment.OneLine (f : Fragment) : Prop := f.fresh = true → '\n' ∉ f.text

namespace Printer
open Separator

section Assembled
variable {n callee : Node} {args : List Node} {indent lineBreak : Text}

theorem addChild_eq {previous child : Node} {out : Text} {f : Fragment} {s : String} (hf : f.OneLine)
    (hs : Separator.between n previous child = .token s) :
    addChild n indent lineBreak (some previous) out child f =
      out ++ (glue out s.toList f.text).1 ++ (glue out s.toList f.text).2 := by
  have hsublist : ∀ c ∈ (glue out s.toList f.text).2, c ∈ f.text := by
    intro c hc
    rcases (glue_cases out s.toList f.text).2 with h | h
    · exact h ▸ hc
    · exact (List.dropWhile_sublist _).subset (h ▸ hc)
  rw [addChild, expected?, hs]
  show out ++ (glue out s.toList f.text).1 ++
    (if f.fresh = true then Text.indentLines (glue out s.toList f.text).2 _ else (glue out s.toList f.text).2) = _
  split
  · rw [Text.indentLines_of_not_mem fun h => hf ‹_› (hsublist _ h)]
  · rfl

/-- Behind another argument the printer looks for a comma. -/
theorem addChildren_follow (hn : n.kind = .apply callee args) {previous : Node} {out : Text}
    {l : List (Node × Fragment)} (hprevious : callee.same previous = false)
    (hl : ∀ x ∈ l, callee.same x.1 = false ∧ x.2.OneLine) :
    addChildren n indent lineBreak (some previous) out l = out ++ joined (follow out (l.map fun x => x.2.text)) := by
  induction l generalizing previous out with
  | nil => simp [addChildren, follow, joined]
  | cons x l ih =>
    obtain ⟨child, f⟩ := x
    obtain ⟨hchild, hf⟩ := hl _ (List.mem_cons_self ..)
    have hbetween : Separator.between n previous child = .token ", " := by
      rw [between, hn]
      simp [hprevious]
    rw [addChildren, addChild_eq hf hbetween, ih hchild fun x hx => hl x (List.mem_cons_of_mem _ hx)]
    have hright : (glue out ", ".toList f.text).2 = f.text := by rw [glue_comma]
    rw [hright, List.map_cons, follow]
    simp only [joined, List.flatMap_cons, List.append_assoc]

/-- Behind the callee the printer finds the parenthesis. -/
theorem addChildren_parts (hn : n.kind = .apply callee args) {x : Text} {l : List (Node × Fragment)}
    (hl : ∀ x ∈ l, callee.same x.1 = false ∧ x.2.OneLine) :
    addChildren n indent lineBreak (some callee) (x ++ ['(']) l =
      x ++ ['('] ++ joined (parts (x ++ ['(']) (unindented (l.map fun x => x.2.text))) := by
  cases l with
  | nil => simp [addChildren, parts, unindented, joined]
  | cons y l =>
    obtain ⟨child, f⟩ := y
    obtain ⟨hchild, hf⟩ := hl _ (List.mem_cons_self ..)
    have hbetween : Separator.between n callee child = .token "(" := by
      rw [between, hn]
      simp
    rw [addChildren, addChild_eq hf hbetween, glue_paren,
      addChildren_follow hn hchild fun x hx => hl x (List.mem_cons_of_mem _ hx), List.append_nil]
    simp only [List.map_cons, unindented, parts, joined, List.flatMap_cons, List.nil_append, List.append_assoc]

end Assembled

end Printer

namespace Call
open Node Separator

section Edit
variable {p : Printer} {call : Call p.units} {n : Node} {args : List Node}

/-! ### The region of a call -/

theorem Edited.counterpart (h : call.Edited n args) : p.units.counterpart? n = some call.node :=
  Units.counterpart?_of_sameSlot call.placed.within call.placed.distinct call.mem call.span_node call.tree h.slot

theorem Edited.contentDiffers (h : call.Edited n args) : n.contentDiffers call.node = false :=
  contentDiffers_apply h.kind call.kind

/-- Other arguments make the call a region. -/
theorem Edited.search (h : call.Edited n args) : Region.search p.units n = [.of p.units n call.span] := by
  have hreplaced : n.replaced? call.node = none := replaced?_apply h.kind
  rw [Region.search_eq, h.counterpart]
  simp only [h.other, call.span_node, h.contentDiffers, h.changed, hreplaced, Bool.false_eq_true, if_false, if_true]

theorem Edited.mem_changed (h : call.Edited n args) :
    (Region.of p.units n call.span).changed.contains n = true := by
  refine NodeSet.contains_ofList ?_
  rw [changedNodes, h.counterpart]
  simp [h.other, h.changed]

/-! ### The text of a call -/

/-- What an argument gives to the text of the call. -/
theorem Edited.printed (h : call.Edited n args) {a : Node} (ha : a ∈ args) (changed : NodeSet) :
    ∃ f, (∀ ds, Yields (p.printIn changed (some call.node) a) ds f ds) ∧ p.broughtText a = some f.text ∧
      f.OneLine ∧ Filled f.text ∧ call.callee.same a = false := by
  rcases h.each a ha with hkept | ⟨⟨hspan, x, hx, ⟨c, r, rfl, hblank, hcomma⟩, hflat⟩, hcallee⟩
  · have hchild : a ∈ call.node.children := by rw [call.children]; exact List.mem_cons_of_mem _ hkept
    obtain ⟨s, hs, -, -⟩ := call.child_place hchild
    obtain ⟨l, hl, hpad⟩ := call.around_arg hkept
    obtain ⟨x, hx, c, r, rfl, hblank, hcomma⟩ := call.argText a hkept s hs
    refine ⟨_, fun ds => call.printIn_child changed ds hchild hs hl hx, call.broughtText_child hchild hs hl hx,
      fun hfresh => (by cases hfresh), ?_, ?_⟩
    · obtain ⟨d, r', htrim, hd⟩ := hpad.trimStart (x := r ++ l.trailing) hblank
      refine ⟨d, r', ?_, ?_⟩
      · rw [← htrim, Fragment.text]
        simp
      · rcases hd with rfl | rfl
        · decide
        · exact hcomma
    · obtain ⟨i, hi⟩ := List.getElem?_of_mem hkept
      have hi : call.node.children[i + 1]? = some a := by rw [call.children]; exact hi
      have hzero : call.node.children[0]? = some call.callee := by rw [call.children]; rfl
      exact (call.single.sub call.mem).children (Nat.succ_pos i) hzero hi
  · refine ⟨_, fun ds => printIn_new changed _ ds hspan hx, ?_, ?_, ?_, hcallee⟩
    · simp only [Printer.broughtText, hspan, hx, Fragment.text]
      simp [Except.toOption]
    · intro _
      simpa [Fragment.text] using hflat
    · exact ⟨c, r, by simp [Fragment.text, Text.trimStart, hblank], hcomma⟩

/-- What all arguments give to the text of the call. -/
theorem Edited.fragments (h : call.Edited n args) (changed : NodeSet) :
    ∃ l : List (Node × Fragment),
      (∀ ds, Yields (args.mapM fun c => do return (c, ← p.printIn changed (some call.node) c)) ds l ds) ∧
      args.mapM p.broughtText = some (l.map fun x => x.2.text) ∧ l.length = args.length ∧
      ∀ x ∈ l, (call.callee.same x.1 = false ∧ x.2.OneLine) ∧ Filled x.2.text := by
  have hsub : ∀ as : List Node, (∀ a ∈ as, a ∈ args) → ∃ l : List (Node × Fragment),
      (∀ ds, Yields (as.mapM fun c => do return (c, ← p.printIn changed (some call.node) c)) ds l ds) ∧
      as.mapM p.broughtText = some (l.map fun x => x.2.text) ∧ l.length = as.length ∧
      ∀ x ∈ l, (call.callee.same x.1 = false ∧ x.2.OneLine) ∧ Filled x.2.text := by
    intro as has
    induction as with
    | nil => exact ⟨[], fun ds => Yields.mapM_nil_iff.mpr ⟨rfl, rfl⟩, rfl, rfl, by simp⟩
    | cons a as ih =>
      obtain ⟨f, hf, htext, hflat, hfilled, hcallee⟩ := h.printed (has a (List.mem_cons_self ..)) changed
      obtain ⟨l, hl, htexts, hlength, hall⟩ := ih fun b hb => has b (List.mem_cons_of_mem _ hb)
      refine ⟨(a, f) :: l, fun ds => .mapM_keyed_cons (hf ds) (hl ds), ?_,
        by rw [List.length_cons, List.length_cons, hlength], ?_⟩
      · rw [List.mapM_cons, htext, htexts]
        rfl
      · rw [List.forall_mem_cons]
        exact ⟨⟨⟨hcallee, hflat⟩, hfilled⟩, hall⟩
  exact hsub args fun _ => id

/-- The call is the callee with its parenthesis, the arguments with what the printer puts between them, and what
closes the call. -/
theorem Edited.print (h : call.Edited n args) {start suffix : Text} {fs : List (Node × Fragment)} {changed : NodeSet}
    {ds : List Diagnostic} {f : Fragment} (hn : changed.contains n = true)
    (hf : Yields (p.printIn changed (some call.node) call.callee) ds f ds) (hstart : f.text = start)
    (hfresh : f.fresh = false) (hparen : ∃ x, start = x ++ ['('])
    (hfs : Yields (args.mapM fun c => do return (c, ← p.printIn changed (some call.node) c)) ds fs ds)
    (hall : ∀ x ∈ fs, call.callee.same x.1 = false ∧ x.2.OneLine)
    (hsuffix : Layout.affixes? call.unit.source call.node = .ok (some { leading := [], trailing := suffix })) :
    ∃ l : Layout, Yields (p.print changed n) ds (.mk l.leading
      (start ++ joined (parts start (unindented (fs.map fun x => x.2.text))) ++ suffix) l.trailing false) ds := by
  obtain ⟨l, hl⟩ := Layout.around_ok call.known call.fits call.mem call.span_node
  have hpristine : n.isPristine changed call.node = false := isPristine_of_contains h.other hn
  have hsource : p.sourceOf call.span = .ok call.unit.source := by
    rw [Printer.sourceOf, Units.source?, call.known]
    rfl
  have hcenter : ∀ indent lineBreak, Printer.addChildren n indent lineBreak none [] ((call.callee, f) :: fs) =
      start ++ joined (parts start (unindented (fs.map fun x => x.2.text))) := by
    intro indent lineBreak
    obtain ⟨x, hx⟩ := hparen
    have hfirst : Printer.addChild n indent lineBreak none [] call.callee f = start := by
      rw [Printer.addChild, Printer.expected?, hfresh, ← hstart]
      rfl
    rw [Printer.addChildren, hfirst, hx, Printer.addChildren_parts h.kind hall]
  have hattach := mapM_attach n.children fun c => do return (c, ← p.printIn changed (some call.node) c)
  refine ⟨l, ?_⟩
  rw [Printer.print, Printer.printIn]
  simp only [h.counterpart, call.span_node, hpristine, hattach, children_apply h.kind, List.isEmpty_cons,
    Bool.false_eq_true, if_false]
  refine Yields.bind_iff.mpr ⟨l, ds, Yields.lift_iff.mpr ⟨hl, rfl⟩, ?_⟩
  refine Yields.bind_iff.mpr ⟨_, ds, Yields.lift_iff.mpr ⟨hsource, rfl⟩, ?_⟩
  refine Yields.bind_iff.mpr ⟨_, ds, Yields.lift_iff.mpr ⟨hsuffix, rfl⟩, ?_⟩
  refine Yields.bind_iff.mpr ⟨(call.callee, f) :: fs, ds, .mapM_keyed_cons hf hfs, ?_⟩
  refine Yields.bind_iff.mpr ⟨_, ds, Yields.pure_iff.mpr ⟨rfl, rfl⟩, ?_⟩
  rw [hcenter]
  exact Yields.lift_iff.mpr ⟨rfl, rfl⟩

theorem Edited.printRegion (h : call.Edited n args) :
    ∃ start texts suffix, p.broughtText call.callee = some start ∧ args.mapM p.broughtText = some texts ∧
      texts.length = args.length ∧
      Layout.affixes? call.unit.source call.node = .ok (some { leading := [], trailing := suffix }) ∧
      (∃ x, start = x ++ ['(']) ∧ Gap.Closed start ∧ Gap.Only ')' suffix ∧ (∀ t ∈ texts, Filled t) ∧
      ∀ ds, Yields (p.printRegion (.of p.units n call.span)) ds
        (start ++ joined (parts start (unindented texts)) ++ suffix) ds := by
  have hcallee : call.callee ∈ call.node.children := by rw [call.children]; exact List.mem_cons_self ..
  obtain ⟨s, hs, -, -⟩ := call.child_place hcallee
  obtain ⟨l, hl, hleading, ⟨y, hy⟩, hclosed⟩ := call.around_callee
  obtain ⟨x, hx, hxclosed⟩ := call.calleeText s hs
  obtain ⟨fs, hfs, htexts, hlength, hall⟩ := h.fragments (Region.of p.units n call.span).changed
  obtain ⟨suffix, hsuffix, honly⟩ := call.affixes
  have hparen : ∃ z, x ++ l.trailing = z ++ ['('] := ⟨x ++ y, by rw [hy, List.append_assoc]⟩
  refine ⟨x ++ l.trailing, _, suffix, ?_, htexts, by rw [List.length_map, hlength], hsuffix, hparen,
    closed_append hxclosed hclosed, honly, ?_, fun ds => ?_⟩
  · rw [call.broughtText_child hcallee hs hl hx, hleading, List.nil_append]
  · intro t ht
    obtain ⟨z, hz, rfl⟩ := List.mem_map.mp ht
    exact (hall z hz).2
  · obtain ⟨l', hprint⟩ := h.print h.mem_changed (call.printIn_child _ ds hcallee hs hl hx)
      (by rw [Fragment.text, hleading, List.nil_append]) rfl hparen (hfs ds) (fun z hz => (hall z hz).1) hsuffix
    exact Yields.bind_iff.mpr ⟨_, ds, hprint, Yields.pure_iff.mpr ⟨rfl, rfl⟩⟩

end Edit

end Call

end Reprint
