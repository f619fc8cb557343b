import Mathlib
import Reprint.Proofs.Leaves
import Reprint.Proofs.Methods
/-!
List elements that are deleted from a node which was printed from scratch. Main statement: the unit can be rewritten,
and its brackets are in balance exactly if those elements are kept that bring along brackets of the list: the last
parameter of a function in parentheses, the first selector of an import in braces, and in a method those parameters
that the count of parentheses asks for (`Printer.deletion_balanced_iff`). Calls, matches and blocks stay in balance
whatever is deleted.
-/

namespace Reprint

/-- A unit whose root was printed from scratch, with its children exactly where they are written. -/
structure CompilationUnit.Printed (c : CompilationUnit) (q : Span) : Prop where
  text : c.root.pretty {} = .ok c.source.text
  place : c.root.layoutSpan = some q
  start : q.start = 0
  stop : q.stop = c.source.text.size
  sits : ∃ r, c.root.row? = some r ∧ Row.sits r.head.size r.cells = true

namespace Node
open Text Row

/-- Whether a node that loses the list elements which are not kept keeps its brackets in balance. -/
def keepsBrackets (keep : Node → Bool) (n : Node) : Bool :=
  match n.kind with
  | .lambda params _ => isBareParam params || params.getLast?.all keep
  | .importDecl _ selectors => isBareSelector selectors || selectors.head?.all keep
  | .methodDef _ _ _ vparamss tpt rhs => Parens.settled (tpt.isSome || rhs.isSome) (kept keep vparamss)
  | _ => true

section Thinned
variable {n : Node} {r : Row} {i : Identity} {keep : Node → Bool} {lineBreak : Text}

/-- What is printed for a node that has lost list elements. -/
theorem balancedIff_thinned (hlineBreak : brackets lineBreak = []) (hsimple : n.isSimple = true)
    (hids : (n.children.map identity).Nodup) (hi : i ≠ n.identity) (hfresh : ∀ m ∈ n.children, ∀ q, m.identity ≠ .part i q)
    (hrow : n.row? = some r) (hdel : n.kind.thinned keep ≠ n.kind) :
    BalancedIff n r (n.thinned i keep) keep lineBreak (n.keepsBrackets keep) := by
  obtain ⟨o, s, k⟩ := n
  cases k with
  | apply callee args =>
    exact balancedIff_apply hsimple hids hi (fun h => hdel (congrArg (Kind.apply callee) h)) hrow
  | methodDef mods name tparams vparamss tpt rhs =>
    exact balancedIff_methodDef hsimple hids hfresh hi
      (fun h => hdel (congrArg (Kind.methodDef mods name tparams · tpt rhs) h)) hrow
  | lambda params body => exact balancedIff_lambda hsimple hi (fun h => hdel (congrArg (Kind.lambda · body) h)) hrow
  | importDecl expr selectors =>
    exact balancedIff_importDecl hsimple hi (fun h => hdel (congrArg (Kind.importDecl expr) h)) hrow
  | matchExpr selector cases =>
    exact balancedIff_matchExpr hlineBreak hsimple hids hi (fun h => hdel (congrArg (Kind.matchExpr selector) h)) hrow
  | block stats => exact balancedIff_block hlineBreak hsimple hi (fun h => hdel (congrArg Kind.block h)) hrow
  | _ => cases hrow

/-- Only a block can lose all its children. -/
theorem block_of_children_nil (hrow : n.row? = some r) (h : (n.thinned i keep).children = []) :
    n.thinned i keep = mk i n.span (.block []) ∧ n.keepsBrackets keep = true := by
  obtain ⟨o, s, k⟩ := n
  cases k with
  | apply callee args => cases h
  | methodDef mods name tparams vparamss tpt rhs =>
    rw [row?] at hrow
    cases hspan : name.span with
    | none => rw [hspan] at hrow; cases hrow
    | some place => simp [thinned, Kind.thinned, kind, children, nameTokens, hspan] at h
  | lambda params body => simp [thinned, Kind.thinned, kind, children] at h
  | importDecl expr selectors => cases h
  | matchExpr selector cases => cases h
  | block stats => exact ⟨congrArg (fun l => mk i s (.block l)) h, rfl⟩
  | _ => cases hrow

/-- A node that has lost nothing keeps its brackets. -/
theorem keepsBrackets_of_unthinned (h : n.kind.thinned keep = n.kind) : n.keepsBrackets keep = true := by
  have hall : ∀ {l : List Node}, l.filter keep = l → ∀ a ∈ l, keep a = true := fun h => List.filter_eq_self.mp h
  obtain ⟨o, s, k⟩ := n
  cases k with
  | methodDef mods name tparams vparamss tpt rhs =>
    injection h with _ _ _ h
    refine Parens.settled_of_last (List.forall_mem_map.mpr fun ps hps => ?_)
    have hps : ps.filter keep = ps := List.map_inj_left.mp (h.trans (List.map_id _).symm) ps hps
    cases hlast : ps.getLast? with
    | none => rw [List.getLast?_map, hlast]; rfl
    | some a => rw [List.getLast?_map, hlast]; exact hall hps a (List.mem_of_getLast? hlast)
  | lambda params body =>
    injection h with h
    refine Bool.or_eq_true_iff.mpr (.inr ?_)
    cases hlast : params.getLast? with
    | none => rfl
    | some a => exact hall h a (List.mem_of_getLast? hlast)
  | importDecl expr selectors =>
    injection h with _ h
    refine Bool.or_eq_true_iff.mpr (.inr ?_)
    cases hfirst : selectors.head? with
    | none => rfl
    | some a => exact hall h a (List.mem_of_head? hfirst)
  | _ => rfl

/-- A node that has lost nothing is the same in content, and has its own children, with tokens of the new node. -/
theorem agrees_unthinned (hsimple : n.isSimple = true) (hrow : n.row? = some r) (h : n.kind.thinned keep = n.kind) :
    (n.thinned i keep).contentDiffers n = false ∧ (n.thinned i keep).children = n.children.map (renewed i) := by
  obtain ⟨o, s, k⟩ := n
  have hthinned : (mk o s k).thinned i keep = mk i s k := congrArg (mk i s) h
  rw [hthinned]
  obtain ⟨-, hslots⟩ := isSimple_iff.mp hsimple
  have hself : ∀ {l : List Node}, (∀ a ∈ l, a ∈ k.slots) → l.map (renewed i) = l := fun hl =>
    (List.map_congr_left fun a ha => renewed_of_isSimple (hslots a (hl a ha))).trans (List.map_id _)
  cases k with
  | apply callee args => exact ⟨rfl, (hself fun a ha => ha).symm⟩
  | methodDef mods name tparams vparamss tpt rhs =>
    have htypes : tparams.map (renewed i) = tparams := hself fun a ha => by simp [Kind.slots, ha]
    have hparams : vparamss.flatten.map (renewed i) = vparamss.flatten := hself fun a ha => by
      simp only [Kind.slots, List.mem_append]
      exact .inl (.inl (.inr ha))
    have htpt : tpt.toList.map (renewed i) = tpt.toList := hself fun a ha => by
      simp only [Kind.slots, List.mem_append]
      exact .inl (.inr ha)
    have hrhs : rhs.toList.map (renewed i) = rhs.toList := hself fun a ha => by
      simp only [Kind.slots, List.mem_append]
      exact .inr ha
    refine ⟨?_, ?_⟩
    · have hname : (mk i s (.methodDef mods name tparams vparamss tpt rhs)).name? =
          (mk o s (.methodDef mods name tparams vparamss tpt rhs)).name? := rfl
      have hflags : (mk i s (.methodDef mods name tparams vparamss tpt rhs)).flags =
          (mk o s (.methodDef mods name tparams vparamss tpt rhs)).flags := rfl
      simp [contentDiffers, kind, tag, hname, hflags]
    · have hname : (nameTokens o .name name).map (renewed i) = nameTokens i .name name := by
        cases hspan : name.span <;> simp only [nameTokens, hspan] <;> rfl
      simp only [children, List.map_append, htypes, hparams, htpt, hrhs, hname, ← modifierTokens_renewed]
  | lambda params body => exact ⟨rfl, (hself fun a ha => ha).symm⟩
  | importDecl expr selectors => exact ⟨bne_self_eq_false _, (hself fun a ha => ha).symm⟩
  | matchExpr selector cases => exact ⟨rfl, (hself fun a ha => ha).symm⟩
  | block stats => exact ⟨rfl, (hself fun a ha => ha).symm⟩
  | _ => cases hrow

end Thinned

end Node

section Root
variable {p : Printer} {c : CompilationUnit} {q : Span} {r : Row} {i : Identity} {keep : Node → Bool}

theorem CompilationUnit.Printed.written (h : c.Printed q) (hsimple : c.root.isSimple = true) (hrow : c.root.row? = some r)
    (hsits : Row.sits r.head.size r.cells = true) : c.Written c.root q r where
  mem := c.root.mem_preorder_self
  place := h.place
  children := Node.children_of_row? hrow
  text := by
    have htext : r.text = c.source.text := Except.ok.inj ((Node.pretty_of_row? hsimple hrow).symm.trans h.text)
    refine Source.slice_eq_ok_iff.mpr ⟨[], [], ?_, h.start.symm, ?_⟩
    · rw [htext, List.nil_append, List.append_nil]
    · rw [htext, List.nil_append, h.stop]
  sits := by rwa [h.start, Nat.zero_add]

theorem CompilationUnit.Printed.balanced (h : c.Printed q) (hsimple : c.root.isSimple = true) :
    Text.Balanced c.source.text := by
  have htext : c.root.pretty {} = .ok (c.root.written .plain).2 := by
    rw [Node.pretty, Node.doc_eq_code hsimple]
    rfl
  rw [Except.ok.inj (h.text.symm.trans htext)]
  exact Node.neutral_written hsimple .plain []

theorem CompilationUnit.Remade.brackets_lineBreak {n : Node} : Text.brackets (lineBreak p c n q) = [] := by
  have hown : Text.brackets (c.source.text.indentationAt q.start) = [] :=
    Text.brackets_eq_nil (p := Text.isIndent) (by decide) fun d hd => List.all_eq_true.mp List.all_takeWhile d hd
  have hdeeper : Text.brackets (c.source.text.indentationAt q.start ++ p.style.indent.unit) = [] := by
    rw [Text.brackets_append, hown, IndentStyle.brackets_unit]
    rfl
  rw [lineBreak, Text.brackets_append, LineEnding.brackets_text, List.nil_append, Printer.childIndent]
  dsimp only
  split
  · exact hdeeper
  · split
    · split
      · next hlast => exact Text.brackets_of_allBlank (Bool.and_eq_true_iff.mp hlast).2
      · exact hdeeper
    · exact hdeeper

namespace CompilationUnit.Printed
open Node

/-- The root without what is not kept, where nothing is missing. -/
theorem rewrite?_unthinned (h : c.Printed q) (ho : c.Sound) (hunit : p.units.get? q.file = some c)
    (hsimple : c.root.isSimple = true) (hi : i ≠ c.root.identity) (hkeep : c.root.kind.thinned keep = c.root.kind) :
    p.rewrite? c (c.root.thinned i keep) = some c.source.text := by
  obtain ⟨r, hrow, hsits⟩ := h.sits
  have hwritten := h.written hsimple hrow hsits
  obtain ⟨hcontent, hchildren⟩ := agrees_unthinned (i := i) hsimple hrow hkeep
  have hthins : Thins c.root r (c.root.thinned i keep) keep (Row.shares c.root r.head none r.cells) [] [] := by
    refine ⟨sameSlot_thinned i, beq_false_of_ne hi, by simp, ?_⟩
    rw [hchildren, children_of_row? hrow, Row.nodes, ← @Row.map_fst_shares c.root r.head none r.cells]
    simp [thinned, identity]
  obtain ⟨picks, hremade, -⟩ := hthins.remade
  exact hremade.rewrite?_self hwritten ho hunit ⟨hcontent, hthins.unchanged (children_of_row? hrow)⟩

/-- The root without what is not kept. -/
theorem rewrite?_thinned (h : c.Printed q) (ho : c.Sound) (hunit : p.units.get? q.file = some c)
    (hfallback : ∀ n, p.fallback n = n.pretty p.style) (hsimple : c.root.isSimple = true) (hi : i.Fresh c.root)
    (hdel : c.root.kind.thinned keep ≠ c.root.kind) : ∃ t, p.rewrite? c (c.root.thinned i keep) = some t ∧
      (Text.Balanced t ↔ c.root.keepsBrackets keep = true) := by
  obtain ⟨r, hrow, hsits⟩ := h.sits
  have hwritten := h.written hsimple hrow hsits
  have hid : i ≠ c.root.identity := fun heq => (hi _ c.root.mem_preorder_self).1 heq.symm
  have hfresh : ∀ m ∈ c.root.children, ∀ q, m.identity ≠ .part i q := fun m hm => (hi m (mem_preorder_child hm)).2
  obtain ⟨front, middle, back, hthins, hmissing, hbalanced⟩ := balancedIff_thinned
    (Remade.brackets_lineBreak (p := p) (c := c) (n := c.root) (q := q)) hsimple ho.single.nodup_children hid
    hfresh hrow hdel
  obtain ⟨hchanged, hreplaced⟩ := hthins.changed (children_of_row? hrow) hmissing
  obtain ⟨picks, hremade, hpicks⟩ := hthins.remade
  have htext : ∀ t, Yields (p.printRegion (.of p.units (c.root.thinned i keep) q)) [] t [] →
      p.rewrite? c (c.root.thinned i keep) = some t := by
    intro t ht
    have hbefore := Text.before_append_size [] c.source.text
    have hafter := Text.after_append_size c.source.text []
    rw [List.nil_append, Text.size_nil] at hbefore
    rw [List.append_nil] at hafter
    rw [hremade.rewrite?_eq hwritten ho hunit (.inr ⟨hchanged, hreplaced⟩) ht, h.start, h.stop, hbefore, hafter,
      List.nil_append, List.append_nil]
  by_cases hnil : picks = []
  · -- Only of a block nothing may be left. It is printed from scratch then, since there is nothing to put together.
    subst hnil
    obtain ⟨hblock, hkept⟩ := block_of_children_nil hrow hremade.children
    have hpretty : p.fallback (c.root.thinned i keep) = .ok ['{', '}'] := by
      rw [hfallback, hblock, pretty, doc]
      rfl
    refine ⟨_, htext _ (hremade.printRegion_nil hwritten ho hunit (.inr hchanged) ?_ hpretty []),
      iff_of_true (by decide) hkept⟩
    rw [hblock]
    rfl
  · obtain ⟨pre, last, hcells⟩ : ∃ pre last, r.cells = pre ++ [last] := by
      obtain ⟨x, hx, -⟩ := hmissing
      have hmem : x ∈ Row.shares c.root r.head none r.cells := by
        rw [hthins.shares]
        simp [hx]
      rcases List.eq_nil_or_concat r.cells with hnone | ⟨pre, last, hcells⟩
      · rw [hnone] at hmem
        cases hmem
      · exact ⟨pre, last, by rw [hcells, List.concat_eq_append]⟩
    have hkept : keptShares (c.root.thinned i keep) keep front middle back ≠ [] := by
      rw [← hpicks]
      exact mt List.map_eq_nil_iff.mp hnil
    have hgap : r.lastGap = last.gap := by
      rw [Row.lastGap, hcells, List.getLast?_concat]
      rfl
    refine ⟨_, htext _ (hremade.printRegion hwritten ho hunit (.inr hchanged) hnil hcells []), ?_⟩
    rw [hpicks, ← hgap]
    exact hbalanced hkept

end CompilationUnit.Printed

end Root

/-- List elements of a node that was printed from scratch are deleted: what the unit becomes is in balance exactly if the
elements that are kept bring along the brackets of their list. -/
theorem Printer.deletion_balanced_iff (p : Printer) (c : CompilationUnit) (q : Span) (i : Identity) (keep : Node → Bool)
    (hunit : p.units.get? q.file = some c) (hfallback : ∀ n, p.fallback n = n.pretty p.style) (hprinted : c.Printed q)
    (hsound : c.Sound) (hsimple : c.root.isSimple = true) (hfresh : i.Fresh c.root) :
    ∃ t, p.rewrite? c (c.root.thinned i keep) = some t ∧ (Text.Balanced t ↔ c.root.keepsBrackets keep = true) := by
  by_cases hkeep : c.root.kind.thinned keep = c.root.kind
  · have hid : i ≠ c.root.identity := fun heq => (hfresh _ c.root.mem_preorder_self).1 heq.symm
    exact ⟨_, hprinted.rewrite?_unthinned hsound hunit hsimple hid hkeep,
      iff_of_true (hprinted.balanced hsimple) (Node.keepsBrackets_of_unthinned hkeep)⟩
  · exact hprinted.rewrite?_thinned hsound hunit hfallback hsimple hfresh hkeep

namespace Printer
open Node

/-- The method `def f(a, b) = x`. -/
def methodUnit : CompilationUnit where
  source := { name := "A.scala", text := "def f(a, b) = x".toList }
  root := .mk (.built 3) (some (.range "A.scala" 0 15)) (.methodDef []
    { text := "f", span := some (.range "A.scala" 4 5) } [] [[parameter 0 "a" 6, parameter 1 "b" 9]] none
    (some (letter 2 "x" 14)))

theorem methodUnit_printed : methodUnit.Printed (.range "A.scala" 0 15) where
  text := by cbv
  place := by cbv
  start := rfl
  stop := by cbv
  sits := ⟨_, rfl, by cbv⟩

theorem methodUnit_identities : methodUnit.root.preorder.map identity =
    [.built 3, .part (.built 3) .name, .built 0, .part (.built 0) .name, .built 1, .part (.built 1) .name, .built 2] := by
  cbv

theorem methodUnit_sound : methodUnit.Sound := by
  have hlocated : methodUnit.Located := CompilationUnit.located_of_isLocated (by cbv)
  refine ⟨hlocated.wellPlaced.within, hlocated.distinct, ?_, hlocated.fits⟩
  exact List.pairwise_map.mp (methodUnit_identities ▸ by decide)

theorem methodUnit_fresh : (Identity.built 4).Fresh methodUnit.root := by
  intro b hb
  have hmem := List.mem_map_of_mem (f := identity) hb
  rw [methodUnit_identities] at hmem
  generalize b.identity = d at hmem
  revert d
  simp

/-- Without its first parameter the method is in balance. -/
theorem first_parameter_deleted :
    let edited := methodUnit.root.thinned (.built 4) fun n => n.identity != .built 0
    methodUnit.Printed (.range "A.scala" 0 15) ∧ methodUnit.Sound ∧ methodUnit.root.isSimple = true ∧
      (Identity.built 4).Fresh methodUnit.root ∧ (methodUnit.root.keepsBrackets fun n => n.identity != .built 0) = true ∧
      ∃ t, (plain methodUnit).rewrite? methodUnit edited = some t ∧ Text.Balanced t := by
  have hsimple : methodUnit.root.isSimple = true := by cbv
  have hkept : (methodUnit.root.keepsBrackets fun n => n.identity != .built 0) = true := by cbv
  obtain ⟨t, ht, hiff⟩ := deletion_balanced_iff (plain methodUnit) methodUnit (.range "A.scala" 0 15) (.built 4)
    (fun n => n.identity != .built 0) rfl (fun _ => rfl) methodUnit_printed methodUnit_sound hsimple methodUnit_fresh
  exact ⟨methodUnit_printed, methodUnit_sound, hsimple, methodUnit_fresh, hkept, t, ht, hiff.mpr hkept⟩

set_option maxRecDepth 2000 in
/-- Without its last parameter the method loses the parenthesis behind it: `def f(a= x`. -/
theorem last_parameter_deleted :
    let edited := methodUnit.root.thinned (.built 4) fun n => n.identity != .built 1
    methodUnit.Printed (.range "A.scala" 0 15) ∧ methodUnit.Sound ∧ methodUnit.root.isSimple = true ∧
      (Identity.built 4).Fresh methodUnit.root ∧
      (plain methodUnit).rewrite? methodUnit edited = some "def f(a= x".toList ∧ ¬Text.Balanced "def f(a= x".toList := by
  intro edited
  exact ⟨methodUnit_printed, methodUnit_sound, by cbv, methodUnit_fresh, by cbv, by decide⟩

end Printer

end Reprint
