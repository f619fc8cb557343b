import Mathlib
import Reprint.Document.Build
import Reprint.Proofs.Descent
/-!
What documents say, kind by kind. A kind reads some fields of a document node and passes over the others: `Tag.reads`
lists the slots in which it looks for nodes, `Tag.requires` those that must be filled, `Tag.names` the names. So what
has to be right in a document is a property of the nodes that are met over these slots (`NodeDoc.met`), and what a
tree makes of a document is a property of the pairs of such a node and the tree node in the same place
(`NodeDoc.pairs`).
-/

namespace Reprint

namespace Document

/-- The fields in which nodes stand. -/
inductive Slot where
  | pid | stats | tparams | template | parents | superArgs | selfType | tpt | rhs | vparamss | qualifier | callee
  | args | expr | selector | cases | pat | guard | body | cond | thenBranch | elseBranch | params | selectors
deriving DecidableEq

/-- The fields in which names stand. -/
inductive NameSlot where
  | name | qual | rename
deriving DecidableEq

end Document

open Document

/-! ### What a kind reads -/

namespace Tag

/-- The slots in which a kind looks for nodes, in the order of the text. -/
def reads : Tag → List Slot
  | package => [.pid, .stats]
  | classDef => [.tparams, .template]
  | objectDef => [.template]
  | template => [.parents, .superArgs, .selfType, .stats]
  | valDef => [.tpt, .rhs]
  | methodDef => [.tparams, .vparamss, .tpt, .rhs]
  | typeDef => [.tparams, .rhs]
  | select => [.qualifier]
  | apply | superCall => [.callee, .args]
  | newExpr => [.tpt]
  | typed => [.expr, .tpt]
  | matchExpr => [.selector, .cases]
  | caseClause => [.pat, .guard, .body]
  | bind => [.body]
  | ifExpr => [.cond, .thenBranch, .elseBranch]
  | lambda => [.params, .body]
  | importDecl => [.expr, .selectors]
  | block => [.stats]
  | selfType => [.tpt]
  | ident | literal | thisRef | importSelector | nameToken | modifierToken => []

/-- The slots that must be filled. -/
def requires : Tag → List Slot
  | package => [.pid]
  | classDef | objectDef => [.template]
  | select => [.qualifier]
  | apply | superCall => [.callee]
  | newExpr => [.tpt]
  | typed => [.expr, .tpt]
  | matchExpr => [.selector]
  | caseClause => [.pat, .body]
  | bind | lambda => [.body]
  | ifExpr => [.cond, .thenBranch]
  | importDecl => [.expr]
  | _ => []

/-- The names that a kind reads. -/
def names : Tag → List NameSlot
  | classDef | objectDef | valDef | methodDef | typeDef | ident | select | bind | selfType => [.name]
  | importSelector => [.name, .rename]
  | thisRef => [.qual]
  | _ => []

end Tag

namespace Kind
variable {α : Type}

/-- What hangs below a layer, by the slots of documents. Value parameters come in several lists, everything else in one. -/
def filled : Kind α → List (Slot × List (List α))
  | package pid stats => [(.pid, [[pid]]), (.stats, [stats])]
  | classDef _ _ tparams impl => [(.tparams, [tparams]), (.template, [[impl]])]
  | objectDef _ _ impl => [(.template, [[impl]])]
  | template parents superArgs self body =>
    [(.parents, [parents]), (.superArgs, [superArgs]), (.selfType, [self.toList]), (.stats, [body])]
  | valDef _ _ tpt rhs => [(.tpt, [tpt.toList]), (.rhs, [rhs.toList])]
  | methodDef _ _ tparams vparamss tpt rhs =>
    [(.tparams, [tparams]), (.vparamss, vparamss), (.tpt, [tpt.toList]), (.rhs, [rhs.toList])]
  | typeDef _ _ tparams rhs => [(.tparams, [tparams]), (.rhs, [rhs.toList])]
  | select qualifier _ => [(.qualifier, [[qualifier]])]
  | apply callee args | superCall callee args => [(.callee, [[callee]]), (.args, [args])]
  | newExpr tpt => [(.tpt, [[tpt]])]
  | typed expr tpt => [(.expr, [[expr]]), (.tpt, [[tpt]])]
  | matchExpr selector cases => [(.selector, [[selector]]), (.cases, [cases])]
  | caseClause pat guard body => [(.pat, [[pat]]), (.guard, [guard.toList]), (.body, [[body]])]
  | bind _ body => [(.body, [[body]])]
  | ifExpr cond thenBranch elseBranch =>
    [(.cond, [[cond]]), (.thenBranch, [[thenBranch]]), (.elseBranch, [elseBranch.toList])]
  | lambda params body => [(.params, [params]), (.body, [[body]])]
  | importDecl expr selectors => [(.expr, [[expr]]), (.selectors, [selectors])]
  | block stats => [(.stats, [stats])]
  | selfType _ tpt => [(.tpt, [tpt.toList])]
  | ident _ | literal _ | thisRef _ | importSelector .. | nameToken _ | modifierToken _ => []

/-- The names of a layer. An identifier keeps no place of its name. -/
def named : Kind α → NameSlot → Option Name
  | classDef _ name .., .name | objectDef _ name _, .name | valDef _ name .., .name | methodDef _ name .., .name
  | typeDef _ name .., .name | select _ name, .name | bind name _, .name | selfType name _, .name
  | importSelector name _, .name => some name
  | ident name, .name => some { text := name }
  | thisRef qual, .qual => qual
  | importSelector _ rename, .rename => rename
  | _, _ => none

/-- The value of a literal. -/
def value? : Kind α → Option Constant
  | literal value => some value
  | _ => none

theorem map_fst_filled (k : Kind α) : k.filled.map Prod.fst = k.tag.reads := by cases k <;> rfl

theorem flatMap_filled (k : Kind α) : (k.filled.flatMap fun x => x.2.flatten) = k.slots := by
  cases k <;> simp [filled, slots]

end Kind

namespace Document

/-! ### What a document node says -/

namespace Fields
variable {α : Type}

/-- What stands in a slot. -/
def slot (f : Fields α) : Slot → List (List α)
  | .pid => [f.pid.toList]
  | .stats => [f.stats]
  | .tparams => [f.tparams]
  | .template => [f.template.toList]
  | .parents => [f.parents]
  | .superArgs => [f.superArgs]
  | .selfType => [f.selfType.toList]
  | .tpt => [f.tpt.toList]
  | .rhs => [f.rhs.toList]
  | .vparamss => f.vparamss
  | .qualifier => [f.qualifier.toList]
  | .callee => [f.callee.toList]
  | .args => [f.args]
  | .expr => [f.expr.toList]
  | .selector => [f.selector.toList]
  | .cases => [f.cases]
  | .pat => [f.pat.toList]
  | .guard => [f.guard.toList]
  | .body => [f.body.toList]
  | .cond => [f.cond.toList]
  | .thenBranch => [f.thenBranch.toList]
  | .elseBranch => [f.elseBranch.toList]
  | .params => [f.params]
  | .selectors => [f.selectors]

def named (f : Fields α) : NameSlot → Option NameField
  | .name => f.name
  | .qual => f.qual
  | .rename => f.rename

/-- The kind of a document node, if documents may use it. -/
def tag? (f : Fields α) : Option Tag := (Tag.ofName? f.kind).filter (!·.isDerived)

/-- The nodes in the slots that a kind reads. -/
def below (f : Fields α) (tag : Tag) : List α := tag.reads.flatMap fun s => (f.slot s).flatten

/-- The nodes in slots beside what hangs in the same places of a tree. -/
def beside (f : Fields α) (n : Node) : List (α × Node) :=
  n.kind.filled.flatMap fun x => (f.slot x.1).flatten.zip x.2.flatten

theorem tag?_eq_some_iff {f : Fields α} {tag : Tag} :
    f.tag? = some tag ↔ tag.isDerived = false ∧ f.kind = tag.name := by
  have hname : Tag.ofName? tag.name = some tag := by cases tag <;> decide
  constructor
  · intro h
    obtain ⟨hfind, hderived⟩ := Option.filter_eq_some_iff.mp h
    have hkind : tag.name = f.kind := by simpa using List.find?_some hfind
    exact ⟨by simpa using hderived, hkind.symm⟩
  · rintro ⟨hderived, hkind⟩
    rw [Fields.tag?, hkind, hname]
    simp [hderived]

example : (Tag.all.filter (!·.isDerived)).length = 23 := rfl

theorem mem_nodes_of_mem_slot {f : Fields α} {s : Slot} {d : α} (h : d ∈ (f.slot s).flatten) : d ∈ f.nodes := by
  cases s
  case vparamss => exact mem_nodes f.vparamss.flatten (by simp [groups]) d h
  all_goals
    simp only [slot, List.flatten_cons, List.flatten_nil, List.append_nil] at h
    exact mem_nodes _ (by simp [groups]) d h

theorem mem_nodes_of_mem_below {f : Fields α} {tag : Tag} {d : α} (h : d ∈ f.below tag) : d ∈ f.nodes := by
  obtain ⟨s, -, hd⟩ := List.mem_flatMap.mp h
  exact mem_nodes_of_mem_slot hd

theorem mem_nodes_of_mem_beside {f : Fields α} {n : Node} {x : α × Node} (h : x ∈ f.beside n) : x.1 ∈ f.nodes := by
  obtain ⟨y, -, hx⟩ := List.mem_flatMap.mp h
  exact mem_nodes_of_mem_slot (List.of_mem_zip hx).1

theorem snd_mem_slots_of_mem_beside {f : Fields α} {n : Node} {x : α × Node} (h : x ∈ f.beside n) :
    x.2 ∈ n.kind.slots := by
  obtain ⟨y, hy, hx⟩ := List.mem_flatMap.mp h
  rw [← Kind.flatMap_filled]
  exact List.mem_flatMap.mpr ⟨y, hy, (List.of_mem_zip hx).2⟩

end Fields

namespace NodeDoc

/-- The id that a document node declares. -/
def id? : NodeDoc → Option String
  | ref _ => none
  | node f => f.id

def isRef : NodeDoc → Bool
  | ref _ => true
  | node _ => false

/-- The nodes of a document that are read, what stands in slots ahead of its owner. -/
def met (d : NodeDoc) : List NodeDoc :=
  match d with
  | ref t => [ref t]
  | node f =>
    (match f.tag? with
      | some tag => (f.below tag).attach.flatMap fun e => e.1.met
      | none => []) ++ [node f]
termination_by sizeOf d
decreasing_by
  have := sizeOf_lt_of_mem (Fields.mem_nodes_of_mem_below e.2)
  simp only [node.sizeOf_spec]
  omega

theorem met_ref (t : String) : (ref t).met = [ref t] := by rw [met]

theorem met_node {f : Fields NodeDoc} {tag : Tag} (h : f.tag? = some tag) :
    (node f).met = (f.below tag).flatMap met ++ [node f] := by
  rw [met, h]
  exact congrArg (· ++ _) (flatMap_attach _ _)

theorem mem_met_self (d : NodeDoc) : d ∈ d.met := by
  cases d with
  | ref t => rw [met_ref]; exact List.mem_singleton_self _
  | node f => rw [met]; exact List.mem_append_right _ (List.mem_singleton_self _)

/-- The ids that the nodes of a document declare. -/
def ids (d : NodeDoc) : List String := d.met.filterMap id?

/-- The nodes of a document that are read, each with the node in its place in a tree. -/
def pairs (d : NodeDoc) (n : Node) : List (NodeDoc × Node) :=
  match d with
  | ref t => [(ref t, n)]
  | node f => ((f.beside n).attach.flatMap fun x => x.1.1.pairs x.1.2) ++ [(node f, n)]
termination_by sizeOf d
decreasing_by
  have := sizeOf_lt_of_mem (Fields.mem_nodes_of_mem_beside x.2)
  simp only [node.sizeOf_spec]
  omega

theorem pairs_ref (t : String) (n : Node) : (ref t).pairs n = [(ref t, n)] := by rw [pairs]

theorem pairs_node (f : Fields NodeDoc) (n : Node) :
    (node f).pairs n = ((f.beside n).flatMap fun x => x.1.pairs x.2) ++ [(node f, n)] := by
  rw [pairs]
  exact congrArg (· ++ _) (flatMap_attach (f.beside n) fun x => x.1.pairs x.2)

theorem mem_pairs_self (d : NodeDoc) (n : Node) : (d, n) ∈ d.pairs n := by
  cases d with
  | ref t => rw [pairs_ref]; exact List.mem_singleton_self _
  | node f => rw [pairs_node]; exact List.mem_append_right _ (List.mem_singleton_self _)

theorem mem_pairs_node {f : Fields NodeDoc} {n : Node} {x : NodeDoc × Node} :
    x ∈ (node f).pairs n ↔ x = (node f, n) ∨ ∃ y ∈ f.beside n, x ∈ y.1.pairs y.2 := by
  rw [pairs_node, List.mem_append, List.mem_flatMap, List.mem_singleton, or_comm]

theorem mem_pairs_trans {d : NodeDoc} {n : Node} {x y : NodeDoc × Node} (hx : x ∈ d.pairs n)
    (hy : y ∈ x.1.pairs x.2) : y ∈ d.pairs n := by
  induction n using Node.slots_induction generalizing d with
  | step n ih =>
    cases d with
    | ref t =>
      rw [pairs_ref, List.mem_singleton] at hx
      cases hx
      exact hy
    | node f =>
      rcases mem_pairs_node.mp hx with rfl | ⟨z, hz, hx⟩
      · exact hy
      · exact mem_pairs_node.mpr (.inr ⟨z, hz, ih z.2 (Fields.snd_mem_slots_of_mem_beside hz) hx⟩)

end NodeDoc

end Document

end Reprint
