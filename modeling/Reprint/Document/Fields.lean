import Reprint.Json.Value
import Reprint.Tree.Kind
/-!
Tree documents as they are written: every node is a record of fields, or a reference to a node of the base
document. Which fields are read depends on the kind of the node; all of them must be of the right form.
-/

namespace Reprint

namespace Document

/-- A written name, with its offsets if they are given. -/
structure NameField where
  text : String
  offsets : Option (List Nat) := none

/-- A written modifier, with the offsets of its keyword if they are given. -/
structure ModifierField where
  flag : Modifier
  offsets : Option (List Nat) := none

/-- The fields of a node, with an `α` wherever a node is expected. -/
structure Fields (α : Type) where
  kind : String := ""
  id : Option String := none
  offsets : Option (List Nat) := none
  transparent : Bool := false
  name : Option NameField := none
  mods : List ModifierField := []
  pid : Option α := none
  stats : List α := []
  tparams : List α := []
  template : Option α := none
  parents : List α := []
  superArgs : List α := []
  selfType : Option α := none
  tpt : Option α := none
  rhs : Option α := none
  vparamss : List (List α) := []
  value : Option Json := none
  qual : Option NameField := none
  qualifier : Option α := none
  callee : Option α := none
  args : List α := []
  expr : Option α := none
  selector : Option α := none
  cases : List α := []
  pat : Option α := none
  guard : Option α := none
  body : Option α := none
  cond : Option α := none
  thenBranch : Option α := none
  elseBranch : Option α := none
  params : List α := []
  selectors : List α := []
  rename : Option NameField := none

/-- A node of a document. -/
inductive NodeDoc where
  /-- The node of the base document with a given id. -/
  | ref (target : String)
  | node (fields : Fields NodeDoc)

namespace Fields

variable {α β : Type}

/-- What stands where a node is expected, field by field. -/
def groups (f : Fields α) : List (List α) :=
  [f.pid.toList, f.stats, f.tparams, f.template.toList, f.parents, f.superArgs, f.selfType.toList,
   f.tpt.toList, f.rhs.toList, f.vparamss.flatten, f.qualifier.toList, f.callee.toList, f.args,
   f.expr.toList, f.selector.toList, f.cases, f.pat.toList, f.guard.toList, f.body.toList, f.cond.toList,
   f.thenBranch.toList, f.elseBranch.toList, f.params, f.selectors]

/-- Everything that stands where a node is expected. -/
def nodes (f : Fields α) : List α := f.groups.flatten

/-- The same fields with every node replaced. -/
def map (g : α → β) (f : Fields α) : Fields β :=
  { f with
    pid := f.pid.map g
    stats := f.stats.map g
    tparams := f.tparams.map g
    template := f.template.map g
    parents := f.parents.map g
    superArgs := f.superArgs.map g
    selfType := f.selfType.map g
    tpt := f.tpt.map g
    rhs := f.rhs.map g
    vparamss := f.vparamss.map (·.map g)
    qualifier := f.qualifier.map g
    callee := f.callee.map g
    args := f.args.map g
    expr := f.expr.map g
    selector := f.selector.map g
    cases := f.cases.map g
    pat := f.pat.map g
    guard := f.guard.map g
    body := f.body.map g
    cond := f.cond.map g
    thenBranch := f.thenBranch.map g
    elseBranch := f.elseBranch.map g
    params := f.params.map g
    selectors := f.selectors.map g }

theorem mem_nodes {f : Fields α} (l : List α) (hl : l ∈ f.groups) (d : α) (hd : d ∈ l) : d ∈ f.nodes :=
  List.mem_flatten_of_mem hl hd

theorem some_mem_nodes {f : Fields α} (o : Option α) (ho : o.toList ∈ f.groups) (d : α) (hd : o = some d) :
    d ∈ f.nodes :=
  List.mem_flatten_of_mem ho (by simp [hd])

/-- The same fields, every node with the fact that it is one of them. -/
def attach (f : Fields α) : Fields { d // d ∈ f.nodes } :=
  { f with
    pid := f.pid.attachWith _ (some_mem_nodes f.pid (by simp [groups]))
    stats := f.stats.attachWith _ (mem_nodes f.stats (by simp [groups]))
    tparams := f.tparams.attachWith _ (mem_nodes f.tparams (by simp [groups]))
    template := f.template.attachWith _ (some_mem_nodes f.template (by simp [groups]))
    parents := f.parents.attachWith _ (mem_nodes f.parents (by simp [groups]))
    superArgs := f.superArgs.attachWith _ (mem_nodes f.superArgs (by simp [groups]))
    selfType := f.selfType.attachWith _ (some_mem_nodes f.selfType (by simp [groups]))
    tpt := f.tpt.attachWith _ (some_mem_nodes f.tpt (by simp [groups]))
    rhs := f.rhs.attachWith _ (some_mem_nodes f.rhs (by simp [groups]))
    vparamss := f.vparamss.attach.map fun l => l.1.attachWith _ fun d h =>
      mem_nodes f.vparamss.flatten (by simp [groups]) d (List.mem_flatten_of_mem l.2 h)
    qualifier := f.qualifier.attachWith _ (some_mem_nodes f.qualifier (by simp [groups]))
    callee := f.callee.attachWith _ (some_mem_nodes f.callee (by simp [groups]))
    args := f.args.attachWith _ (mem_nodes f.args (by simp [groups]))
    expr := f.expr.attachWith _ (some_mem_nodes f.expr (by simp [groups]))
    selector := f.selector.attachWith _ (some_mem_nodes f.selector (by simp [groups]))
    cases := f.cases.attachWith _ (mem_nodes f.cases (by simp [groups]))
    pat := f.pat.attachWith _ (some_mem_nodes f.pat (by simp [groups]))
    guard := f.guard.attachWith _ (some_mem_nodes f.guard (by simp [groups]))
    body := f.body.attachWith _ (some_mem_nodes f.body (by simp [groups]))
    cond := f.cond.attachWith _ (some_mem_nodes f.cond (by simp [groups]))
    thenBranch := f.thenBranch.attachWith _ (some_mem_nodes f.thenBranch (by simp [groups]))
    elseBranch := f.elseBranch.attachWith _ (some_mem_nodes f.elseBranch (by simp [groups]))
    params := f.params.attachWith _ (mem_nodes f.params (by simp [groups]))
    selectors := f.selectors.attachWith _ (mem_nodes f.selectors (by simp [groups])) }

theorem map_attach (f : Fields α) (g : α → β) : (f.attach.map fun d => g d.1) = f.map g := by
  simp [attach, map]

end Fields

/-- A node of a record of fields is smaller than the record. -/
theorem NodeDoc.sizeOf_lt_of_mem {f : Fields NodeDoc} {d : NodeDoc} (h : d ∈ f.nodes) :
    sizeOf d < sizeOf f := by
  have hlist : ∀ {l : List NodeDoc}, d ∈ l → sizeOf d < sizeOf l := List.sizeOf_lt_of_mem
  have hopt : ∀ {o : Option NodeDoc}, d ∈ o.toList → sizeOf d < sizeOf o := by
    intro o ho
    cases o with
    | none => simp at ho
    | some m => simp only [Option.toList_some, List.mem_singleton] at ho; subst ho; simp
  have hlists : ∀ {ls : List (List NodeDoc)}, d ∈ ls.flatten → sizeOf d < sizeOf ls := by
    intro ls hn
    obtain ⟨l, hl, hn⟩ := List.mem_flatten.mp hn
    exact Nat.lt_trans (List.sizeOf_lt_of_mem hn) (List.sizeOf_lt_of_mem hl)
  cases f
  simp only [Fields.nodes, Fields.groups, List.mem_flatten, List.mem_cons, List.not_mem_nil, or_false] at h
  obtain ⟨group, hgroup, h⟩ := h
  simp only [Fields.mk.sizeOf_spec]
  repeat' (rcases hgroup with rfl | hgroup)
  all_goals first
    | (have lt := hlist h; omega)
    | (have lt := hopt h; omega)
    | (have lt := hlists h; omega)

end Document

end Reprint
