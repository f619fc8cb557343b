import Reprint.Units
/-!
Trees by their children. The walks of the library recurse on weights; here they get plain equations, and an
induction that follows the children. A node of a tree is reached by a path of child indices (`at?`), and the
nodes of a tree (`preorder`) are exactly the ones so reached.
-/

namespace Reprint

theorem flatMap_attach {α β : Type} (l : List α) (f : α → List β) :
    (l.attach.flatMap fun x => f x.1) = l.flatMap f := by
  rw [List.flatMap_def, List.flatMap_def, List.attach_map_val (f := f)]

/-- An element of a concatenation stands in one of its parts. -/
theorem flatMap_split {α β : Type} {f : α → List β} {l : List α} {x : β} {pre post : List β}
    (h : l.flatMap f = pre ++ x :: post) :
    ∃ l₁ a l₂ p q, l = l₁ ++ a :: l₂ ∧ f a = p ++ x :: q ∧ pre = l₁.flatMap f ++ p ∧
      post = q ++ l₂.flatMap f := by
  induction l generalizing pre with
  | nil => simp at h
  | cons a l ih =>
    rw [List.flatMap_cons] at h
    -- `x` stands behind the part of `a`, or in it.
    have later : ∀ {p}, pre = f a ++ p → l.flatMap f = p ++ x :: post →
        ∃ l₁ b l₂ p q, a :: l = l₁ ++ b :: l₂ ∧ f b = p ++ x :: q ∧ pre = l₁.flatMap f ++ p ∧
          post = q ++ l₂.flatMap f := by
      intro p hp hl
      obtain ⟨l₁, b, l₂, p', q, rfl, hb, rfl, rfl⟩ := ih hl
      exact ⟨a :: l₁, b, l₂, p', q, rfl, hb, by rw [hp, List.flatMap_cons, List.append_assoc], rfl⟩
    rcases List.append_eq_append_iff.mp h with ⟨p, hp, hl⟩ | ⟨p, hp, hl⟩
    · exact later hp hl
    · cases p with
      | nil => exact later (p := []) (by rw [hp]; simp) hl.symm
      | cons y p =>
        obtain ⟨rfl, rfl⟩ := List.cons.inj hl
        exact ⟨[], a, l, pre, p, rfl, hp, rfl, rfl⟩

namespace Node

/-- Induction along the children of a node. -/
@[elab_as_elim]
theorem children_induction {motive : Node → Prop} (step : ∀ n, (∀ c ∈ n.children, motive c) → motive n)
    (n : Node) : motive n :=
  step n fun c _ => children_induction step c
termination_by n.weight
decreasing_by exact weight_lt_of_mem_children ‹_›

/-- Induction along what hangs below a node. -/
@[elab_as_elim]
theorem slots_induction {motive : Node → Prop} (step : ∀ n, (∀ c ∈ n.kind.slots, motive c) → motive n)
    (n : Node) : motive n :=
  step n fun c _ => slots_induction step c
termination_by n.weight
decreasing_by exact weight_lt_of_mem_slots ‹_›

/-! ### Layers of a tree -/

/-- All layers of a tree are in `Q`. -/
inductive Throughout (Q : Kind Node → Prop) : Node → Prop where
  | node {n : Node} : Q n.kind → (∀ c ∈ n.kind.slots, Throughout Q c) → Throughout Q n

section Throughout
variable {P Q : Kind Node → Prop} {n c : Node}

theorem Throughout.layer : n.Throughout Q → Q n.kind
  | node h _ => h

theorem Throughout.slot : n.Throughout Q → c ∈ n.kind.slots → c.Throughout Q
  | node _ h, hc => h c hc

theorem Throughout.and (hP : n.Throughout P) (hQ : n.Throughout Q) : n.Throughout fun k => P k ∧ Q k := by
  induction hP with
  | node hlayer _ ih => exact .node ⟨hlayer, hQ.layer⟩ fun c hc => ih c hc (hQ.slot hc)

theorem Throughout.imp (h : n.Throughout P) (himp : ∀ k, P k → Q k) : n.Throughout Q := by
  induction h with
  | node hlayer _ ih => exact .node (himp _ hlayer) ih

theorem throughout_mk {i : Identity} {s : Option Span} {k : Kind Node} :
    (mk i s k).Throughout Q ↔ Q k ∧ ∀ c ∈ k.slots, c.Throughout Q :=
  ⟨fun h => ⟨h.layer, fun _ hc => h.slot hc⟩, fun h => .node h.1 h.2⟩

end Throughout

/-! ### Nodes of a tree -/

theorem preorder_eq (n : Node) : n.preorder = n :: n.children.flatMap preorder := by
  rw [preorder, flatMap_attach n.children preorder]

theorem mem_preorder_iff {n m : Node} : m ∈ n.preorder ↔ m = n ∨ ∃ c ∈ n.children, m ∈ c.preorder := by
  rw [preorder_eq, List.mem_cons, List.mem_flatMap]

theorem mem_preorder_self (n : Node) : n ∈ n.preorder := mem_preorder_iff.mpr (.inl rfl)

theorem mem_preorder_of_child {n c m : Node} (hc : c ∈ n.children) (hm : m ∈ c.preorder) : m ∈ n.preorder :=
  mem_preorder_iff.mpr (.inr ⟨c, hc, hm⟩)

theorem mem_preorder_child {n c : Node} (hc : c ∈ n.children) : c ∈ n.preorder :=
  mem_preorder_of_child hc c.mem_preorder_self

theorem mem_preorder_trans {a b c : Node} (hab : b ∈ a.preorder) (hbc : c ∈ b.preorder) : c ∈ a.preorder := by
  induction a using children_induction with
  | step a ih =>
    rcases mem_preorder_iff.mp hab with rfl | ⟨d, hd, hb⟩
    · exact hbc
    · exact mem_preorder_of_child hd (ih d hd hb)

/-- Every node of a tree but the root is a child of some node. -/
theorem exists_parent_of_mem {root n : Node} (h : n ∈ root.preorder) :
    n = root ∨ ∃ p ∈ root.preorder, n ∈ p.children := by
  induction root using children_induction with
  | step root ih =>
    rcases mem_preorder_iff.mp h with rfl | ⟨c, hc, hn⟩
    · exact .inl rfl
    · rcases ih c hc hn with rfl | ⟨p, hp, hnp⟩
      · exact .inr ⟨root, root.mem_preorder_self, hc⟩
      · exact .inr ⟨p, mem_preorder_of_child hc hp, hnp⟩

theorem weight_le_of_mem_preorder {n m : Node} (h : m ∈ n.preorder) : m.weight ≤ n.weight := by
  induction n using children_induction with
  | step n ih =>
    rcases mem_preorder_iff.mp h with rfl | ⟨c, hc, hm⟩
    · exact Nat.le_refl _
    · exact Nat.le_of_lt (Nat.lt_of_le_of_lt (ih c hc hm) (weight_lt_of_mem_children hc))

/-- No node is below one of its children. -/
theorem not_mem_preorder_child {n c : Node} (hc : c ∈ n.children) : n ∉ c.preorder := fun h =>
  Nat.lt_irrefl _ (Nat.lt_of_le_of_lt (weight_le_of_mem_preorder h) (weight_lt_of_mem_children hc))

/-- What follows a node in the preorder of a tree begins with all that is below the node. -/
theorem preorder_split {root n : Node} {pre post : List Node} (h : root.preorder = pre ++ n :: post) :
    ∃ rest, post = n.children.flatMap preorder ++ rest := by
  induction root using children_induction generalizing pre post with
  | step root ih =>
    rw [preorder_eq] at h
    cases pre with
    | nil =>
      obtain ⟨rfl, rfl⟩ := List.cons.inj h
      exact ⟨[], (List.append_nil _).symm⟩
    | cons a pre =>
      have h := (List.cons.inj h).2
      obtain ⟨l, c, r, p, q, hl, hc, -, rfl⟩ := flatMap_split h
      obtain ⟨rest, rfl⟩ := ih c (hl ▸ List.mem_append_right _ (List.mem_cons_self ..)) hc
      exact ⟨rest ++ r.flatMap preorder, by rw [List.append_assoc]⟩

/-! ### Paths -/

theorem at?_cons {n m : Node} {i : Nat} {path : List Nat} :
    n.at? (i :: path) = some m ↔ ∃ c, n.children[i]? = some c ∧ c.at? path = some m := by
  rw [at?]
  exact Option.bind_eq_some_iff

theorem at?_append (n : Node) (p q : List Nat) : n.at? (p ++ q) = (n.at? p).bind (·.at? q) := by
  induction p generalizing n with
  | nil => rfl
  | cons i p ih =>
    show (n.children[i]?).bind (·.at? (p ++ q)) = ((n.children[i]?).bind (·.at? p)).bind (·.at? q)
    cases n.children[i]? with
    | none => rfl
    | some c => exact ih c

theorem at?_snoc {n m : Node} {i : Nat} {path : List Nat} :
    n.at? (path ++ [i]) = some m ↔ ∃ a, n.at? path = some a ∧ a.children[i]? = some m := by
  rw [at?_append, Option.bind_eq_some_iff]
  have last : ∀ a : Node, a.at? [i] = some m ↔ a.children[i]? = some m := by
    intro a
    rw [at?_cons]
    exact ⟨fun ⟨c, hc, hm⟩ => hc.trans hm, fun h => ⟨m, h, rfl⟩⟩
  simp only [last]

theorem mem_preorder_of_at? {n m : Node} {path : List Nat} (h : n.at? path = some m) : m ∈ n.preorder := by
  induction path generalizing n with
  | nil =>
    cases h
    exact mem_preorder_self _
  | cons i path ih =>
    obtain ⟨c, hc, hm⟩ := at?_cons.mp h
    exact mem_preorder_of_child (List.mem_of_getElem? hc) (ih hm)

theorem exists_at?_of_mem_preorder {n m : Node} (h : m ∈ n.preorder) : ∃ path, n.at? path = some m := by
  induction n using children_induction with
  | step n ih =>
    rcases mem_preorder_iff.mp h with rfl | ⟨c, hc, hm⟩
    · exact ⟨[], rfl⟩
    · obtain ⟨i, hi⟩ := List.getElem?_of_mem hc
      obtain ⟨path, hpath⟩ := ih c hc hm
      exact ⟨i :: path, at?_cons.mpr ⟨c, hi, hpath⟩⟩

/-! ### Sample nodes -/

/-- A name of one letter in the file `A.scala`. -/
def letter (serial : Nat) (name : String) (start : Nat) : Node :=
  .mk (.built serial) (some (.range "A.scala" start (start + 1))) (.ident name)

/-- A parameter of one letter in this file. -/
def parameter (serial : Nat) (name : String) (start : Nat) : Node :=
  .mk (.built serial) (some (.range "A.scala" start (start + 1)))
    (.valDef [] { text := name, span := some (.range "A.scala" start (start + 1)) } none none)

end Node

end Reprint
