import Mathlib
import Reprint.Proofs.Discovery
import Reprint.Proofs.Runs
/-!
What discovery does not see. Two trees are `Alike` when they agree in tag, content and arrangement at every node,
slot by slot. Discovery compares the content of a pair of nodes and the slots of their children. It looks neither
at the arrangement of the children nor at nodes that it has no pair for. Main statement: where discovery is silent,
the edited tree is alike to its counterpart exactly when these blind spots hide nothing.
-/

namespace Reprint

/-- What a layer says by itself: its names, its flags without order or repetition, and its value. -/
structure Content where
  names : List (Option String) := []
  flags : List Modifier := []
  value : Option Constant := none
deriving DecidableEq

/-- Which of the two zeros a value is, if it is one. -/
def Content.zero? (c : Content) : Option Binary64 :=
  match c.value with
  | some (.double x) => if x.isZero then some x else none
  | _ => none

namespace Kind
variable {α : Type}

/-- The content of a definition. -/
def defined (mods : List ModifierToken) (name : Name) : Content :=
  { names := [some name.text], flags := Modifier.all.filter fun m => mods.any (·.flag == m) }

/-- What a layer says apart from what hangs below it. -/
def content : Kind α → Content
  | classDef mods name .. | objectDef mods name _ | valDef mods name .. | methodDef mods name ..
  | typeDef mods name .. => defined mods name
  | ident name | nameToken name => { names := [some name] }
  | modifierToken flag => { flags := [flag] }
  | literal value => { value := some value }
  | thisRef qual => { names := [qual.map (·.text)] }
  | select _ name | bind name _ | selfType name _ => { names := [some name.text] }
  | importSelector name rename => { names := [some name.text, rename.map (·.text)] }
  | _ => {}

/-- How many nodes hang in each slot of a layer, and in each parameter list. -/
def grouping : Kind α → List Nat
  | package _ stats => [1, stats.length]
  | classDef _ _ tparams _ => [tparams.length, 1]
  | objectDef .. => [1]
  | template parents superArgs self body => [parents.length, superArgs.length, self.toList.length, body.length]
  | valDef _ _ tpt rhs => [tpt.toList.length, rhs.toList.length]
  | methodDef _ _ tparams vparamss tpt rhs =>
    tparams.length :: tpt.toList.length :: rhs.toList.length :: vparamss.map List.length
  | typeDef _ _ tparams rhs => [tparams.length, rhs.toList.length]
  | select .. | newExpr _ | bind .. => [1]
  | apply _ args | superCall _ args => [1, args.length]
  | typed .. => [1, 1]
  | matchExpr _ cases => [1, cases.length]
  | caseClause _ guard _ => [1, guard.toList.length, 1]
  | ifExpr _ _ elseBranch => [1, 1, elseBranch.toList.length]
  | lambda params _ => [params.length, 1]
  | importDecl _ selectors => [1, selectors.length]
  | block stats => [stats.length]
  | selfType _ tpt => [tpt.toList.length]
  | ident _ | literal _ | thisRef _ | importSelector .. | nameToken _ | modifierToken _ => []

theorem length_slots (k : Kind Node) : k.slots.length = k.grouping.sum := by
  cases k <;> simp [slots, grouping] <;> omega

end Kind

theorem Constant.eq_of_same {x y : Constant} (h : x.same y)
    (hz : Content.zero? { value := some x } = Content.zero? { value := some y }) : x = y := by
  have hdouble : ∀ a b : Binary64, a.sameValue b → (if a.isZero then some a else none) =
      (if b.isZero then some b else none) → a = b := by
    intro a b hab hab'
    rcases Bool.or_eq_true_iff.mp hab with hzero | heq
    · obtain ⟨ha, hb⟩ := Bool.and_eq_true_iff.mp hzero
      rw [if_pos ha, if_pos hb] at hab'
      exact Option.some.inj hab'
    · exact beq_iff_eq.mp heq
  unfold same at h
  split at h
  · rw [hdouble _ _ h hz]
  · exact beq_iff_eq.mp h

namespace Node

/-- The same tag, content and arrangement, here and in every slot below. -/
inductive Alike : Node → Node → Prop where
  | mk {a b : Node} : a.tag = b.tag → a.kind.content = b.kind.content → a.kind.grouping = b.kind.grouping →
      (∀ (i : Nat) (c d : Node), a.kind.slots[i]? = some c → b.kind.slots[i]? = some d → Alike c d) → Alike a b

theorem Alike.refl (n : Node) : Alike n n := by
  induction n using slots_induction with
  | step n ih =>
    refine .mk rfl rfl rfl fun i c d hc hd => ?_
    cases hc.symm.trans hd
    exact ih c (List.mem_of_getElem? hc)

/-! ### What the comparison of two layers sees -/

theorem tag_eq_of_not_differs {a b : Node} (h : a.contentDiffers b = false) : a.tag = b.tag := by
  unfold contentDiffers at h
  split at h
  all_goals first
    | (simp only [tag, *]; rfl)
    | (simp only [Bool.or_eq_false_iff, bne_eq_false_iff_eq] at h; exact h.1)

/-- Nodes whose contents do not differ have the same content, up to the sign of a zero. -/
theorem content_eq_of_not_differs {a b : Node} (h : a.contentDiffers b = false)
    (hz : a.kind.content.zero? = b.kind.content.zero?) : a.kind.content = b.kind.content := by
  have htag := tag_eq_of_not_differs h
  obtain ⟨i, s, k⟩ := a
  obtain ⟨j, t, l⟩ := b
  simp only [tag, kind] at htag hz ⊢
  cases k <;> cases l <;> first | (cases htag; done) | rfl | skip
  all_goals
    simp [contentDiffers, flags, name?, Kind.name?, isDefinition, tag, kind, Kind.tag, Tag.isDefinition, selected] at h
  case literal.literal x y => rw [Constant.eq_of_same h hz]
  all_goals
    simp only [Kind.content, Kind.defined, Content.mk.injEq, List.cons.injEq, Option.some.injEq, and_true, true_and]
    exact h

/-! ### Slots among the children -/

/-- The tokens that stand ahead of what hangs below a node. -/
def leading : Node → List Node
  | .mk owner _ kind =>
    match kind with
    | .classDef mods name .. | .objectDef mods name _ | .valDef mods name .. | .methodDef mods name ..
    | .typeDef mods name .. => modifierTokens owner mods ++ nameTokens owner .name name
    | .bind name _ | .selfType name _ => nameTokens owner .name name
    | .thisRef qual => qual.toList.flatMap (nameTokens owner .name)
    | .importSelector name rename =>
      nameTokens owner .name name ++ rename.toList.flatMap (nameTokens owner .rename)
    | _ => []

/-- The tokens that stand behind what hangs below a node. -/
def trailing : Node → List Node
  | .mk owner _ (.select _ name) => nameTokens owner .name name
  | _ => []

theorem children_eq {n : Node} (h : n.tag ≠ .template) : n.children = n.leading ++ n.kind.slots ++ n.trailing := by
  obtain ⟨owner, span, k⟩ := n
  cases k with
  | template => exact absurd rfl h
  | _ => simp [children, leading, trailing, kind, Kind.slots]

theorem leading_or_trailing_nil (n : Node) :
    (n.tag = .select ∧ n.leading = []) ∨ (n.tag ≠ .select ∧ n.trailing = []) := by
  obtain ⟨owner, span, k⟩ := n
  cases k with
  | select qualifier name => exact .inl ⟨rfl, rfl⟩
  | _ => exact .inr ⟨nofun, rfl⟩

/-- Nodes with the same number of children and the same arrangement have what hangs below them at the same
places among their children. -/
theorem slots_in_children {n b : Node} (htag : n.tag = b.tag) (ht : b.tag ≠ .template)
    (hlen : n.children.length = b.children.length) (hgroup : n.kind.grouping = b.kind.grouping) (i : Nat) :
    ∃ j : Nat, (∀ c, n.kind.slots[i]? = some c → n.children[j]? = some c) ∧
      ∀ d, b.kind.slots[i]? = some d → b.children[j]? = some d := by
  have hslots : n.kind.slots.length = b.kind.slots.length := by
    rw [Kind.length_slots, Kind.length_slots, hgroup]
  have hn := children_eq (htag ▸ ht)
  have hb := children_eq ht
  have hlead : n.leading.length = b.leading.length := by
    rw [hn, hb] at hlen
    simp only [List.length_append] at hlen
    rcases n.leading_or_trailing_nil with ⟨hs, hnil⟩ | ⟨hs, hnil⟩ <;>
      rcases b.leading_or_trailing_nil with ⟨hs', hnil'⟩ | ⟨hs', hnil'⟩
    · rw [hnil, hnil']
    · exact absurd (htag.symm.trans hs) hs'
    · exact absurd (htag.trans hs') hs
    · rw [hnil, hnil'] at hlen
      simp only [List.length_nil] at hlen
      omega
  have place : ∀ (pre post l : List Node) (c : Node), l[i]? = some c →
      (pre ++ l ++ post)[pre.length + i]? = some c := by
    intro pre post l c hc
    have hi := (List.getElem?_eq_some_iff.mp hc).1
    rw [List.append_assoc, List.getElem?_append_right (Nat.le_add_right ..), Nat.add_sub_cancel_left,
      List.getElem?_append_left hi, hc]
  refine ⟨n.leading.length + i, fun c hc => ?_, fun d hd => ?_⟩
  · rw [hn]
    exact place _ _ _ c hc
  · rw [hb, hlead]
    exact place _ _ _ d hd

end Node

/-- Every tree has a place in its file, nodes lie within the nodes above them, and a range and a tag belong to one
node. -/
def Units.Regular (u : Units) : Prop :=
  ∀ file root, u.tree? file = some root →
    (∃ q, root.span = some q ∧ q.file = file) ∧ root.Within ∧ root.Distinct

theorem Units.regular_single {c : CompilationUnit} {q : Span} (hq : c.root.span = some q)
    (hfile : q.file = c.source.name) (hw : c.root.Within) (hd : c.root.Distinct) : (single c).Regular := by
  intro file root hroot
  obtain ⟨c', hc', rfl⟩ := Option.map_eq_some_iff.mp hroot
  have hmem : c' = c := List.mem_singleton.mp (List.mem_of_find?_eq_some hc')
  have hname : c'.source.name == file := List.find?_some (p := fun x : CompilationUnit => x.source.name == file) hc'
  subst hmem
  exact ⟨⟨q, hq, hfile.trans (beq_iff_eq.mp hname)⟩, hw, hd⟩

namespace Region
open Node

/-- The pairs along the slots of an edited tree and its counterpart, as far as discovery compares them. -/
inductive Lined (u : Units) (root base : Node) : Node → Node → Prop where
  | root : Lined u root base root base
  | slot {n b c d : Node} {i : Nat} : Lined u root base n b → n.same b = false → n.kind.slots[i]? = some c →
      b.kind.slots[i]? = some d → Compared u root c d → Lined u root base c d

section Silent
variable {u : Units} {root base n b : Node}

theorem Lined.compared (h : Lined u root base n b) (hcp : u.counterpart? root = some base) : Compared u root n b := by
  cases h with
  | root => exact .root hcp
  | slot _ _ _ _ h => exact h

theorem Lined.alike (h : Lined u root base n b) (halike : Alike root base) : Alike n b := by
  induction h with
  | root => exact halike
  | slot _ _ hc hd _ ih =>
    obtain ⟨_, _, _, hslots⟩ := ih
    exact hslots _ _ _ hc hd

/-- A pair that discovery is silent about is alike if its arrangement is and all pairs in its slots are. -/
theorem alike_of_agrees (hagree : n.Agrees b) (hgroup : n.kind.grouping = b.kind.grouping)
    (hzero : n.kind.content.zero? = b.kind.content.zero?)
    (hslots : ∀ (i : Nat) (c d : Node), n.kind.slots[i]? = some c → b.kind.slots[i]? = some d → Alike c d) :
    Alike n b :=
  .mk (tag_eq_of_not_differs hagree.1) (content_eq_of_not_differs hagree.1 hzero) hgroup hslots

/-- In regular units discovery compares every placed node that hangs outside of a template. -/
theorem compared_slot (hu : u.Regular) (h : Compared u root n b) (hne : n.same b = false) (hagree : n.Agrees b)
    (hgroup : n.kind.grouping = b.kind.grouping) (ht : b.tag ≠ .template) {i : Nat} {c d : Node}
    (hc : n.kind.slots[i]? = some c) (hd : b.kind.slots[i]? = some d) (hplaced : d.span ≠ none) :
    Compared u root c d := by
  obtain ⟨t, hdt⟩ := Option.ne_none_iff_exists'.mp hplaced
  obtain ⟨hlen, hslots⟩ := childrenChanged_eq_false_iff.mp hagree.2
  obtain ⟨j, hcj, hdj⟩ := slots_in_children (tag_eq_of_not_differs hagree.1) ht hlen hgroup i
  have hcj := hcj c hc
  have hdj := hdj d hd
  obtain ⟨q, tree, hq, htree, hb, -⟩ := Units.counterpart?_inv (compared_counterpart h)
  obtain ⟨⟨r, hr, hfile⟩, hw, hdist⟩ := hu q.file tree htree
  have hdmem : d ∈ tree.preorder :=
    mem_preorder_trans (mem_atRange hb).1 (mem_preorder_child (List.mem_of_getElem? hdj))
  have htfile : r.file = t.file := (Span.includes_iff.mp (hw tree tree.mem_preorder_self d hdmem r t hr hdt)).1
  refine .child h hne (List.mem_of_getElem? hcj) ?_
  exact Units.counterpart?_of_sameSlot hw hdist hdmem hdt (by rw [← htfile, hfile, htree]) (hslots j c d hcj hdj)

/-- If nothing escapes comparison without being alike, silence means that all lined up pairs are alike. -/
theorem Lined.alike_of_silent (hcp : u.counterpart? root = some base)
    (hsame : ∀ n b, Lined u root base n b → n.same b → n = b) (hnil : search u root = [])
    (hseen : ∀ n b, Lined u root base n b → n.same b = false →
      n.kind.grouping = b.kind.grouping ∧ n.kind.content.zero? = b.kind.content.zero? ∧
        ∀ (i : Nat) (c d : Node), n.kind.slots[i]? = some c → b.kind.slots[i]? = some d →
          Compared u root c d ∨ Alike c d)
    (h : Lined u root base n b) : Alike n b := by
  induction n using slots_induction generalizing b with
  | step n ih =>
    by_cases hs : n.same b = true
    · rw [hsame n b h hs]
      exact Alike.refl b
    · have hs : n.same b = false := Bool.eq_false_iff.mpr hs
      obtain ⟨hgroup, hzero, hslots⟩ := hseen n b h hs
      refine alike_of_agrees ((h.compared hcp).agrees hnil hs) hgroup hzero fun i c d hc hd => ?_
      rcases hslots i c d hc hd with hcomp | halike
      · exact ih c (List.mem_of_getElem? hc) (.slot h hs hc hd hcomp)
      · exact halike

end Silent

/-- When a silent discovery has missed nothing: the edited tree is alike to its counterpart exactly when all pairs
that are lined up have the same arrangement, and what hangs below them was compared or is alike by itself. In
regular units only nodes without a place and the parts of templates escape comparison. -/
theorem alike_iff_of_silent (u : Units) (root base : Node) (hcp : u.counterpart? root = some base)
    (hsame : ∀ n b, Lined u root base n b → n.same b → n = b) (hnil : find u root = []) :
    (Alike root base ↔ ∀ n b, Lined u root base n b → n.same b = false →
        n.kind.grouping = b.kind.grouping ∧ n.kind.content.zero? = b.kind.content.zero? ∧
          ∀ (i : Nat) (c d : Node), n.kind.slots[i]? = some c → b.kind.slots[i]? = some d →
            Compared u root c d ∨ Alike c d) ∧
      (u.Regular → (Alike root base ↔ ∀ n b, Lined u root base n b → n.same b = false →
        n.kind.grouping = b.kind.grouping ∧ n.kind.content.zero? = b.kind.content.zero? ∧
          ∀ (i : Nat) (c d : Node), n.kind.slots[i]? = some c → b.kind.slots[i]? = some d →
            b.tag = .template ∨ d.span = none → Compared u root c d ∨ Alike c d)) := by
  have hsearch := find_eq_nil_iff.mp hnil
  have alike : Alike root base → ∀ n b, Lined u root base n b →
      n.kind.grouping = b.kind.grouping ∧ n.kind.content.zero? = b.kind.content.zero? ∧
        ∀ (i : Nat) (c d : Node), n.kind.slots[i]? = some c → b.kind.slots[i]? = some d → Alike c d := by
    intro halike n b h
    obtain ⟨_, hcontent, hgroup, hslots⟩ := h.alike halike
    exact ⟨hgroup, by rw [hcontent], hslots⟩
  refine ⟨⟨fun halike n b h _ => ?_, fun hseen => ?_⟩, fun hu => ⟨fun halike n b h _ => ?_, fun hseen => ?_⟩⟩
  · obtain ⟨hgroup, hzero, hslots⟩ := alike halike n b h
    exact ⟨hgroup, hzero, fun i c d hc hd => .inr (hslots i c d hc hd)⟩
  · exact Lined.alike_of_silent hcp hsame hsearch hseen .root
  · obtain ⟨hgroup, hzero, hslots⟩ := alike halike n b h
    exact ⟨hgroup, hzero, fun i c d hc hd _ => .inr (hslots i c d hc hd)⟩
  · refine Lined.alike_of_silent hcp hsame hsearch (fun n b h hne => ?_) .root
    obtain ⟨hgroup, hzero, hslots⟩ := hseen n b h hne
    refine ⟨hgroup, hzero, fun i c d hc hd => ?_⟩
    by_cases hblind : b.tag = .template ∨ d.span = none
    · exact hslots i c d hc hd hblind
    · obtain ⟨ht, hplaced⟩ := not_or.mp hblind
      have hcomp := h.compared hcp
      exact .inl (compared_slot hu hcomp hne (hcomp.agrees hsearch hne) hgroup ht hc hd hplaced)

/-- The definition `def f(a)(b) = c`, with its parameters in some grouping. -/
def curried (serial : Nat) (vparamss : List (List Node)) : Node :=
  .mk (.built serial) (some (.range "A.scala" 0 15)) (.methodDef []
    { text := "f", span := some (.range "A.scala" 4 5) } [] vparamss none (some (letter (serial + 1) "c" 14)))

/-- The unit of that definition. -/
def curriedUnit : CompilationUnit where
  source := { name := "A.scala", text := "def f(a)(b) = c".toList }
  root := curried 0 [[parameter 2 "a" 6], [parameter 3 "b" 9]]

/-- The definition built anew is passed over in silence, and nothing is lost. -/
theorem rebuilt_alike :
    let edited := curried 4 [[parameter 6 "a" 6], [parameter 7 "b" 9]]
    find (.single curriedUnit) edited = [] ∧ Alike edited curriedUnit.root := by
  intro edited
  have hcp : (Units.single curriedUnit).counterpart? edited = some curriedUnit.root := by cbv
  have hnil : find (.single curriedUnit) edited = [] := find_eq_nil_iff.mpr (by cbv)
  refine ⟨hnil, ?_⟩
  have hlined : ∀ n b, Lined (.single curriedUnit) edited curriedUnit.root n b →
      (n = edited ∧ b = curriedUnit.root) ∨ (n.kind.slots = [] ∧ n.same b = false ∧
        n.kind.grouping = b.kind.grouping ∧ n.kind.content.zero? = b.kind.content.zero?) := by
    intro n b h
    induction h with
    | root => exact .inl ⟨rfl, rfl⟩
    | @slot n b c d i _ _ hc hd _ ih =>
      rcases ih with ⟨rfl, rfl⟩ | ⟨hnone, -⟩
      · rcases i with _ | _ | _ | i
        case succ.succ.succ => cases hc
        all_goals
          cases hc
          cases hd
          exact .inr ⟨rfl, rfl, rfl, rfl⟩
      · rw [hnone] at hc
        cases hc
  have hplaced : WellPlaced curriedUnit.root := wellPlaced_of_isWellPlaced (by cbv)
  have hregular : (Units.single curriedUnit).Regular :=
    Units.regular_single rfl rfl hplaced.within hplaced.distinct
  refine ((alike_iff_of_silent _ _ _ hcp ?_ hnil).2 hregular).mpr ?_
  · intro n b h hs
    rcases hlined n b h with ⟨rfl, rfl⟩ | ⟨-, hne, -⟩
    · cases hs
    · rw [hne] at hs
      cases hs
  · intro n b h _
    rcases hlined n b h with ⟨rfl, rfl⟩ | ⟨hnone, -, hgroup, hzero⟩
    · refine ⟨rfl, rfl, fun i c d hc hd hblind => ?_⟩
      rcases i with _ | _ | _ | i
      case succ.succ.succ => cases hc
      all_goals
        cases hd
        rcases hblind with h | h <;> cases h
    · exact ⟨hgroup, hzero, fun i c d hc => by rw [hnone] at hc; cases hc⟩

/-- Two parameter lists made one are passed over in silence as well. -/
theorem regrouped_unseen :
    let edited := curried 4 [[parameter 6 "a" 6, parameter 7 "b" 9]]
    (Units.single curriedUnit).counterpart? edited = some curriedUnit.root ∧
      find (.single curriedUnit) edited = [] ∧ ¬Alike edited curriedUnit.root := by
  intro edited
  refine ⟨by cbv, find_eq_nil_iff.mpr (by cbv), ?_⟩
  rintro ⟨-, -, hgroup, -⟩
  cases hgroup

end Region

end Reprint
