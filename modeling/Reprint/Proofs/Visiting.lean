import Mathlib
import Reprint.Proofs.Descent
import Reprint.Tree.Walk
/-!
What a visitor sees on its walk. A node may stand in several places of a tree, so the places are told apart by their paths
(`sites`). The walk is compared with a pass along these sites from the first to the last, which looks back at what the
visitor said of the nodes above. Main statement: `walk_sees_pruned_preorder`.
-/

namespace Reprint

/-! ### Sites of a tree -/

namespace Node

/-- The nodes of a tree that stands at a path, parents before children, each with its own path. -/
def sites (path : List Nat) (n : Node) : List (List Nat × Node) :=
  (path, n) :: n.children.attach.zipIdx.flatMap fun x => x.1.1.sites (path ++ [x.2])
termination_by n.weight
decreasing_by exact weight_lt_of_mem_children x.1.2

theorem sites_eq (path : List Nat) (n : Node) :
    n.sites path = (path, n) :: n.children.zipIdx.flatMap fun x => x.1.sites (path ++ [x.2]) := by
  have hzip : n.children.zipIdx = n.children.attach.zipIdx.map (Prod.map Subtype.val id) := by
    rw [← List.zipIdx_map, List.attach_map_subtype_val]
  rw [sites, hzip, List.flatMap_map]
  rfl

/-- The sites of a tree are what its paths lead to. -/
theorem mem_sites_iff {n : Node} {path : List Nat} {x : List Nat × Node} :
    x ∈ n.sites path ↔ ∃ p, x.1 = path ++ p ∧ n.at? p = some x.2 := by
  induction n using children_induction generalizing path with
  | step n ih =>
    rw [sites_eq, List.mem_cons, List.mem_flatMap]
    constructor
    · rintro (rfl | ⟨⟨c, i⟩, hc, hx⟩)
      · exact ⟨[], (List.append_nil path).symm, rfl⟩
      · obtain ⟨p, hp, hat⟩ := (ih c (List.fst_mem_of_mem_zipIdx hc)).mp hx
        exact ⟨i :: p, by rw [hp, List.append_assoc]; rfl, at?_cons.mpr ⟨c, List.mem_zipIdx_iff_getElem?.mp hc, hat⟩⟩
    · rintro ⟨_ | ⟨i, p⟩, hp, hat⟩
      · exact .inl (Prod.ext (hp.trans (List.append_nil path)) (Option.some.inj hat).symm)
      · obtain ⟨c, hc, hat⟩ := at?_cons.mp hat
        refine .inr ⟨(c, i), List.mem_zipIdx_iff_getElem?.mpr hc, (ih c (List.mem_of_getElem? hc)).mpr ⟨p, ?_, hat⟩⟩
        rw [hp, List.append_assoc]
        rfl

theorem prefix_of_mem_sites {n : Node} {path : List Nat} {x : List Nat × Node} (h : x ∈ n.sites path) : path <+: x.1 := by
  obtain ⟨p, hp, -⟩ := mem_sites_iff.mp h
  exact ⟨p, hp.symm⟩

theorem map_snd_sites (path : List Nat) (n : Node) : (n.sites path).map Prod.snd = n.preorder := by
  induction n using children_induction generalizing path with
  | step n ih =>
    have hbelow : (n.children.zipIdx.flatMap fun x => (x.1.sites (path ++ [x.2])).map Prod.snd) =
        n.children.zipIdx.flatMap fun x => x.1.preorder :=
      List.flatMap_congr fun x hx => ih x.1 (List.fst_mem_of_mem_zipIdx hx) _
    rw [sites_eq, preorder_eq, List.map_cons, List.map_flatMap, hbelow, ← List.flatMap_map, List.zipIdx_map_fst]

theorem index_unique {path p : List Nat} {i j : Nat} (hi : path ++ [i] <+: p) (hj : path ++ [j] <+: p) : i = j := by
  have heq := (List.prefix_of_prefix_length_le hi hj (by simp)).eq_of_length (by simp)
  exact List.head_eq_of_cons_eq (List.append_cancel_left heq)

theorem not_child_above {path : List Nat} {i : Nat} : ¬path ++ [i] <+: path := fun h => by
  have hlen := h.length_le
  rw [List.length_append] at hlen
  exact Nat.not_succ_le_self _ hlen

/-- No site is at or above the path of an earlier one. -/
theorem pairwise_sites (path : List Nat) (n : Node) : (n.sites path).Pairwise fun x y => ¬y.1 <+: x.1 := by
  induction n using children_induction generalizing path with
  | step n ih =>
    have hindices : (n.children.zipIdx.map Prod.snd).Pairwise (· < ·) := by
      rw [List.zipIdx_map_snd]
      exact List.pairwise_lt_range'
    rw [sites_eq]
    refine List.pairwise_cons.mpr ⟨fun y hy habove => ?_, List.pairwise_flatMap.mpr ⟨fun c hc => ?_, ?_⟩⟩
    · obtain ⟨c, -, hy⟩ := List.mem_flatMap.mp hy
      exact not_child_above ((prefix_of_mem_sites hy).trans habove)
    · exact ih c.1 (List.fst_mem_of_mem_zipIdx hc) _
    · refine (List.pairwise_map.mp hindices).imp fun hlt x hx y hy habove => ?_
      exact hlt.ne (index_unique (prefix_of_mem_sites hx) ((prefix_of_mem_sites hy).trans habove))

end Node

/-! ### Sightings -/

/-- One look at a node: its path, and the state of the visitor ahead of it. -/
structure Sighting (σ : Type) where
  path : List Nat
  node : Node
  state : σ

namespace Sighting
variable {σ : Type}

def site (x : Sighting σ) : List Nat × Node := (x.path, x.node)

def note (x : Sighting σ) : Node × σ := (x.node, x.state)

end Sighting

namespace Visitor
variable {σ : Type}

def answer (v : Visitor σ) (x : Sighting σ) : Bool := (v.visit x.node x.state).1

def next (v : Visitor σ) (x : Sighting σ) : σ := (v.visit x.node x.state).2

/-- The same visitor, taking notes of every node that it sees and of its state ahead of it. -/
def noting (v : Visitor σ) : Visitor (σ × List (Node × σ)) where
  visit n s := ((v.visit n s.1).1, (v.visit n s.1).2, s.2 ++ [(n, s.1)])
  done s := v.done s.1

/-- Each sighting begins in the state that the one before it led to. -/
def Chained (v : Visitor σ) : σ → List (Sighting σ) → σ → Prop
  | s, [], last => s = last
  | s, x :: seen, last => x.state = s ∧ v.Chained (v.next x) seen last

/-- Whether the visitor said of all nodes above a path to go on below them. -/
def admits (v : Visitor σ) (seen : List (Sighting σ)) (path : List Nat) : Bool :=
  (List.range path.length).all fun k => seen.any fun x => x.path == path.take k && v.answer x

theorem walk_eq (v : Visitor σ) (n : Node) (s : σ) : v.walk n s =
    if v.done s then s
    else if (v.visit n s).1 then n.children.foldl (fun s c => v.walk c s) (v.visit n s).2 else (v.visit n s).2 := by
  rw [walk]
  split
  · rfl
  · split
    · next h => rw [h]; rfl
    · next h =>
      rw [h, if_pos rfl]
      exact List.foldl_attach (f := fun s c => v.walk c s)

/-! ### Along the sites -/

/-- Goes on to a site. The visitor looks at it unless it is done, or will not go there. -/
def look (v : Visitor σ) (run : List (Sighting σ) × σ) (x : List Nat × Node) : List (Sighting σ) × σ :=
  if v.done run.2 = false ∧ v.admits run.1 x.1 = true then
    (run.1 ++ [⟨x.1, x.2, run.2⟩], (v.visit x.2 run.2).2)
  else run

section Admits
variable {v : Visitor σ} {seen new : List (Sighting σ)} {path : List Nat}

theorem admits_iff : v.admits seen path = true ↔
    ∀ q, q <+: path → q ≠ path → ∃ x ∈ seen, x.path = q ∧ v.answer x = true := by
  simp only [admits, List.all_eq_true, List.mem_range, List.any_eq_true, Bool.and_eq_true, beq_iff_eq]
  constructor
  · intro h q hq hne
    have hlt : q.length < path.length := lt_of_le_of_ne hq.length_le fun hlen => hne (hq.eq_of_length hlen)
    obtain ⟨x, hx, hpath, hanswer⟩ := h q.length hlt
    exact ⟨x, hx, hpath.trans (List.prefix_iff_eq_take.mp hq).symm, hanswer⟩
  · intro h k hk
    refine h (path.take k) ⟨path.drop k, List.take_append_drop k path⟩ fun heq => ?_
    have hlen := congrArg List.length heq
    rw [List.length_take] at hlen
    omega

theorem admits_append (h : v.admits seen path = true) : v.admits (seen ++ new) path = true :=
  admits_iff.mpr fun q hq hne => by
    obtain ⟨x, hx, hq⟩ := admits_iff.mp h q hq hne
    exact ⟨x, List.mem_append_left _ hx, hq⟩

/-- What was said of nodes that are not above a path does not count. -/
theorem admits_append_iff (h : ∀ x ∈ new, x.path <+: path → x.path = path) :
    v.admits (seen ++ new) path = v.admits seen path := by
  refine Bool.eq_iff_iff.mpr ⟨fun hadmits => admits_iff.mpr fun q hq hne => ?_, admits_append⟩
  obtain ⟨x, hx, rfl, hanswer⟩ := admits_iff.mp hadmits q hq hne
  rcases List.mem_append.mp hx with hx | hx
  · exact ⟨x, hx, rfl, hanswer⟩
  · exact absurd (h x hx hq) hne

end Admits

section Look
variable {v : Visitor σ} {run : List (Sighting σ) × σ} {l : List (List Nat × Node)} {x : List Nat × Node}

theorem look_of_admits (hdone : v.done run.2 = false) (h : v.admits run.1 x.1 = true) :
    v.look run x = (run.1 ++ [⟨x.1, x.2, run.2⟩], (v.visit x.2 run.2).2) := if_pos ⟨hdone, h⟩

theorem look_of_done (h : v.done run.2 = true) : v.look run x = run :=
  if_neg fun hlook => Bool.false_ne_true (hlook.1.symm.trans h)

theorem look_of_barred (h : v.admits run.1 x.1 = false) : v.look run x = run :=
  if_neg fun hlook => Bool.false_ne_true (h.symm.trans hlook.2)

theorem foldl_look_done (h : v.done run.2 = true) : l.foldl v.look run = run := by
  induction l with
  | nil => rfl
  | cons x l ih => rw [List.foldl_cons, look_of_done h, ih]

theorem foldl_look_barred (h : ∀ x ∈ l, v.admits run.1 x.1 = false) : l.foldl v.look run = run := by
  induction l with
  | nil => rfl
  | cons x l ih =>
    obtain ⟨hx, hl⟩ := List.forall_mem_cons.mp h
    rw [List.foldl_cons, look_of_barred hx, ih hl]

theorem foldl_look_append (run : List (Sighting σ) × σ) (l : List (List Nat × Node)) :
    ∃ new, (l.foldl v.look run).1 = run.1 ++ new ∧ ∀ y ∈ new, y.site ∈ l := by
  induction l generalizing run with
  | nil => exact ⟨[], (List.append_nil _).symm, List.forall_mem_nil _⟩
  | cons x l ih =>
    obtain ⟨new, hnew, hmem⟩ := ih (v.look run x)
    rw [List.foldl_cons, hnew, look]
    split
    · refine ⟨⟨x.1, x.2, run.2⟩ :: new, by rw [List.append_assoc]; rfl, List.forall_mem_cons.mpr ⟨?_, fun y hy => ?_⟩⟩
      · exact List.mem_cons_self ..
      · exact List.mem_cons_of_mem _ (hmem y hy)
    · exact ⟨new, rfl, fun y hy => List.mem_cons_of_mem _ (hmem y hy)⟩

end Look

/-! ### The walk goes along the sites -/

section Walk
variable {v : Visitor σ} {n : Node} {path : List Nat} {seen : List (Sighting σ)} {s : σ}

def noted (run : List (Sighting σ) × σ) : σ × List (Node × σ) := (run.2, run.1.map Sighting.note)

theorem visit_noted (path : List Nat) : v.noting.visit n (noted (seen, s)) =
    ((v.visit n s).1, noted (seen ++ [⟨path, n, s⟩], (v.visit n s).2)) := by
  unfold noted
  rw [List.map_append]
  rfl

/-- The walk over a tree to which a visitor goes, and of which it has seen nothing, is a pass along its sites. -/
def PassesAlong (v : Visitor σ) (n : Node) : Prop :=
  ∀ path seen s, v.admits seen path = true → (∀ x ∈ seen, ¬path <+: x.path) →
    v.noting.walk n (noted (seen, s)) = noted ((n.sites path).foldl v.look (seen, s))

theorem foldl_walk_noting {cs : List Node} (hcs : ∀ c ∈ cs, v.PassesAlong c) (k : Nat)
    (hadmits : ∀ i, k ≤ i → v.admits seen (path ++ [i]) = true)
    (hfresh : ∀ i, k ≤ i → ∀ x ∈ seen, ¬path ++ [i] <+: x.path) :
    cs.foldl (fun s c => v.noting.walk c s) (noted (seen, s)) =
      noted (((cs.zipIdx k).flatMap fun x => x.1.sites (path ++ [x.2])).foldl v.look (seen, s)) := by
  -- One child after the other; `k` is the index of the first one left.
  induction cs generalizing k seen s with
  | nil => rfl
  | cons c cs ih =>
    obtain ⟨hc, hcs⟩ := List.forall_mem_cons.mp hcs
    obtain ⟨new, hnew, hmem⟩ := foldl_look_append (v := v) (seen, s) (c.sites (path ++ [k]))
    rw [List.zipIdx_cons, List.flatMap_cons, List.foldl_append, List.foldl_cons,
      hc _ _ _ (hadmits k (Nat.le_refl k)) (hfresh k (Nat.le_refl k))]
    refine ih hcs (k + 1) (fun i hi => ?_) fun i hi x hx => ?_
    · rw [hnew]
      exact admits_append (hadmits i (by omega))
    · rw [hnew] at hx
      rcases List.mem_append.mp hx with hx | hx
      · exact hfresh i (by omega) x hx
      · intro hbelow
        have := Node.index_unique hbelow (Node.prefix_of_mem_sites (hmem x hx))
        omega

theorem not_admits_below {p : List Nat} {i : Nat} (hfresh : ∀ x ∈ seen, ¬path <+: x.path)
    (hanswer : (v.visit n s).1 = false) (hp : path ++ [i] <+: p) : v.admits (seen ++ [⟨path, n, s⟩]) p = false := by
  refine Bool.eq_false_iff.mpr fun hadmits => ?_
  have hne : path ≠ p := fun heq => Node.not_child_above (heq ▸ hp)
  obtain ⟨y, hy, hpath, htrue⟩ := admits_iff.mp hadmits path ((List.prefix_append ..).trans hp) hne
  rcases List.mem_append.mp hy with hy | hy
  · exact hfresh y hy (hpath ▸ List.prefix_rfl)
  · rw [List.mem_singleton.mp hy] at htrue
    exact Bool.false_ne_true (hanswer.symm.trans htrue)

theorem admits_child (hadmits : v.admits seen path = true) (hanswer : (v.visit n s).1 = true) (i : Nat) :
    v.admits (seen ++ [⟨path, n, s⟩]) (path ++ [i]) = true := by
  refine admits_iff.mpr fun q hq hne => ?_
  rcases List.prefix_concat_iff.mp hq with rfl | hq
  · exact absurd rfl hne
  · by_cases heq : q = path
    · exact ⟨⟨path, n, s⟩, List.mem_append_right _ (List.mem_singleton_self _), heq.symm, hanswer⟩
    · obtain ⟨y, hy, hq⟩ := admits_iff.mp hadmits q hq heq
      exact ⟨y, List.mem_append_left _ hy, hq⟩

theorem passesAlong (v : Visitor σ) (n : Node) : v.PassesAlong n := by
  induction n using Node.children_induction with
  | step n ih =>
    intro path seen s hadmits hfresh
    rw [walk_eq, Node.sites_eq, List.foldl_cons]
    by_cases hdone : v.done s = true
    · rw [look_of_done hdone, foldl_look_done hdone]
      exact if_pos hdone
    · rw [look_of_admits (Bool.eq_false_iff.mpr hdone) hadmits,
        if_neg (show ¬v.noting.done (noted (seen, s)) = true from hdone), visit_noted path]
      cases hanswer : (v.visit n s).1 with
      | false =>
        rw [foldl_look_barred fun x hx => ?_]
        · rfl
        · obtain ⟨c, -, hx⟩ := List.mem_flatMap.mp hx
          exact not_admits_below hfresh hanswer (Node.prefix_of_mem_sites hx)
      | true =>
        refine foldl_walk_noting ih 0 (fun i _ => admits_child hadmits hanswer i) fun i _ x hx hbelow => ?_
        rcases List.mem_append.mp hx with hx | hx
        · exact hfresh x hx ((List.prefix_append ..).trans hbelow)
        · rw [List.mem_singleton.mp hx] at hbelow
          exact Node.not_child_above hbelow

theorem walk_noting_fst (v : Visitor σ) (n : Node) (t : σ × List (Node × σ)) : (v.noting.walk n t).1 = v.walk n t.1 := by
  induction n using Node.children_induction generalizing t with
  | step n ih =>
    have hloop : ∀ (cs : List Node) (t : σ × List (Node × σ)), (∀ c ∈ cs, c ∈ n.children) →
        (cs.foldl (fun s c => v.noting.walk c s) t).1 = cs.foldl (fun s c => v.walk c s) t.1 := by
      intro cs
      induction cs with
      | nil => exact fun _ _ => rfl
      | cons c cs ihcs =>
        intro t hcs
        obtain ⟨hc, hcs⟩ := List.forall_mem_cons.mp hcs
        rw [List.foldl_cons, List.foldl_cons, ihcs _ hcs, ih c hc]
    rw [walk_eq, walk_eq, apply_ite Prod.fst, apply_ite Prod.fst, hloop _ _ fun _ hc => hc]
    rfl

end Walk

/-! ### What is seen -/

/-- The same visitor, who never ends a walk. -/
def tireless (v : Visitor σ) : Visitor σ := { v with done := fun _ => false }

/-- Sightings of all sites of a tree to which a visitor goes, parents before children, with states handed on. -/
structure Pruned (v : Visitor σ) (root : Node) (s : σ) (all : List (Sighting σ)) : Prop where
  order : all.map Sighting.site = (root.sites []).filter fun x => v.admits all x.1
  states : ∃ last, v.Chained s all last

/-- The sightings up to the first state in which the visitor is done. -/
def untilDone (v : Visitor σ) (all : List (Sighting σ)) : List (Sighting σ) := all.takeWhile fun x => !v.done x.state

/-- A pass beside one that never ends: they have come equally far, or the visitor is done and the other has gone on from
there. -/
structure Halts (v : Visitor σ) (run all : List (Sighting σ) × σ) : Prop where
  awake : ∀ x ∈ run.1, v.done x.state = false
  behind : run = all ∨ v.done run.2 = true ∧ ∃ y rest, all.1 = run.1 ++ y :: rest ∧ y.state = run.2

section Seen
variable {v : Visitor σ} {seen : List (Sighting σ)} {s : σ} {l : List (List Nat × Node)}
  {run all : List (Sighting σ) × σ}

theorem Chained.concat {x : Sighting σ} (h : v.Chained s seen x.state) : v.Chained s (seen ++ [x]) (v.next x) := by
  induction seen generalizing s with
  | nil => exact ⟨h.symm, rfl⟩
  | cons y seen ih => exact ⟨h.1, ih h.2⟩

theorem Chained.of_tireless {last : σ} (h : v.tireless.Chained s seen last) : v.Chained s seen last := by
  induction seen generalizing s with
  | nil => exact h
  | cons x seen ih => exact ⟨h.1, ih h.2⟩

theorem chained_foldl_look (v : Visitor σ) (s : σ) (l : List (List Nat × Node)) :
    v.Chained s (l.foldl v.look ([], s)).1 (l.foldl v.look ([], s)).2 := by
  induction l using List.reverseRecOn with
  | nil => rfl
  | append_singleton l x ih =>
    rw [List.foldl_append, List.foldl_cons, List.foldl_nil, look]
    split
    · exact Chained.concat (x := ⟨x.1, x.2, _⟩) ih
    · exact ih

/-- Along sites of which none is above an earlier one, all are seen to which the visitor goes. -/
theorem filter_foldl_look (hl : l.Pairwise fun x y => ¬y.1 <+: x.1) :
    (l.foldl v.tireless.look ([], s)).1.map Sighting.site =
      l.filter fun x => v.admits (l.foldl v.tireless.look ([], s)).1 x.1 := by
  induction l using List.reverseRecOn with
  | nil => rfl
  | append_singleton l x ih =>
    obtain ⟨hl, -, hlast⟩ := List.pairwise_append.mp hl
    have ih := ih hl
    rw [List.foldl_append, List.foldl_cons, List.foldl_nil]
    generalize l.foldl v.tireless.look ([], s) = run at ih
    -- What is said of the last node matters to none of the sites.
    have hsame : ∀ y ∈ l ++ [x], v.admits (run.1 ++ [⟨x.1, x.2, run.2⟩]) y.1 = v.admits run.1 y.1 := by
      refine fun y hy => admits_append_iff fun z hz habove => ?_
      rw [List.mem_singleton.mp hz] at habove ⊢
      rcases List.mem_append.mp hy with hy | hy
      · exact absurd habove (hlast y hy x (List.mem_singleton_self x))
      · rw [List.mem_singleton.mp hy]
    cases h : v.admits run.1 x.1 with
    | true =>
      rw [look_of_admits (v := v.tireless) rfl h, List.filter_congr hsame, List.filter_append, ← ih, List.map_append,
        List.filter_singleton, h]
      rfl
    | false => rw [look_of_barred (v := v.tireless) h, List.filter_append, ← ih, List.filter_singleton, h, cond_false,
        List.append_nil]

theorem Halts.look (h : v.Halts run all) (x : List Nat × Node) : v.Halts (v.look run x) (v.tireless.look all x) := by
  cases hdone : v.done run.2 with
  | true =>
    rw [look_of_done hdone]
    refine ⟨h.awake, ?_⟩
    rcases h.behind with rfl | ⟨-, y, rest, hall, hy⟩
    · cases hadmits : v.admits run.1 x.1 with
      | true =>
        rw [look_of_admits (v := v.tireless) rfl hadmits]
        exact .inr ⟨hdone, ⟨x.1, x.2, run.2⟩, [], rfl, rfl⟩
      | false => exact .inl (look_of_barred (v := v.tireless) hadmits).symm
    · obtain ⟨new, hnew, -⟩ := foldl_look_append (v := v.tireless) all [x]
      rw [List.foldl_cons, List.foldl_nil] at hnew
      refine .inr ⟨hdone, y, rest ++ new, ?_, hy⟩
      rw [hnew, hall, List.append_assoc]
      rfl
  | false =>
    obtain rfl : run = all := h.behind.resolve_right fun hbehind => Bool.false_ne_true (hdone.symm.trans hbehind.1)
    cases hadmits : v.admits run.1 x.1 with
    | true =>
      rw [look_of_admits hdone hadmits, look_of_admits (v := v.tireless) rfl hadmits]
      refine ⟨fun y hy => ?_, .inl rfl⟩
      rcases List.mem_append.mp hy with hy | hy
      · exact h.awake y hy
      · rw [List.mem_singleton.mp hy]
        exact hdone
    | false =>
      rw [look_of_barred hadmits, look_of_barred (v := v.tireless) hadmits]
      exact h

theorem Halts.foldl_look (h : v.Halts run all) (l : List (List Nat × Node)) :
    v.Halts (l.foldl v.look run) (l.foldl v.tireless.look all) := by
  induction l generalizing run all with
  | nil => exact h
  | cons x l ih => exact ih (h.look x)

theorem Halts.untilDone_eq (h : v.Halts run all) : v.untilDone all.1 = run.1 := by
  have hkept : ∀ x ∈ run.1, (!v.done x.state) = true := fun x hx => by
    rw [h.awake x hx]
    rfl
  rcases h.behind with rfl | ⟨hdone, y, rest, hall, hy⟩
  · exact List.takeWhile_eq_self_iff.mpr hkept
  · have hstop : ¬(!v.done y.state) = true := by
      rw [hy, hdone]
      exact Bool.false_ne_true
    rw [untilDone, hall, List.takeWhile_append_of_pos hkept, List.takeWhile_cons, if_neg hstop, List.append_nil]

/-- Sightings of all sites to which a visitor goes, with states handed on, are the ones made along the sites. -/
theorem eq_foldl_look {other rest : List (Sighting σ)}
    (hl : l.Pairwise fun x y => ¬y.1 <+: x.1) (hother : other = run.1 ++ rest)
    (horder : rest.map Sighting.site = l.filter fun x => v.admits other x.1) (hstates : ∃ last, v.Chained run.2 rest last) :
    other = (l.foldl v.tireless.look run).1 := by
  induction l generalizing run rest with
  | nil =>
    rw [List.filter_nil, List.map_eq_nil_iff] at horder
    rw [hother, horder, List.append_nil]
    rfl
  | cons x l ih =>
    obtain ⟨hx, hbehind⟩ := List.pairwise_cons.mp hl
    -- Whatever is seen later is not above `x`.
    have hsame : v.admits other x.1 = v.admits run.1 x.1 := by
      rw [hother]
      refine admits_append_iff fun y hy habove => ?_
      have hsite : y.site ∈ x :: l := (List.mem_filter.mp (horder ▸ List.mem_map_of_mem hy)).1
      rcases List.mem_cons.mp hsite with heq | hsite
      · exact congrArg Prod.fst heq
      · exact absurd habove (hx y.site hsite)
    rw [List.foldl_cons]
    cases h : v.admits run.1 x.1 with
    | true =>
      rw [List.filter_cons, if_pos (hsame.trans h)] at horder
      obtain ⟨y, later, rfl, rfl, hlater⟩ := List.map_eq_cons_iff.mp horder
      obtain ⟨last, hstate, hstates⟩ := hstates
      rw [look_of_admits (v := v.tireless) rfl h, ← hstate]
      refine ih hbehind ?_ hlater ⟨last, hstates⟩
      rw [hother, List.append_assoc]
      rfl
    | false =>
      rw [List.filter_cons, if_neg (by rw [hsame, h]; exact Bool.false_ne_true)] at horder
      rw [look_of_barred (v := v.tireless) h]
      exact ih hbehind hother horder hstates

end Seen

/-! ### Main statement -/

/-- The sightings of a visitor. The sites of a tree are its nodes, parents before children, each with a path of its own that
leads to it. There is one list of sightings of exactly those sites of which the visitor says of all nodes above to go on
below them, with states handed on from one sighting to the next. On its walk the visitor sees the beginning of this list, up
to the first state in which it is done, and nothing in or behind such a state. -/
theorem walk_sees_pruned_preorder (v : Visitor σ) (root : Node) (s : σ) :
    (root.sites []).map Prod.snd = root.preorder ∧ ((root.sites []).map Prod.fst).Nodup ∧
      (∀ path n, (path, n) ∈ root.sites [] ↔ root.at? path = some n) ∧
      ∃ all, v.Pruned root s all ∧ (∀ other, v.Pruned root s other → other = all) ∧
        v.noting.walk root (s, []) = (v.walk root s, (v.untilDone all).map Sighting.note) ∧
        v.Chained s (v.untilDone all) (v.walk root s) ∧ (∀ x ∈ v.untilDone all, v.done x.state = false) ∧
        (v.untilDone all = all ∨ v.done (v.walk root s) = true) := by
  have hsites := Node.pairwise_sites [] root
  have hnodup : ((root.sites []).map Prod.fst).Nodup :=
    List.pairwise_map.mpr (hsites.imp fun {x y} h (heq : x.1 = y.1) => h (heq ▸ List.prefix_rfl))
  have hmem : ∀ path n, (path, n) ∈ root.sites [] ↔ root.at? path = some n := fun path n => by
    simp [Node.mem_sites_iff]
  have hpass : v.noting.walk root (s, []) = noted ((root.sites []).foldl v.look ([], s)) :=
    passesAlong v root [] [] s rfl (List.forall_mem_nil _)
  have hlast : v.walk root s = ((root.sites []).foldl v.look ([], s)).2 := by
    rw [← walk_noting_fst v root (s, []), hpass]
    rfl
  have hstart : v.Halts ([], s) ([], s) := ⟨List.forall_mem_nil _, .inl rfl⟩
  have hhalts := hstart.foldl_look (root.sites [])
  have hpruned : v.Pruned root s ((root.sites []).foldl v.tireless.look ([], s)).1 :=
    ⟨filter_foldl_look hsites, _, (chained_foldl_look v.tireless s _).of_tireless⟩
  refine ⟨Node.map_snd_sites [] root, hnodup, hmem, _, hpruned, fun other hother => ?_, ?_⟩
  · obtain ⟨last, hstates⟩ := hother.states
    exact eq_foldl_look hsites (List.nil_append other).symm hother.order ⟨last, hstates⟩
  · rw [hhalts.untilDone_eq, hlast]
    exact ⟨hpass, chained_foldl_look v s _, hhalts.awake, hhalts.behind.imp (congrArg Prod.fst) And.left⟩

end Visitor

end Reprint
