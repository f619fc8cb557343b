import Reprint.Proofs.Assembly
/-!
Nodes that have lost some children of a list. What such a node is printed as depends on who brings the brackets of the
list along: in a call, a match and a block it is the node itself, or a child that stays. The parenthesis that closes
the parameters of a function belongs to the last of them, and the brace that opens the selectors of an import to the
first.
-/

namespace Reprint

/-- A layer without the list elements that are not kept. -/
def Kind.thinned (keep : Node → Bool) : Kind Node → Kind Node
  | .apply callee args => .apply callee (args.filter keep)
  | .methodDef mods name tparams vparamss tpt rhs => .methodDef mods name tparams (vparamss.map (·.filter keep)) tpt rhs
  | .lambda params body => .lambda (params.filter keep) body
  | .importDecl expr selectors => .importDecl expr (selectors.filter keep)
  | .matchExpr selector cases => .matchExpr selector (cases.filter keep)
  | .block stats => .block (stats.filter keep)
  | k => k

/-- An identity that neither a node of a tree nor one of its tokens has. -/
def Identity.Fresh (i : Identity) (root : Node) : Prop :=
  ∀ b ∈ root.preorder, b.identity ≠ i ∧ ∀ p, b.identity ≠ .part i p

namespace Row

/-- What stands behind the last child of a row, or else all of it. -/
def lastGap (r : Row) : Text := (r.cells.getLast?.map (·.gap)).getD r.head

section LastGap
variable {r : Row} {n : Node} {t : Text} {x : Node × Text} {l : List (Node × Text)}

@[simp] theorem lastGap_child : (child n t r).lastGap = r.lastGap := by
  rw [lastGap, lastGap, child, List.getLast?_cons]
  cases r.cells.getLast? <;> rfl

@[simp] theorem lastGap_mark_child {m : Text} : (mark m (child n t r)).lastGap = r.lastGap := lastGap_child

@[simp] theorem lastGap_mark_nil : (mark t nil).lastGap = t := List.append_nil t

@[simp] theorem lastGap_list : (list (x :: l) r).lastGap = r.lastGap := by
  induction l generalizing x with
  | nil => exact lastGap_child
  | cons y l ih =>
    obtain ⟨n, t, r', hlist⟩ : ∃ n t r', list (y :: l) r = child n t r' := by cases l <;> exact ⟨_, _, _, rfl⟩
    rw [list, lastGap_child, hlist, lastGap_mark_child, ← lastGap_child, ← hlist, ih]

@[simp] theorem lastGap_mark_list {m : Text} : (mark m (list (x :: l) r)).lastGap = r.lastGap := by
  obtain ⟨n, t, r', hlist⟩ : ∃ n t r', list (x :: l) r = child n t r' := by cases l <;> exact ⟨_, _, _, rfl⟩
  rw [hlist, lastGap_mark_child, ← lastGap_child, ← hlist, lastGap_list]

@[simp] theorem lastGap_lines : (lines (x :: l) r).lastGap = r.lastGap := by
  induction l generalizing x with
  | nil => exact lastGap_child
  | cons y l ih => exact (lastGap_mark_child (n := x.1)).trans ih

end LastGap

/-- The text of a node that is put together again. -/
def remade (r : Row) (n edited : Node) (lineBreak : Text) (l : List (Node × Text)) : Text :=
  Printer.assemble edited lineBreak none (Gap.splitLeading n r.head).1 l ++ (Gap.splitTrailing r.lastGap).2

end Row

namespace Node

/-- A new node without the list elements that are not kept. -/
def thinned (i : Identity) (keep : Node → Bool) (n : Node) : Node := .mk i n.span (n.kind.thinned keep)

/-- A token as the token of another owner. -/
def renewed (i : Identity) : Node → Node
  | .mk (.part _ p) s (.nameToken name) => .mk (.part i p) s (.nameToken name)
  | .mk (.part _ p) s (.modifierToken flag) => .mk (.part i p) s (.modifierToken flag)
  | n => n

theorem renewed_of_isSimple {i : Identity} {n : Node} (h : n.isSimple = true) : n.renewed i = n := by
  obtain ⟨hkind, -⟩ := isSimple_iff.mp h
  unfold renewed
  split
  · cases hkind
  · cases hkind
  · rfl

theorem standsFor_renewed {i : Identity} {edited b : Node} (h : edited.identity = i) :
    edited.StandsFor (b.renewed i) b := by
  have hother : ∀ s k p, edited.same (.mk (.part i p) s k) = false := by
    intro s k p
    refine beq_false_of_ne fun heq => ?_
    have hsize := congrArg sizeOf (h.symm.trans heq)
    simp [identity] at hsize
    omega
  unfold renewed
  split
  · next p s name =>
    have hslot := sameSlot_refl (.mk (.part i p) s (.nameToken name))
    exact .inr ⟨hother _ _ _, Bool.and_eq_true_iff.mpr ⟨hslot, by simp [contentDiffers, kind]⟩, rfl, rfl⟩
  · next p s flag =>
    have hslot := sameSlot_refl (.mk (.part i p) s (.modifierToken flag))
    exact .inr ⟨hother _ _ _, Bool.and_eq_true_iff.mpr ⟨hslot, by simp [contentDiffers, kind]⟩, rfl, rfl⟩
  · exact .inl rfl

/-- A node in the place of a written one, which has some of its children. Of the middle ones some may be missing, and
tokens at the front are tokens of the new node. -/
structure Thins (n : Node) (r : Row) (edited : Node) (keep : Node → Bool) (front middle back : List (Node × Text)) :
    Prop where
  slot : edited.sameSlot n
  other : edited.same n = false
  shares : Row.shares n r.head none r.cells = front ++ middle ++ back
  children : edited.children =
    front.map (fun x => x.1.renewed edited.identity) ++ (middle.filter (keep ·.1) ++ back).map (·.1)

/-- The children of the new node with the texts they bring along. -/
def keptShares (edited : Node) (keep : Node → Bool) (front middle back : List (Node × Text)) : List (Node × Text) :=
  front.map (fun x => (x.1.renewed edited.identity, x.2)) ++ (middle.filter (keep ·.1) ++ back)

namespace Thins
variable {n edited : Node} {r : Row} {keep : Node → Bool} {front middle back : List (Node × Text)}

theorem remade (h : Thins n r edited keep front middle back) : ∃ picks, CompilationUnit.Remade n r edited picks ∧
    (picks.map fun k => (k.node, k.text)) = keptShares edited keep front middle back := by
  refine ⟨front.map (fun x => ⟨x.1.renewed edited.identity, x.1, x.2⟩) ++
    (middle.filter (keep ·.1) ++ back).map fun x => ⟨x.1, x.1, x.2⟩, ⟨h.slot, h.other, ?_, ?_⟩, ?_⟩
  · rw [h.children]
    simp [Function.comp_def]
  · intro k hk
    rw [h.shares]
    rcases List.mem_append.mp hk with hk | hk
    · obtain ⟨x, hx, rfl⟩ := List.mem_map.mp hk
      exact ⟨standsFor_renewed rfl, by simp [hx]⟩
    · obtain ⟨x, hx, rfl⟩ := List.mem_map.mp hk
      refine ⟨.inl rfl, ?_⟩
      rcases List.mem_append.mp hx with hx | hx
      · simp [(List.mem_filter.mp hx).1]
      · simp [hx]
  · simp [keptShares, Function.comp_def]

theorem children_base (h : Thins n r edited keep front middle back) (hn : n.children = r.cells.map (·.node)) :
    n.children = (front ++ middle ++ back).map (·.1) := by
  rw [hn, ← h.shares, Row.map_fst_shares]

/-- Where a child is missing, the node has changed. -/
theorem changed (h : Thins n r edited keep front middle back) (hn : n.children = r.cells.map (·.node))
    (hmissing : ∃ x ∈ middle, keep x.1 = false) :
    edited.childrenChanged n = true ∧ edited.replaced? n = none := by
  have hlength : (edited.children.length == n.children.length) = false := by
    obtain ⟨x, hx, hkeep⟩ := hmissing
    have hlt : (middle.filter (keep ·.1)).length < middle.length :=
      List.length_filter_lt_length_iff_exists.mpr ⟨x, hx, by simp [hkeep]⟩
    rw [h.children, h.children_base hn]
    simp only [List.length_append, List.length_map, beq_eq_false_iff_ne]
    omega
  constructor
  · rw [childrenChanged, bne, hlength]
    rfl
  · rw [replaced?, hlength, Bool.and_false]
    rfl

/-- Where no child is missing, none has changed. -/
theorem unchanged (h : Thins n r edited keep front [] back) (hn : n.children = r.cells.map (·.node)) :
    edited.childrenChanged n = false := by
  have hstands : ∀ x : Node × Text, edited.StandsFor (x.1.renewed edited.identity) x.1 := fun x => standsFor_renewed rfl
  have hslot : ∀ x : Node × Text, (x.1.renewed edited.identity).sameSlot x.1 = true := fun x => (hstands x).slot
  have hself : ∀ x : Node × Text, x.1.sameSlot x.1 = true := fun x => sameSlot_refl x.1
  rw [childrenChanged, h.children, h.children_base hn]
  simp only [List.filter_nil, List.nil_append, List.append_nil, List.map_append, List.length_append, List.length_map,
    bne_self_eq_false, Bool.false_or, List.any_eq_false]
  rw [List.zip_append (by simp), List.zip_map', List.zip_map']
  intro x hx
  rcases List.mem_append.mp hx with hx | hx
  · obtain ⟨y, -, rfl⟩ := List.mem_map.mp hx
    simp [hslot y]
  · obtain ⟨y, -, rfl⟩ := List.mem_map.mp hx
    simp [hself y]

end Thins

/-! ### Texts and identities -/

section Facts
variable {n : Node} {keep : Node → Bool}

theorem neutral_written (h : n.isSimple = true) (role : Role) : Text.Neutral (n.written role).2 :=
  Text.neutral_brackets.mp (Doc.brackets_render {} _ ▸ neutral_code h role)

theorem neutral_indented (h : n.isSimple = true) : Text.Neutral n.indented.2 :=
  Text.neutral_brackets.mp (Doc.brackets_render {} _ ▸ (neutral_code h .plain).nest)

theorem tag_ne_of_isSimple (h : n.isSimple = true) : n.tag ≠ .modifierToken := by
  intro htag
  have hkind := (isSimple_iff.mp h).1
  simp only [Kind.isSimple, Bool.and_eq_true, Bool.not_eq_true'] at hkind
  rw [show n.kind.tag = .modifierToken from htag] at hkind
  cases hkind.1.1

theorem sameSlot_thinned (i : Identity) : (n.thinned i keep).sameSlot n := by
  have htag : (n.thinned i keep).tag = n.tag := by
    obtain ⟨o, s, k⟩ := n
    cases k <;> rfl
  have hslot := sameSlot_refl n
  rw [sameSlot, beq_self_eq_true, Bool.true_and] at hslot
  rw [sameSlot, htag, beq_self_eq_true, Bool.true_and]
  exact hslot

/-- No two children of a node have the same identity. -/
theorem Single.nodup_children (h : Single n) : (n.children.map identity).Nodup := by
  rw [List.Nodup, List.pairwise_map, List.pairwise_iff_getElem]
  intro i j hi hj hij
  have := h.children hij (List.getElem?_eq_getElem hi) (List.getElem?_eq_getElem hj)
  simpa [same] using this

theorem exists_dropped {l : List Node} (h : l.filter keep ≠ l) : ∃ a ∈ l, keep a = false := by
  by_contra hall
  refine h (List.filter_eq_self.mpr fun a ha => ?_)
  by_contra hkeep
  exact hall ⟨a, ha, by simpa using hkeep⟩

end Facts

/-! ### Brackets of thinned nodes -/

/-- A node that has lost children keeps its brackets in balance exactly if `kept` holds. -/
def BalancedIff (n : Node) (r : Row) (edited : Node) (keep : Node → Bool) (lineBreak : Text) (kept : Bool) : Prop :=
  ∃ front middle back, Thins n r edited keep front middle back ∧ (∃ x ∈ middle, keep x.1 = false) ∧
    (keptShares edited keep front middle back ≠ [] →
      (Text.Balanced (r.remade n edited lineBreak (keptShares edited keep front middle back)) ↔ kept = true))

section Simple
open Text Row
variable {n : Node} {r : Row} {i : Identity} {keep : Node → Bool} {lineBreak u u' v v' ahead behind : Text} {kept : Bool}
  {l : List Node} {front middle back xs : List (Node × Text)}

/-- Nodes without tokens, where no separator writes a bracket. -/
theorem balancedIff_of_simple (hleading : Gap.splitLeading n r.head = (u, u'))
    (htrailing : Gap.splitTrailing r.lastGap = (v', v)) (hi : i ≠ n.identity) (hfront : ∀ x ∈ front, x.1.isSimple = true)
    (hshares : Row.shares n r.head none r.cells = front ++ middle ++ back) (hmiddle : middle.map (·.1) = l)
    (hdel : l.filter keep ≠ l)
    (hchildren : (n.thinned i keep).children = front.map (·.1) ++ (l.filter keep ++ back.map (·.1)))
    (hquiet : Printer.Quiet (n.thinned i keep) lineBreak u (front ++ (middle.filter (keep ·.1) ++ back)))
    (hclose : close [] (brackets u ++ (bracketsOf front ++ (bracketsOf (middle.filter (keep ·.1)) ++ bracketsOf back)) ++
      brackets v) = some [] ↔ kept = true) :
    BalancedIff n r (n.thinned i keep) keep lineBreak kept := by
  have hrenewed : ∀ x ∈ front, x.1.renewed i = x.1 := fun x hx => renewed_of_isSimple (hfront x hx)
  have hkept : keptShares (n.thinned i keep) keep front middle back = front ++ (middle.filter (keep ·.1) ++ back) := by
    rw [keptShares, List.map_congr_left fun x hx => by rw [show (n.thinned i keep).identity = i from rfl, hrenewed x hx]]
    exact congrArg (· ++ _) (List.map_id front)
  refine ⟨front, middle, back, ⟨sameSlot_thinned i, beq_false_of_ne hi, hshares, ?_⟩, ?_, fun _ => ?_⟩
  · rw [hchildren, ← hmiddle, List.filter_map, List.map_append]
    exact congrArg (· ++ _) (List.map_congr_left fun x hx => (hrenewed x hx).symm)
  · obtain ⟨a, ha, hkeep⟩ := exists_dropped hdel
    obtain ⟨x, hx, rfl⟩ := List.mem_map.mp (hmiddle ▸ ha)
    exact ⟨x, hx, hkeep⟩
  · rw [hkept, ← hclose, Text.Balanced, ← close_brackets, Row.remade, hleading, htrailing, brackets_append, hquiet,
      bracketsOf_append, bracketsOf_append]

/-- A list with brackets ahead of it and behind it. -/
theorem balancedIff_of_list (hleading : Gap.splitLeading n r.head = (u, u'))
    (htrailing : Gap.splitTrailing r.lastGap = (v', v)) (hi : i ≠ n.identity) (hfront : ∀ x ∈ front, x.1.isSimple = true)
    (hshares : Row.shares n r.head none r.cells = front ++ listShares ahead behind xs ++ back)
    (hxs : xs.map (·.1) = l) (hneutral : ∀ x ∈ xs, Neutral x.2) (hdel : l.filter keep ≠ l)
    (hchildren : (n.thinned i keep).children = front.map (·.1) ++ (l.filter keep ++ back.map (·.1)))
    (hquiet : Printer.Quiet (n.thinned i keep) lineBreak u
      (front ++ ((listShares ahead behind xs).filter (keep ·.1) ++ back)))
    (hclose : close [] (brackets u ++ (bracketsOf front ++ ((bif l.head?.any keep then brackets ahead else []) ++
      (bif l.getLast?.any keep then brackets behind else []) ++ bracketsOf back)) ++ brackets v) = some [] ↔ kept = true) :
    BalancedIff n r (n.thinned i keep) keep lineBreak kept := by
  refine balancedIff_of_simple hleading htrailing hi hfront hshares (map_fst_listShares.trans hxs) hdel hchildren hquiet ?_
  rw [← hclose]
  subst hxs
  simp only [close_append, close_kept keep _ _ hneutral, List.head?_map, List.getLast?_map, Option.any_map]

end Simple

section Kinds
open Text Row Separator
variable {o i : Identity} {s : Option Span} {keep : Node → Bool} {lineBreak : Text} {r : Row}

/-- What is kept of a list belongs to it. -/
theorem fst_mem_of_kept {ahead behind : Text} {role : Role} {l : List Node} {x : Node × Text}
    (h : x ∈ (listShares ahead behind (l.map (written role))).filter (keep ·.1) ++ []) : x.1 ∈ l := by
  rw [List.append_nil] at h
  have hmem := List.mem_map_of_mem (f := (·.1)) (List.mem_filter.mp h).1
  rw [map_fst_listShares] at hmem
  simpa [Function.comp_def] using hmem

theorem balancedIff_apply {callee : Node} {args : List Node} (hsimple : (mk o s (.apply callee args)).isSimple = true)
    (hids : ((mk o s (.apply callee args)).children.map identity).Nodup) (hi : i ≠ o) (hdel : args.filter keep ≠ args)
    (hrow : (mk o s (.apply callee args)).row? = some r) :
    BalancedIff (mk o s (.apply callee args)) r ((mk o s (.apply callee args)).thinned i keep) keep lineBreak true := by
  obtain ⟨-, hslots⟩ := isSimple_iff.mp hsimple
  have hcallee := hslots callee (List.mem_cons_self ..)
  have hargs : ∀ x ∈ args.map (written .plain), Neutral x.2 :=
    List.forall_mem_map.mpr fun a ha => neutral_written (hslots a (List.mem_cons_of_mem _ ha)) _
  have hother : ∀ x ∈ args, callee.same x = false := fun x hx => beq_false_of_ne fun heq =>
    (List.nodup_cons.mp hids).1 (heq ▸ List.mem_map_of_mem hx)
  cases args with
  | nil => exact absurd rfl hdel
  | cons a args =>
    cases hrow
    have hlead : Gap.splitLeading (mk o s (.apply callee (a :: args))) [] = ([], []) := Gap.splitLeading_nil _
    have hclose : Gap.splitTrailing [')'] = ([], [')']) := Gap.splitTrailing_code (by decide) (by decide) rfl
    have hsplit : ∀ right, Gap.splitBetween ['('] { parent := mk o s (.apply callee (a :: args)), left := callee, right } =
        (['('], []) := fun right => Gap.splitBetween_paren .none (tag_ne_of_isSimple hcallee)
    have hshares : shares (mk o s (.apply callee (a :: args))) [] none (child callee ((callee.code .plain).render {})
        (mark ['('] (list ((a :: args).map (written .plain)) (mark [')'] nil)))).cells =
          [(callee, (callee.written .plain).2 ++ ['('])] ++ listShares [] [] ((a :: args).map (written .plain)) ++ [] := by
      rw [List.map_cons, shares_child_list hsplit]
      simp [lead, trail, mark, nil, shares, hlead, hclose, written]
    refine balancedIff_of_list hlead (v := [')']) (by simpa using hclose) hi (List.forall_mem_singleton.mpr hcallee) hshares
      (l := a :: args) (by simp [Function.comp_def]) hargs hdel (by simp [thinned, Kind.thinned, kind, children]) ?_ ?_
    · refine Printer.quiet_cons (fun y _ => .inr ?_) (List.pairwise_of_forall_mem_list fun x hx y _ => ?_)
      · have hsep : between ((mk o s (.apply callee (a :: args))).thinned i keep) callee y.1 = token "(" :=
          if_pos (same_refl callee)
        rw [hsep]
        exact present_token (by decide) rfl ⟨(callee.written .plain).2, rfl⟩
      · have hsep : between ((mk o s (.apply callee (a :: args))).thinned i keep) x.1 y.1 = token ", " :=
          if_neg (by simp [hother x.1 (fst_mem_of_kept hx)])
        rw [hsep]
        rfl
    · have hneutral := neutral_brackets.mpr (neutral_written hcallee .plain)
      refine iff_of_true ?_ rfl
      simp only [brackets_nil, Bool.cond_self, bracketsOf_cons, bracketsOf_nil, brackets_append, close_append, hneutral _]
      rfl

/-- A function with `h` ahead of its parameters and `m` behind them, which the last parameter brings along. -/
theorem balancedIff_params {p : Node} {params : List Node} {body : Node} {h m u : Text} {kept : Bool}
    (hsimple : (mk o s (.lambda (p :: params) body)).isSimple = true) (hi : i ≠ o)
    (hdel : (p :: params).filter keep ≠ p :: params)
    (hleading : Gap.splitLeading (mk o s (.lambda (p :: params) body)) h = (u, []))
    (hsplit : ∀ left : Node, left.isSimple = true →
      Gap.splitBetween m { parent := mk o s (.lambda (p :: params) body), left, right := body } = (m, []))
    (hclose : close [] (brackets u ++ bif (p :: params).getLast?.any keep then brackets m else []) = some [] ↔
      kept = true) :
    BalancedIff (mk o s (.lambda (p :: params) body))
      (mark h (list ((p :: params).map (written .param)) (mark m (child body (body.written .plain).2 nil))))
      ((mk o s (.lambda (p :: params) body)).thinned i keep) keep lineBreak kept := by
  obtain ⟨-, hslots⟩ := isSimple_iff.mp hsimple
  have hbody := neutral_brackets.mpr (neutral_written (hslots body (by simp [kind, Kind.slots])) .plain)
  have hparams : ∀ x ∈ p :: params, x.isSimple = true := fun x hx => hslots x (List.mem_append_left _ hx)
  have hhead : (mark h (list ((p :: params).map (written .param)) (mark m (child body (body.written .plain).2 nil)))).head =
      h := by cases params <;> exact List.append_nil h
  have hlast : Gap.splitTrailing (mark h (list ((p :: params).map (written .param))
      (mark m (child body (body.written .plain).2 nil)))).lastGap = ([], []) := by
    rw [List.map_cons, lastGap_mark_list, lastGap_mark_child]
    decide +kernel
  have hshares : shares (mk o s (.lambda (p :: params) body)) h none (list ((p :: params).map (written .param))
      (mark m (child body (body.written .plain).2 nil))).cells =
        [] ++ listShares [] m ((p :: params).map (written .param)) ++ [(body, (body.written .plain).2)] := by
    rw [List.map_cons, shares_list_child (u := m) (v := []) fun left hmem => hsplit left (hparams left ?_), lead, hleading]
    · rfl
    · simpa [Function.comp_def] using hmem
  refine balancedIff_of_list (hhead.symm ▸ hleading) hlast hi (List.forall_mem_nil _) (hhead.symm ▸ hshares)
    (l := p :: params)
    (by simp [Function.comp_def]) (List.forall_mem_map.mpr fun x hx => neutral_written (hparams x hx) _) hdel
    (by simp [thinned, Kind.thinned, kind, children]) (Printer.quiet_of_free (List.pairwise_of_forall fun x y => ?_)) ?_
  · show Free lineBreak (if body.same y.1 then token " => " else token ", ")
    split <;> rfl
  · simp only [← hclose, brackets_nil, Bool.cond_self, bracketsOf_cons, bracketsOf_nil, List.append_nil, List.nil_append,
      close_append, hbody _, Option.bind_fun_some]

/-- The parenthesis behind the parameters of a function stays exactly if the last of them stays. -/
theorem balancedIff_lambda {params : List Node} {body : Node} (hsimple : (mk o s (.lambda params body)).isSimple = true)
    (hi : i ≠ o) (hdel : params.filter keep ≠ params) (hrow : (mk o s (.lambda params body)).row? = some r) :
    BalancedIff (mk o s (.lambda params body)) r ((mk o s (.lambda params body)).thinned i keep) keep lineBreak
      (isBareParam params || params.getLast?.all keep) := by
  cases params with
  | nil => exact absurd rfl hdel
  | cons p params =>
    rw [row?] at hrow
    cases hbare : isBareParam (p :: params) with
    | true =>
      simp only [hbare, if_true] at hrow
      cases hrow
      refine balancedIff_params (h := []) (m := " => ".toList) hsimple hi hdel (Gap.splitLeading_nil _)
        (fun left hleft => ?_) (iff_of_true ?_ rfl)
      · rw [Gap.splitBetween_rule (i := 4) (tag_ne_of_isSimple hleft) rfl rfl (by decide) rfl (by decide +kernel)]
        decide +kernel
      · cases (p :: params).getLast?.any keep <;> rfl
    | false =>
      simp only [hbare, Bool.false_eq_true, if_false] at hrow
      cases hrow
      refine balancedIff_params (h := ['(']) (m := ") => ".toList) (u := ['(']) hsimple hi hdel ?_ (fun left hleft => ?_) ?_
      · rw [Gap.splitLeading_plain rfl (by decide)]
        decide +kernel
      · rw [Gap.splitBetween_rule (i := 5) (tag_ne_of_isSimple hleft) rfl rfl (by decide) rfl (by decide +kernel)]
        decide +kernel
      · obtain ⟨x, hx⟩ : ∃ x, (p :: params).getLast? = some x := ⟨_, List.getLast?_cons⟩
        rw [hx, Option.any_some, Option.all_some]
        cases keep x <;> decide

/-- An import with `m` ahead of its selectors, which the first one brings along, and `e` behind them. -/
theorem balancedIff_selectors {expr c : Node} {selectors : List Node} {m e : Text} {kept : Bool}
    (hsimple : (mk o s (.importDecl expr (c :: selectors))).isSimple = true) (hi : i ≠ o)
    (hdel : (c :: selectors).filter keep ≠ c :: selectors)
    (hsplit : ∀ right, Gap.splitBetween m { parent := mk o s (.importDecl expr (c :: selectors)), left := expr, right } =
      ([], m))
    (htrailing : Gap.splitTrailing e = ([], e))
    (hclose : close [] ((bif keep c then brackets m else []) ++ brackets e) = some [] ↔ kept = true) :
    BalancedIff (mk o s (.importDecl expr (c :: selectors))) (mark "import ".toList (child expr (expr.written .plain).2
      (mark m (list ((c :: selectors).map (written .plain)) (mark e nil)))))
      ((mk o s (.importDecl expr (c :: selectors))).thinned i keep) keep lineBreak kept := by
  obtain ⟨-, hslots⟩ := isSimple_iff.mp hsimple
  have hexpr := hslots expr (List.mem_cons_self ..)
  have hneutral := neutral_brackets.mpr (neutral_written hexpr .plain)
  have hleading : Gap.splitLeading (mk o s (.importDecl expr (c :: selectors))) "import ".toList =
      ("import".toList, [' ']) := by
    rw [Gap.splitLeading_plain rfl (by decide)]
    decide +kernel
  have hlast : Gap.splitTrailing (mark "import ".toList (child expr (expr.written .plain).2
      (mark m (list ((c :: selectors).map (written .plain)) (mark e nil))))).lastGap = ([], e) := by
    rw [lastGap_mark_child, List.map_cons, lastGap_mark_list, lastGap_mark_nil, htrailing]
  have hshares : shares (mk o s (.importDecl expr (c :: selectors))) "import ".toList none
      (child expr (expr.written .plain).2
      (mark m (list ((c :: selectors).map (written .plain)) (mark e nil)))).cells =
        [(expr, ' ' :: (expr.written .plain).2)] ++ listShares m [] ((c :: selectors).map (written .plain)) ++ [] := by
    rw [List.map_cons, shares_child_list hsplit, lead, hleading]
    simp [trail, mark, nil, shares, htrailing]
  refine balancedIff_of_list hleading hlast hi (List.forall_mem_singleton.mpr hexpr) hshares (l := c :: selectors)
    (by simp [Function.comp_def])
      (List.forall_mem_map.mpr fun x hx => neutral_written (hslots x (List.mem_cons_of_mem _ hx)) _)
    hdel (by simp [thinned, Kind.thinned, kind, children])
      (Printer.quiet_of_free (List.pairwise_of_forall fun x y => ?_)) ?_
  · show Free lineBreak (if expr.same x.1 then token "." else token ", ")
    split <;> rfl
  · have hspace : brackets (' ' :: (expr.written .plain).2) = brackets (expr.written .plain).2 := rfl
    have himport : brackets "import".toList = [] := rfl
    simp only [← hclose, himport, hspace, brackets_nil, Bool.cond_self, bracketsOf_cons, bracketsOf_nil, List.append_nil,
      List.nil_append, close_append, hneutral _, Option.bind_some, List.head?_cons, Option.any_some]

/-- The brace ahead of the selectors of an import stays exactly if the first of them stays. -/
theorem balancedIff_importDecl {expr : Node} {selectors : List Node}
    (hsimple : (mk o s (.importDecl expr selectors)).isSimple = true) (hi : i ≠ o)
    (hdel : selectors.filter keep ≠ selectors) (hrow : (mk o s (.importDecl expr selectors)).row? = some r) :
    BalancedIff (mk o s (.importDecl expr selectors)) r ((mk o s (.importDecl expr selectors)).thinned i keep)
      keep lineBreak
      (isBareSelector selectors || selectors.head?.all keep) := by
  obtain ⟨-, hslots⟩ := isSimple_iff.mp hsimple
  have hexpr := tag_ne_of_isSimple (hslots expr (List.mem_cons_self ..))
  cases selectors with
  | nil => exact absurd rfl hdel
  | cons c selectors =>
    rw [row?] at hrow
    cases hbare : isBareSelector (c :: selectors) with
    | true =>
      simp only [hbare, if_true] at hrow
      cases hrow
      refine balancedIff_selectors (m := ['.']) (e := []) hsimple hi hdel (fun right => ?_) (by decide +kernel)
        (iff_of_true ?_ rfl)
      · rw [Gap.splitBetween_rule (i := 0) hexpr rfl rfl (by decide) rfl (by decide +kernel)]
        decide +kernel
      · cases keep c <;> rfl
    | false =>
      simp only [hbare, Bool.false_eq_true, if_false] at hrow
      cases hrow
      refine balancedIff_selectors (m := ['.', '{']) (e := ['}']) hsimple hi hdel (fun right => ?_) (by decide +kernel) ?_
      · rw [Gap.splitBetween_rule (i := 0) hexpr rfl rfl (by decide) rfl (by decide +kernel)]
        decide +kernel
      · rw [List.head?_cons, Option.all_some]
        cases keep c <;> decide

/-- Children on lines of their own, as they are brought along. -/
def lineShares (l : List Node) : List (Node × Text) := (l.map indented).map fun x => (x.1, ['\n', ' ', ' '] ++ x.2)

theorem map_fst_lineShares (l : List Node) : (lineShares l).map (·.1) = l := by
  simp [lineShares, Function.comp_def]

theorem neutral_lineShares {l : List Node} (h : ∀ n ∈ l, n.isSimple = true) : ∀ x ∈ lineShares l, x.2.Neutral := by
  simp only [lineShares, List.forall_mem_map]
  exact fun n hn => .append (neutral_of_free rfl) (neutral_indented (h n hn))

theorem shares_lineShares {parent : Node} {head : Text} {previous : Option Cell} {l : List Node}
    (hahead : ∀ c : Cell, c.node ∈ l → lead parent head previous c = ['\n', ' ', ' ']) :
    shares parent head previous (lines (l.map indented) (mark ['\n', '}'] nil)).cells = lineShares l := by
  refine shares_lines (fun c hc => hahead c ?_) (by decide +kernel) rfl
  simpa [Function.comp_def] using hc

theorem balancedIff_block {stats : List Node} (hlineBreak : brackets lineBreak = [])
    (hsimple : (mk o s (.block stats)).isSimple = true) (hi : i ≠ o) (hdel : stats.filter keep ≠ stats)
    (hrow : (mk o s (.block stats)).row? = some r) :
    BalancedIff (mk o s (.block stats)) r ((mk o s (.block stats)).thinned i keep) keep lineBreak true := by
  obtain ⟨-, hslots⟩ := isSimple_iff.mp hsimple
  cases stats with
  | nil => exact absurd rfl hdel
  | cons c stats =>
    cases hrow
    have hleading : Gap.splitLeading (mk o s (.block (c :: stats))) ['{', '\n', ' ', ' '] = (['{'], ['\n', ' ', ' ']) :=
      Gap.splitLeading_brace rfl (by decide) (by decide)
    have hlast : Gap.splitTrailing (mark ['{'] (lines ((c :: stats).map indented) (mark ['\n', '}'] nil))).lastGap =
        ([], ['\n', '}']) := by
      have hgap : (mark ['{'] (lines ((c :: stats).map indented) (mark ['\n', '}'] nil))).lastGap = ['\n', '}'] :=
        lastGap_lines (x := c.indented) (l := stats.map indented)
      rw [hgap]
      decide +kernel
    have hneutral : Neutral (bracketsOf ((lineShares (c :: stats)).filter (keep ·.1))) :=
      neutral_bracketsOf fun x hx => neutral_lineShares hslots x (List.mem_filter.mp hx).1
    have hshares : shares (mk o s (.block (c :: stats))) ['{', '\n', ' ', ' '] none
        (lines ((c :: stats).map indented) (mark ['\n', '}'] nil)).cells = [] ++ lineShares (c :: stats) ++ [] := by
      rw [List.nil_append, List.append_nil]
      exact shares_lineShares fun c _ => congrArg Prod.snd hleading
    refine balancedIff_of_simple hleading hlast hi (List.forall_mem_nil _) hshares (map_fst_lineShares _) hdel
      (by simp [thinned, Kind.thinned, kind, children])
      (Printer.quiet_of_free (List.pairwise_of_forall fun x y => hlineBreak)) (iff_of_true ?_ rfl)
    · simp only [bracketsOf_nil, List.append_nil, List.nil_append, close_append, hneutral _]
      rfl

/-- Between the selector and a clause the brace goes to the selector. -/
theorem splitBetween_clause {selector right : Node} {cases : List Node} (hselector : selector.isSimple = true)
    (hright : right.tag = .caseClause) : Gap.splitBetween " match \x7b\n  ".toList
      { parent := mk o s (.matchExpr selector cases), left := selector, right } =
        (" match \x7b".toList, ['\n', ' ', ' ']) := by
  have hopens : Gap.Junction.opensCases
      { parent := mk o s (.matchExpr selector cases), left := selector, right } = true := by
    show (selector.same selector && right.tag == .caseClause) = true
    rw [same_refl, hright]
    rfl
  rw [Gap.splitBetween, Gap.indexBetween, Gap.snap_plain (by decide), Gap.masked_plain (by decide), Gap.Junction.index?,
    if_neg (tag_ne_of_isSimple hselector), if_pos hopens]
  decide +kernel

theorem shares_match {selector k : Node} {cases : List Node} (hselector : selector.isSimple = true)
    (hclauses : ∀ c ∈ k :: cases, c.tag = .caseClause) :
    shares (mk o s (.matchExpr selector (k :: cases))) [] none (child selector (selector.written .plain).2
      (mark " match \x7b".toList (lines ((k :: cases).map indented) (mark ['\n', '}'] nil)))).cells =
        (selector, (selector.written .plain).2 ++ " match \x7b".toList) :: lineShares (k :: cases) := by
  have hsplit : ∀ right ∈ k :: cases, Gap.splitBetween " match \x7b\n  ".toList
      { parent := mk o s (.matchExpr selector (k :: cases)), left := selector, right } =
        (" match \x7b".toList, ['\n', ' ', ' ']) := fun right hright =>
    splitBetween_clause hselector (hclauses right hright)
  have htrail := congrArg Prod.fst (hsplit k (List.mem_cons_self ..))
  have hlead : ∀ c : Cell, c.node ∈ k :: cases → lead (mk o s (.matchExpr selector (k :: cases))) []
      (some ⟨selector, (selector.written .plain).2, " match \x7b\n  ".toList⟩) c = ['\n', ' ', ' '] :=
    fun c hc => congrArg Prod.snd (hsplit c.node hc)
  show (selector, (Gap.splitLeading _ []).2 ++ _ ++ (Gap.splitBetween _ _).1) :: shares _ _ _ _ = _
  rw [Gap.splitLeading_nil]
  exact congrArg₂ (· :: ·) (congrArg (fun t => (selector, [] ++ _ ++ t)) htrail) (shares_lineShares hlead)

/-- The separators of a match expression write no bracket that is not there. -/
theorem quiet_match {selector : Node} {cases : List Node} (hlineBreak : brackets lineBreak = [])
    (hother : ∀ x ∈ cases, selector.same x = false) :
    Printer.Quiet ((mk o s (.matchExpr selector cases)).thinned i keep) lineBreak []
      ((selector, (selector.written .plain).2 ++ " match \x7b".toList) :: (lineShares cases).filter (keep ·.1)) := by
  refine Printer.quiet_cons (fun y _ => .inr ?_) (List.pairwise_of_forall_mem_list fun x hx y _ => ?_)
  · have hsep : between ((mk o s (.matchExpr selector cases)).thinned i keep) selector y.1 = token " match \x7b" :=
      if_pos (same_refl selector)
    rw [hsep]
    refine present_token (by decide) rfl ⟨(selector.written .plain).2 ++ [' '], ?_⟩
    rw [List.append_assoc]
    rfl
  · have hmem : x.1 ∈ cases := by
      rw [← map_fst_lineShares cases]
      exact List.mem_map_of_mem (List.mem_filter.mp hx).1
    have hsep : between ((mk o s (.matchExpr selector cases)).thinned i keep) x.1 y.1 = .lineBreak :=
      if_neg (by simp [hother x.1 hmem])
    rw [hsep]
    exact hlineBreak

theorem balancedIff_matchExpr {selector : Node} {cases : List Node} (hlineBreak : brackets lineBreak = [])
    (hsimple : (mk o s (.matchExpr selector cases)).isSimple = true)
    (hids : ((mk o s (.matchExpr selector cases)).children.map identity).Nodup) (hi : i ≠ o)
    (hdel : cases.filter keep ≠ cases) (hrow : (mk o s (.matchExpr selector cases)).row? = some r) :
    BalancedIff (mk o s (.matchExpr selector cases)) r ((mk o s (.matchExpr selector cases)).thinned i keep) keep lineBreak
      true := by
  obtain ⟨-, hslots⟩ := isSimple_iff.mp hsimple
  have hselector := hslots selector (List.mem_cons_self ..)
  have hother : ∀ x ∈ cases, selector.same x = false := fun x hx => beq_false_of_ne fun heq =>
    (List.nodup_cons.mp hids).1 (heq ▸ List.mem_map_of_mem hx)
  rw [row?] at hrow
  split at hrow
  · next hclauses =>
    cases hrow
    cases cases with
    | nil => exact absurd rfl hdel
    | cons k cases =>
      have hlast : Gap.splitTrailing (child selector (selector.written .plain).2 (mark " match \x7b".toList
          (lines ((k :: cases).map indented) (mark ['\n', '}'] nil)))).lastGap = ([], ['\n', '}']) := by
        have hlines : (child selector (selector.written .plain).2 (mark " match \x7b".toList
            (lines ((k :: cases).map indented) (mark ['\n', '}'] nil)))).lastGap = ['\n', '}'] :=
          lastGap_child.trans (lastGap_lines (x := k.indented) (l := cases.map indented))
        rw [hlines]
        decide +kernel
      have hneutral : Neutral (bracketsOf ((lineShares (k :: cases)).filter (keep ·.1))) :=
        neutral_bracketsOf fun x hx => neutral_lineShares (fun n hn => hslots n (List.mem_cons_of_mem _ hn)) x
          (List.mem_filter.mp hx).1
      have hfirst := neutral_brackets.mpr (neutral_written hselector .plain)
      have hshares : _ = [(selector, (selector.written .plain).2 ++ " match \x7b".toList)] ++
          lineShares (k :: cases) ++ [] :=
        (shares_match (o := o) (s := s) hselector fun c hc => by simpa using List.all_eq_true.mp hclauses c hc).trans
          (List.append_nil _).symm
      refine balancedIff_of_simple (Gap.splitLeading_nil _) hlast hi (List.forall_mem_singleton.mpr hselector) hshares
        (map_fst_lineShares _) hdel (by simp [thinned, Kind.thinned, kind, children]) ?_ (iff_of_true ?_ rfl)
      · rw [List.append_nil]
        exact quiet_match hlineBreak hother
      · simp only [brackets_nil, bracketsOf_nil, bracketsOf_cons, brackets_append, List.append_nil, List.nil_append,
          close_append, hneutral _, hfirst _]
        rfl
  · cases hrow

end Kinds

end Node

end Reprint
