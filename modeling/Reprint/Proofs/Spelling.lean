import Reprint.Proofs.Brackets
import Reprint.Proofs.Row
/-!
How a call, a method, a function, an import, a match and a block are written when they are printed from scratch, child
by child. Main statement: the row of a simple node has its children for cells (`children_of_row?`) and reads as the
printer prints the node (`pretty_of_row?`).
-/

namespace Reprint

namespace Row

/-! ### Building rows -/

/-- Nothing. -/
def nil : Row := { head := [], cells := [] }

/-- A text ahead of a row. -/
def mark (t : Text) (r : Row) : Row := { r with head := t ++ r.head }

/-- A child ahead of a row. -/
def child (n : Node) (t : Text) (r : Row) : Row :=
  { head := [], cells := { node := n, text := t, gap := r.head } :: r.cells }

/-- Children with commas between them, ahead of a row. -/
def list : List (Node × Text) → Row → Row
  | [], r => r
  | [x], r => child x.1 x.2 r
  | x :: y :: l, r => child x.1 x.2 (mark [',', ' '] (list (y :: l) r))

/-- Children on indented lines of their own, ahead of a row. -/
def lines (l : List (Node × Text)) (r : Row) : Row :=
  l.foldr (fun x r => mark ['\n', ' ', ' '] (child x.1 x.2 r)) r

/-- The children of a row. -/
def nodes (r : Row) : List Node := r.cells.map (·.node)

section Build
variable (r : Row) (t : Text) (n : Node) (l : List (Node × Text))

@[simp] theorem text_nil : nil.text = [] := rfl

@[simp] theorem text_mark : (mark t r).text = t ++ r.text := List.append_assoc ..

@[simp] theorem text_child : (child n t r).text = t ++ r.text := by
  simp [child, text, List.append_assoc]

@[simp] theorem text_list : (list l r).text = [',', ' '].intercalate (l.map (·.2)) ++ r.text := by
  induction l with
  | nil => rfl
  | cons x l ih =>
    cases l with
    | nil => simp [list]
    | cons y l => simp [list, ih]

@[simp] theorem text_lines : (lines l r).text = (l.flatMap fun x => ['\n', ' ', ' '] ++ x.2) ++ r.text := by
  induction l with
  | nil => rfl
  | cons x l ih =>
    rw [lines, List.foldr_cons, ← lines]
    simp [ih]

@[simp] theorem nodes_nil : nil.nodes = [] := rfl

@[simp] theorem nodes_mark : (mark t r).nodes = r.nodes := rfl

@[simp] theorem nodes_child : (child n t r).nodes = n :: r.nodes := rfl

@[simp] theorem nodes_list : (list l r).nodes = l.map (·.1) ++ r.nodes := by
  induction l with
  | nil => rfl
  | cons x l ih =>
    cases l with
    | nil => rfl
    | cons y l => simp [list, ih]

@[simp] theorem nodes_lines : (lines l r).nodes = l.map (·.1) ++ r.nodes := by
  induction l with
  | nil => rfl
  | cons x l ih =>
    rw [lines, List.foldr_cons, ← lines]
    simp [ih]

end Build

end Row

/-! ### Code in the plain style -/

namespace Doc
variable (d e : Doc) (ds : List Doc) (s : String)

@[simp] theorem render_append : (d ++ e).render {} = d.render {} ++ e.render {} := List.flatMap_append

@[simp] theorem render_text : (text s).render {} = s.toList := List.flatMap_singleton ..

@[simp] theorem render_nil : render {} [] = [] := rfl

theorem render_flatMap {α : Type} (l : List α) (f : α → Doc) :
    render {} (l.flatMap f) = l.flatMap fun a => (f a).render {} := List.flatMap_assoc

@[simp] theorem render_line : render {} (.line 0 :: d) = '\n' :: d.render {} := rfl

@[simp] theorem render_nestedLine : (nestedLine d).render {} = ['\n', ' ', ' '] ++ d.nest.render {} := rfl

@[simp] theorem render_join : (join s ds).render {} = s.toList.intercalate (ds.map (render {})) := by
  induction ds with
  | nil => rfl
  | cons d ds ih =>
    cases ds with
    | nil => simp [join]
    | cons e ds =>
      rw [join, List.intercalate_cons_cons, ← join]
      simp [ih]

end Doc

/-! ### Code of children -/

namespace Node
open Doc

/-- The code of a node, empty if it cannot be printed. -/
def code (role : Role) (n : Node) : Doc := (n.doc role).toOption.getD []

/-- A node as it is written by itself. -/
def written (role : Role) (n : Node) : Node × Text := (n, (n.code role).render {})

/-- A node as it is written on an indented line. -/
def indented (n : Node) : Node × Text := (n, (n.code .plain).nest.render {})

@[simp] theorem written_fst (role : Role) (n : Node) : (written role n).1 = n := rfl

@[simp] theorem indented_fst (n : Node) : n.indented.1 = n := rfl

theorem doc_eq_code {n : Node} (h : n.isSimple = true) (role : Role) : n.doc role = .ok (n.code role) := by
  obtain ⟨d, hd, -⟩ := neutral_doc h role
  rw [code, hd]
  rfl

theorem neutral_code {n : Node} (h : n.isSimple = true) (role : Role) : Neutral (n.code role) := by
  obtain ⟨d, hd, hneutral⟩ := neutral_doc h role
  rw [code, hd]
  exact hneutral

theorem mapM_doc {l : List Node} (h : ∀ n ∈ l, n.isSimple = true) (role : Role) :
    l.mapM (doc role) = .ok (l.map (code role)) := by
  induction l with
  | nil => rfl
  | cons n l ih =>
    rw [List.mapM_cons, doc_eq_code (h n (List.mem_cons_self ..)), ih fun m hm => h m (List.mem_cons_of_mem _ hm)]
    rfl

theorem option_mapM_doc {o : Option Node} (h : ∀ n ∈ o, n.isSimple = true) (role : Role) :
    o.mapM (doc role) = .ok (o.map (code role)) := by
  cases o with
  | none => rfl
  | some n =>
    show (do return some (← n.doc role) : Except PrintError (Option Doc)) = _
    rw [doc_eq_code (h n rfl)]
    rfl

/-! ### Rows of nodes -/

/-- Whether a single parameter is written without parentheses. -/
def isBareParam : List Node → Bool
  | [.mk _ _ (.valDef _ _ none _)] => true
  | _ => false

/-- Whether a single selector is written without braces. -/
def isBareSelector : List Node → Bool
  | [.mk _ _ (.importSelector _ none)] => true
  | _ => false

theorem exists_of_isBareParam {params : List Node} (h : isBareParam params = true) : ∃ p, params = [p] := by
  unfold isBareParam at h
  split at h
  · exact ⟨_, rfl⟩
  · cases h

theorem exists_of_isBareSelector {selectors : List Node} (h : isBareSelector selectors = true) :
    ∃ c, selectors = [c] := by
  unfold isBareSelector at h
  split at h
  · exact ⟨_, rfl⟩
  · cases h

open Row

/-- Modifier keywords ahead of a row. -/
def modifierRow (owner : Identity) (mods : List (ModifierToken × Nat)) (r : Row) : Row :=
  mods.foldr (fun x r => match x.1.span, x.1.flag.keyword? with
    | some s, some k =>
      .child (.mk (.part owner (.modifier x.2)) (some s) (.modifierToken x.1.flag)) k.toList (.mark [' '] r)
    | _, _ => r) r

/-- Type parameters ahead of a row. -/
def typeParamRow (tparams : List Node) (r : Row) : Row :=
  if tparams.isEmpty then r
  else .mark ['['] (.list (tparams.map fun p => (p, (p.name?.getD "_").toList)) (.mark [']'] r))

/-- Lists of value parameters ahead of a row. -/
def paramRow (vparamss : List (List Node)) (r : Row) : Row :=
  vparamss.foldr (fun ps r => .mark ['('] (.list (ps.map (written .param)) (.mark [')'] r))) r

/-- A node behind a mark, if there is one, ahead of a row. -/
def optionRow (t : Text) (o : Option Node) (r : Row) : Row :=
  match o with
  | some n => .mark t (.child n ((n.code .plain).render {}) r)
  | none => r

/-- The row of a node that is printed from scratch. The tokens of a method must have their places. -/
def row? : Node → Option Row
  | .mk _ _ (.apply callee args) =>
    some <| .child callee ((callee.code .plain).render {}) <| .mark ['('] <| .list (args.map (written .plain)) <|
      .mark [')'] .nil
  | .mk _ _ (.matchExpr selector cases) =>
    if cases.all (·.tag == .caseClause) then
      some <| .child selector ((selector.code .plain).render {}) <| .mark " match \x7b".toList <|
        .lines (cases.map indented) <| .mark ['\n', '}'] .nil
    else none
  | .mk _ _ (.block stats) =>
    some <| if stats.isEmpty then .mark ['{', '}'] .nil
      else .mark ['{'] <| .lines (stats.map indented) <| .mark ['\n', '}'] .nil
  | .mk _ _ (.lambda params body) =>
    let tail := Row.mark " => ".toList <| .child body ((body.code .plain).render {}) .nil
    some <| if isBareParam params then .list (params.map (written .param)) tail
      else .mark ['('] <| .list (params.map (written .param)) <| .mark [')'] tail
  | .mk _ _ (.importDecl expr selectors) =>
    some <| .mark "import ".toList <| .child expr ((expr.code .plain).render {}) <| .mark ['.'] <|
      if isBareSelector selectors then .list (selectors.map (written .plain)) .nil
      else .mark ['{'] <| .list (selectors.map (written .plain)) <| .mark ['}'] .nil
  | .mk owner _ (.methodDef mods name tparams vparamss tpt rhs) =>
    match name.span with
    | some s =>
      if mods.all (fun m => m.span.isSome == m.flag.keyword?.isSome) && vparamss.flatten.all (·.tag == .valDef) then
        some <| modifierRow owner mods.zipIdx <| .mark "def ".toList <|
          .child (.mk (.part owner .name) (some s) (.nameToken name.text)) name.text.toList <|
          typeParamRow tparams <| paramRow vparamss <| optionRow ": ".toList tpt <| optionRow " = ".toList rhs .nil
      else none
    | none => none
  | _ => none

/-! ### Cells and children -/

section Children
variable {r : Row}

/-- One modifier: a keyword with its place, or nothing. -/
theorem modifierRow_cons {owner : Identity} {m : ModifierToken} {i : Nat} {l : List (ModifierToken × Nat)}
    (h : m.span.isSome = m.flag.keyword?.isSome) :
    (∃ s k, m.span = some s ∧ m.flag.keyword? = some k ∧ modifierRow owner ((m, i) :: l) r =
      .child (.mk (.part owner (.modifier i)) (some s) (.modifierToken m.flag)) k.toList
        (.mark [' '] (modifierRow owner l r))) ∨
      (m.span = none ∧ m.flag.keyword? = none ∧ modifierRow owner ((m, i) :: l) r = modifierRow owner l r) := by
  rw [modifierRow, List.foldr_cons, ← modifierRow]
  cases hs : m.span with
  | some s =>
    rw [hs] at h
    obtain ⟨k, hk⟩ := Option.isSome_iff_exists.mp h.symm
    exact .inl ⟨s, k, rfl, hk, by simp only [hk]⟩
  | none =>
    rw [hs] at h
    exact .inr ⟨rfl, Option.isNone_iff_eq_none.mp (by simpa using h.symm), rfl⟩

theorem nodes_modifierRow {owner : Identity} {mods : List ModifierToken} (i : Nat)
    (h : mods.all (fun m => m.span.isSome == m.flag.keyword?.isSome) = true) :
    (modifierRow owner (mods.zipIdx i) r).nodes = (mods.zipIdx i).filterMap (fun x =>
      x.1.span.map fun s => mk (.part owner (.modifier x.2)) (some s) (.modifierToken x.1.flag)) ++ r.nodes := by
  induction mods generalizing i with
  | nil => rfl
  | cons m mods ih =>
    rw [List.all_cons, Bool.and_eq_true, beq_iff_eq] at h
    rw [List.zipIdx_cons, List.filterMap_cons]
    rcases modifierRow_cons h.1 with ⟨s, k, hs, -, hrow⟩ | ⟨hs, -, hrow⟩
    · rw [hrow, nodes_child, nodes_mark, ih (i + 1) h.2, hs]
      rfl
    · rw [hrow, ih (i + 1) h.2, hs]
      rfl

theorem nodes_typeParamRow (tparams : List Node) : (typeParamRow tparams r).nodes = tparams ++ r.nodes := by
  unfold typeParamRow
  split
  · next h => rw [List.isEmpty_iff.mp h]; rfl
  · simp [Function.comp_def]

theorem nodes_paramRow (vparamss : List (List Node)) : (paramRow vparamss r).nodes = vparamss.flatten ++ r.nodes := by
  induction vparamss with
  | nil => rfl
  | cons ps vparamss ih =>
    rw [paramRow, List.foldr_cons, ← paramRow]
    simp [ih, Function.comp_def]

theorem nodes_optionRow (t : Text) (o : Option Node) : (optionRow t o r).nodes = o.toList ++ r.nodes := by
  cases o <;> rfl

/-- A method has a row if its tokens have their places and its parameters are values. -/
theorem row?_methodDef {owner : Identity} {s : Option Span} {mods : List ModifierToken} {name : Name} {tparams : List Node}
    {vparamss : List (List Node)} {tpt rhs : Option Node}
    (h : (mk owner s (.methodDef mods name tparams vparamss tpt rhs)).row? = some r) :
    ∃ place, name.span = some place ∧ mods.all (fun m => m.span.isSome == m.flag.keyword?.isSome) = true ∧
      vparamss.flatten.all (·.tag == .valDef) = true ∧
      r = modifierRow owner mods.zipIdx (.mark "def ".toList <|
        .child (.mk (.part owner .name) (some place) (.nameToken name.text)) name.text.toList <|
        typeParamRow tparams <| paramRow vparamss <| optionRow ": ".toList tpt <| optionRow " = ".toList rhs .nil) := by
  rw [row?] at h
  cases hspan : name.span with
  | none =>
    rw [hspan] at h
    cases h
  | some place =>
    rw [hspan] at h
    dsimp only at h
    split at h
    · next hif =>
      obtain ⟨hmods, hparams⟩ := Bool.and_eq_true_iff.mp hif
      exact ⟨place, rfl, hmods, hparams, (Option.some.inj h).symm⟩
    · cases h

/-- The cells of a row are the children of the node. -/
theorem children_of_row? {n : Node} (h : n.row? = some r) : n.children = r.nodes := by
  obtain ⟨owner, s, k⟩ := n
  cases k with
  | apply callee args =>
    cases h
    simp [children, Function.comp_def]
  | matchExpr selector cases =>
    rw [row?] at h
    split at h
    · cases h
      simp [children, Function.comp_def]
    · cases h
  | block stats =>
    cases h
    split
    · next hnil => rw [children, List.isEmpty_iff.mp hnil]; rfl
    · simp [children, Function.comp_def]
  | lambda params body =>
    cases h
    split <;> simp [children, Function.comp_def]
  | importDecl expr selectors =>
    cases h
    split <;> simp [children, Function.comp_def]
  | methodDef mods name tparams vparamss tpt rhs =>
    obtain ⟨place, hspan, hmods, -, rfl⟩ := row?_methodDef h
    rw [nodes_modifierRow 0 hmods, nodes_mark, nodes_child, nodes_typeParamRow, nodes_paramRow, nodes_optionRow,
      nodes_optionRow]
    simp [children, modifierTokens, nameTokens, hspan]
  | _ => cases h

end Children

/-! ### Rows as they are printed -/

section Pretty
variable {r : Row}

theorem mapM_mapM_doc {l : List (List Node)} (h : ∀ ns ∈ l, ∀ n ∈ ns, n.isSimple = true) (role : Role) :
    l.mapM (List.mapM (doc role)) = .ok (l.map (List.map (code role))) := by
  induction l with
  | nil => rfl
  | cons ns l ih =>
    rw [List.mapM_cons, mapM_doc (h ns (List.mem_cons_self ..)), ih fun ms hms => h ms (List.mem_cons_of_mem _ hms)]
    rfl

theorem text_modifierRow {owner : Identity} {mods : List ModifierToken} (i : Nat)
    (h : mods.all (fun m => m.span.isSome == m.flag.keyword?.isSome) = true) :
    (modifierRow owner (mods.zipIdx i) r).text = (keywords mods).render {} ++ r.text := by
  induction mods generalizing i with
  | nil => rfl
  | cons m mods ih =>
    rw [List.all_cons, Bool.and_eq_true, beq_iff_eq] at h
    rw [List.zipIdx_cons, keywords, List.flatMap_cons, ← keywords, render_append, List.append_assoc]
    rcases modifierRow_cons h.1 with ⟨s, k, -, hk, hrow⟩ | ⟨-, hk, hrow⟩
    · rw [hrow, text_child, text_mark, ih (i + 1) h.2, hk]
      simp
    · rw [hrow, ih (i + 1) h.2, hk]
      rfl

theorem text_typeParamRow (tparams : List Node) :
    (typeParamRow tparams r).text = (typeParams tparams).render {} ++ r.text := by
  unfold typeParamRow typeParams
  split
  · rfl
  · simp [Function.comp_def]

theorem text_paramRow (vparamss : List (List Node)) :
    (paramRow vparamss r).text = render {} ((vparamss.map (List.map (code .param))).flatMap parens) ++ r.text := by
  induction vparamss with
  | nil => rfl
  | cons ps vparamss ih =>
    rw [paramRow, List.foldr_cons, ← paramRow]
    simp [ih, written, parens, Function.comp_def]

theorem text_optionRow (s : String) (o : Option Node) :
    (optionRow s.toList o r).text = (Doc.optional s (o.map (code .plain))).render {} ++ r.text := by
  cases o <;> simp [optionRow, Doc.optional]

/-- A row reads as the printer prints its node. -/
theorem pretty_of_row? {n : Node} (hsimple : n.isSimple = true) (h : n.row? = some r) : n.pretty {} = .ok r.text := by
  obtain ⟨owner, s, k⟩ := n
  obtain ⟨-, hslots⟩ := isSimple_iff.mp hsimple
  simp only [kind] at hslots
  rw [pretty, doc.eq_def]
  simp only [List.mapM_subtype, List.unattach_attach, option_mapM_attach]
  cases k with
  | apply callee args =>
    cases h
    have hcallee := doc_eq_code (hslots callee (by simp [Kind.slots])) .plain
    have hargs := mapM_doc (l := args) (fun a ha => hslots a (by simp [Kind.slots, ha])) .plain
    simp only [hcallee, hargs]
    refine congrArg Except.ok ?_
    simp [parens, written, Function.comp_def]
  | matchExpr selector cases =>
    have hselector := doc_eq_code (hslots selector (by simp [Kind.slots])) .plain
    have hcases := mapM_doc (l := cases) (fun c hc => hslots c (by simp [Kind.slots, hc])) .plain
    rw [row?] at h
    split at h
    · cases h
      simp only [hselector, hcases]
      refine congrArg Except.ok ?_
      simp [braces, indented, render_flatMap, List.flatMap_map]
    · cases h
  | block stats =>
    cases h
    have hstats := mapM_doc (l := stats) (fun c hc => hslots c hc) .plain
    simp only [hstats]
    refine congrArg Except.ok ?_
    cases stats with
    | nil => rfl
    | cons c stats => simp [braces, indented, render_flatMap, List.flatMap_map]
  | lambda params body =>
    cases h
    have hparams := mapM_doc (l := params) (fun p hp => hslots p (by simp [Kind.slots, hp])) .param
    have hbody := doc_eq_code (hslots body (by simp [Kind.slots])) .plain
    simp only [hparams, hbody]
    refine congrArg Except.ok ?_
    show render {} ((if isBareParam params = true then _ else _) ++ _ ++ _) = _
    cases hbare : isBareParam params with
    | true =>
      obtain ⟨p, rfl⟩ := exists_of_isBareParam hbare
      simp [written, list]
    | false => simp [parens, written, Function.comp_def]
  | importDecl expr selectors =>
    cases h
    have hexpr := doc_eq_code (hslots expr (by simp [Kind.slots])) .plain
    have hselectors := mapM_doc (l := selectors) (fun c hc => hslots c (by simp [Kind.slots, hc])) .plain
    simp only [hexpr, hselectors]
    refine congrArg Except.ok ?_
    show render {} (_ ++ _ ++ _ ++ (if isBareSelector selectors = true then _ else _)) = _
    cases hbare : isBareSelector selectors with
    | true =>
      obtain ⟨c, rfl⟩ := exists_of_isBareSelector hbare
      simp [written, list]
    | false => simp [written, Function.comp_def]
  | methodDef mods name tparams vparamss tpt rhs =>
    have hparams : vparamss.mapM (List.mapM (doc .param)) = .ok (vparamss.map (List.map (code .param))) :=
      mapM_mapM_doc (fun ps hps p hp => hslots p (by
        simp only [Kind.slots, List.mem_append, List.mem_flatten]
        exact .inl (.inl (.inr ⟨ps, hps, hp⟩)))) .param
    have htpt := option_mapM_doc (o := tpt) (fun t ht => hslots t (by simp_all [Kind.slots])) .plain
    have hrhs := option_mapM_doc (o := rhs) (fun t ht => hslots t (by simp_all [Kind.slots])) .plain
    obtain ⟨place, -, hmods, -, rfl⟩ := row?_methodDef h
    simp only [hparams, htpt, hrhs]
    refine congrArg Except.ok ?_
    simp only [render_append, render_text, text_modifierRow 0 hmods, text_mark, text_child, text_typeParamRow,
      text_paramRow, text_optionRow, text_nil, List.append_assoc, List.append_nil]
  | _ => cases h

end Pretty

end Node

end Reprint
