import Reprint.Proofs.Lines
import Reprint.Proofs.Quotation
/-!
The lines of printed code, before a style is chosen. Code has a first line, which goes on wherever the code is put, and
later lines at depths of their own. The blank lines between the statements of a package have no depth: they stay at the
margin however deep the package is. Main statement: names without line feeds keep code in order (`Doc.Orderly`), and if
no name is blank and templates stand where they belong, there is something to see on all lines but these.
-/

namespace Reprint

/-! ### Styles -/

namespace IndentStyle

theorem atDepth_add (s : IndentStyle) (m n : Nat) : s.atDepth (m + n) = s.atDepth m ++ s.atDepth n := by
  rw [atDepth, List.replicate_add, List.flatten_append]
  rfl

theorem isIndent_atDepth (s : IndentStyle) (depth : Nat) : (s.atDepth depth).all Text.isIndent = true := by
  refine List.all_eq_true.mpr fun c hc => ?_
  obtain ⟨l, hl, hc⟩ := List.mem_flatten.mp hc
  rw [List.eq_of_mem_replicate hl] at hc
  cases s with
  | spaces n => rw [List.eq_of_mem_replicate hc]; rfl
  | tabs => rw [List.mem_singleton.mp hc]; rfl

end IndentStyle

/-! ### Lines of code -/

namespace Doc

/-- What is on the first line of code. -/
def first : Doc → Text
  | .text t :: d => t ++ first d
  | _ => []

/-- The later lines of code with their depths. -/
def rest : Doc → List (Option Nat × Text)
  | [] => []
  | .text _ :: d => rest d
  | .line depth :: d => (some depth, first d) :: rest d
  | .emptyLine :: d => (none, first d) :: rest d

/-- There is something to see on the first line. -/
def Solid (d : Doc) : Prop := d.first.allBlank = false

section Lines
variable {d e : Doc} {t : Text}

theorem first_append (d e : Doc) : d.first <+: first (d ++ e) := by
  induction d with
  | nil => exact List.nil_prefix
  | cons p d ih =>
    cases p with
    | text t => exact List.prefix_append_right_inj t |>.mpr ih
    | line depth => exact List.nil_prefix
    | emptyLine => exact List.nil_prefix

theorem first_nest (d : Doc) : first d.nest = d.first := by
  induction d with
  | nil => rfl
  | cons p d ih =>
    cases p with
    | text t => exact congrArg (t ++ ·) ih
    | line depth => rfl
    | emptyLine => rfl

theorem Solid.append (h : Solid d) (e : Doc) : Solid (d ++ e) := by
  obtain ⟨t, ht⟩ := first_append d e
  rw [Solid, ← ht, Text.allBlank, List.all_append, ← Text.allBlank, h, Bool.false_and]

theorem Solid.nest (h : Solid d) : Solid d.nest := by
  rw [Solid, first_nest]
  exact h

theorem solid_text (h : t.allBlank = false) : Solid [.text t] := by
  simpa [Solid, first] using h

/-- What stands behind code on one line is on its first line. -/
theorem Solid.behind (hd : d.rest = []) (h : Solid e) : Solid (d ++ e) := by
  induction d with
  | nil => exact h
  | cons p d ih =>
    cases p with
    | text t =>
      have hrest := ih hd
      rw [Solid] at hrest ⊢
      rw [List.cons_append, first, Text.allBlank, List.all_append, ← Text.allBlank, ← Text.allBlank, hrest, Bool.and_false]
    | line depth => cases hd
    | emptyLine => cases hd

theorem rest_append_eq_nil {d e : Doc} (hd : d.rest = []) (he : e.rest = []) : rest (d ++ e) = [] := by
  induction d with
  | nil => exact he
  | cons p d ih =>
    cases p with
    | text t => exact ih hd
    | line depth => cases hd
    | emptyLine => cases hd

theorem rest_keywords (mods : List ModifierToken) : rest (keywords mods) = [] := by
  induction mods with
  | nil => rfl
  | cons m mods ih =>
    rw [keywords, List.flatMap_cons]
    refine rest_append_eq_nil ?_ ih
    split <;> rfl

/-- How a definition begins. -/
theorem solid_heading (mods : List ModifierToken) {s : String} (h : Text.allBlank s.toList = false) :
    Solid (keywords mods ++ text s) := .behind (rest_keywords mods) (solid_text h)

end Lines

/-! ### Code in order -/

/-- Code in order: nothing breaks a line but the line breaks, and a blank line is followed by another line. If it is
`solid`, there is something to see on every line but these. -/
inductive Orderly (solid : Bool) : Doc → Prop where
  | nil : Orderly solid []
  | text {t : Text} {d : Doc} : '\n' ∉ t → Orderly solid d → Orderly solid (.text t :: d)
  | line {depth : Nat} {d : Doc} : (solid = true → Solid d) → Orderly solid d → Orderly solid (.line depth :: d)
  | gap {depth : Nat} {d : Doc} : Orderly solid (.line depth :: d) → Orderly solid (.emptyLine :: .line depth :: d)

section Orderly
variable {solid : Bool} {d e : Doc} {t : Text}

theorem Orderly.append (hd : Orderly solid d) (he : Orderly solid e) : Orderly solid (d ++ e) := by
  induction hd with
  | nil => exact he
  | text ht _ ih => exact .text ht ih
  | line hsolid _ ih => exact .line (fun h => (hsolid h).append e) ih
  | gap _ ih => exact .gap ih

theorem Orderly.nest (hd : Orderly solid d) : Orderly solid (nest d) := by
  induction hd with
  | nil => exact .nil
  | text ht _ ih => exact .text ht ih
  | line hsolid _ ih => exact .line (fun h => (hsolid h).nest) ih
  | gap _ ih => exact .gap ih

theorem orderly_text (h : '\n' ∉ t) : Orderly solid [.text t] := .text h .nil

theorem orderly_flatMap {α : Type} {f : α → Doc} {l : List α} (h : ∀ a ∈ l, Orderly solid (f a)) :
    Orderly solid (l.flatMap f) := by
  rw [List.flatMap_def]
  exact of_flatten .nil .append (List.forall_mem_map.mpr h)

theorem compositional_orderly : Compositional (Orderly solid) fun d => solid = true → Solid d where
  nil := .nil
  append := .append
  word h := orderly_text fun hmem => absurd (List.all_eq_true.mp h _ hmem) (by decide)
  between h hd := by
    simp only [enclosures, List.mem_cons, Prod.mk.injEq, List.not_mem_nil, or_false] at h
    rcases h with ⟨rfl, rfl⟩ | ⟨rfl, rfl⟩ | ⟨rfl, rfl⟩ | ⟨rfl, rfl⟩ <;>
      exact ((orderly_text (by decide)).append hd).append (orderly_text (by decide))
  nothing := orderly_text (by decide)
  lines {s o ds} hs ho hds := by
    have hopen : Orderly solid (Doc.text s) := by
      simp only [List.mem_cons, List.not_mem_nil, or_false] at hs
      rcases hs with rfl | rfl <;> exact orderly_text (by decide)
    have hself : Orderly solid (optional " " (o.map Doc.nest)) := by
      cases o with
      | none => exact .nil
      | some d => exact .text (by decide) (ho d rfl).nest
    have hrows : Orderly solid (ds.flatMap nestedLine) := orderly_flatMap fun d hd =>
      .line (fun h => ((hds d hd).2 h).nest) (hds d hd).1.nest
    have hclose : Orderly solid ([.line 0] ++ Doc.text "\x7d") := .line (fun _ => rfl) (orderly_text (by decide))
    rw [List.append_assoc _ [Piece.line 0]]
    exact ((hopen.append hself).append hrows).append hclose

/-- Every line of code in order is one line. -/
theorem Orderly.first_inline (h : Orderly solid d) : '\n' ∉ d.first := by
  induction h with
  | nil => exact List.not_mem_nil
  | text ht _ ih => exact fun hmem => (List.mem_append.mp hmem).elim ht ih
  | line => exact List.not_mem_nil
  | gap => exact List.not_mem_nil

theorem Orderly.rest_inline (h : Orderly solid d) : ∀ l ∈ d.rest, '\n' ∉ l.2 := by
  induction h with
  | nil => exact List.forall_mem_nil _
  | text _ _ ih => exact ih
  | line _ hd ih => exact List.forall_mem_cons.mpr ⟨hd.first_inline, ih⟩
  | gap _ ih => exact List.forall_mem_cons.mpr ⟨List.not_mem_nil, ih⟩

/-- Lines without a depth are empty, and in solid code no others are blank. -/
theorem Orderly.rest_blank (h : Orderly solid d) :
    ∀ l ∈ d.rest, (l.1 = none → l.2 = []) ∧ (solid = true → l.1 ≠ none → l.2.allBlank = false) := by
  induction h with
  | nil => exact List.forall_mem_nil _
  | text _ _ ih => exact ih
  | line hsolid _ ih =>
    exact List.forall_mem_cons.mpr ⟨⟨fun h => absurd h (Option.some_ne_none _), fun h _ => hsolid h⟩, ih⟩
  | gap _ ih => exact List.forall_mem_cons.mpr ⟨⟨fun _ => rfl, fun _ h => absurd rfl h⟩, ih⟩

end Orderly

end Doc

/-! ### Something to see -/

theorem Text.allBlank_of_mem {c : Char} {t : Text} (hmem : c ∈ t) (hc : isBlank c = false) : t.allBlank = false :=
  Bool.eq_false_iff.mpr fun h => not_mem_of_allBlank h hc hmem

/-- A number holds a point or an exponent. -/
theorem Decimal.allBlank_render (style : Style) (x : Binary64) : (render style x).allBlank = false := by
  have hpositional : ∀ d, '.' ∈ positional d := fun d => by
    unfold positional
    split <;> simp
  have hscientific : ∀ d, 'e' ∈ scientific d := fun d => by simp [scientific]
  have hmem : '.' ∈ render style x ∨ 'e' ∈ render style x := by
    by_cases hzero : x.isZero
    · simp [render, hzero]
    · by_cases hplain : style.least ≤ (shortest style.tie x).point ∧ (shortest style.tie x).point ≤ 16
      · simp [render, hzero, hplain, hpositional]
      · simp [render, hzero, hplain, hscientific]
  rcases hmem with hmem | hmem
  · exact Text.allBlank_of_mem hmem rfl
  · exact Text.allBlank_of_mem hmem rfl

theorem Decimal.isBlank_of_isNumeral {c : Char} (h : isNumeral c = true) : isBlank c = false := by
  rw [isNumeral, Bool.or_eq_true, List.contains_iff_mem] at h
  rcases h with h | h
  · have hdigit : 48 ≤ c.toNat ∧ c.toNat ≤ 57 := Char.isDigit_iff_toNat.mp h
    simp [isBlank]
    omega
  · simp only [List.mem_cons, List.not_mem_nil, or_false] at h
    rcases h with rfl | rfl | rfl <;> rfl

theorem Constant.allBlank_render (v : Constant) : v.render.allBlank = false := by
  cases v with
  | unit => rfl
  | null => rfl
  | bool b => cases b <;> rfl
  | int n =>
    obtain ⟨c, hc⟩ := List.exists_mem_of_ne_nil _ (toString_int_ne_nil n)
    have hnumeral := List.all_eq_true.mp (Decimal.all_isNumeral_toString n) c hc
    exact Text.allBlank_of_mem hc (Decimal.isBlank_of_isNumeral hnumeral)
  | double x => exact Decimal.allBlank_render _ x
  | char c => exact Text.allBlank_of_mem (List.mem_cons_self ..) rfl
  | str s => exact Text.allBlank_of_mem (List.mem_cons_self ..) rfl

/-- What hangs below a layer, but for the body of a class or an object. -/
def Kind.besides : Kind Node → List Node
  | .classDef _ _ tparams _ => tparams
  | .objectDef .. => []
  | k => k.slots

theorem Kind.beside_of_mem_rows {k : Kind Node} {c : Node} (h : c ∈ k.rows) : c ∈ k.besides := by
  cases k <;> simp only [rows, List.not_mem_nil, List.mem_filter] at h <;> simp [besides, slots, h]

namespace Node
open Doc

/-- No name in a tree is blank. -/
def NamesSolid (n : Node) : Prop := n.Throughout fun k => ∀ name ∈ k.names, Text.allBlank name.toList = false

/-- Templates occur in a tree only as the bodies of classes and objects. -/
def TemplatesInPlace (n : Node) : Prop :=
  n.tag ≠ .template ∧ n.Throughout fun k => ∀ c ∈ k.besides, c.tag ≠ .template

/-- The code of a node begins with something to see, but for that of a template. -/
theorem solid_doc {n : Node} (hnames : n.NamesSolid) (htemplates : n.TemplatesInPlace) (role : Role) :
    Ensures false (n.doc role) Solid := by
  induction n using slots_induction generalizing role with
  | step n ih =>
    obtain ⟨i, s, k⟩ := n
    have hname : ∀ name ∈ k.names, Solid (text name) := fun name h => solid_text (hnames.layer name h)
    -- Slots whose code may come first.
    replace ih : ∀ c ∈ k.slots, c ∈ k.besides → ∀ role, Ensures false (c.doc role) Solid := fun c hc hplace role =>
      ih c hc (hnames.slot hc) ⟨htemplates.2.layer c hplace, htemplates.2.slot hc⟩ role
    have htag := htemplates.1
    clear hnames htemplates
    rw [doc.eq_def]
    simp only [List.mapM_subtype, List.unattach_attach, option_mapM_attach]
    cases k with
    | package pid stats =>
      exact .bind (.any _) fun _ _ => .bind (.any _) fun _ _ => .pure (((solid_text rfl).append _).append _)
    | classDef mods name tparams impl =>
      exact .bind (.any _) fun _ _ => .pure ((((solid_heading mods rfl).append _).append _).append _)
    | objectDef mods name impl =>
      exact .bind (.any _) fun _ _ => .pure (((solid_heading mods rfl).append _).append _)
    | template => exact absurd rfl htag
    | valDef mods name tpt rhs =>
      refine .bind (.any _) fun _ _ => .bind (.any _) fun _ _ => .pure (((Solid.behind ?_ ?_).append _).append _)
      · split
        · rfl
        · exact rest_append_eq_nil (rest_keywords mods) rfl
      · exact hname _ (List.mem_cons_self ..)
    | methodDef mods name tparams vparamss tpt rhs =>
      refine .bind (.any _) fun _ _ => .bind (.any _) fun _ _ => .bind (.any _) fun _ _ => .pure ?_
      exact (((((solid_heading mods rfl).append _).append _).append _).append _).append _
    | typeDef mods name tparams rhs =>
      exact .bind (.any _) fun _ _ => .pure ((((solid_heading mods rfl).append _).append _).append _)
    | ident name | nameToken name => exact .pure (hname name (List.mem_cons_self ..))
    | literal value => exact .pure (solid_text value.allBlank_render)
    | thisRef qual =>
      refine .pure (.behind ?_ (solid_text rfl))
      cases qual <;> rfl
    | select qualifier name =>
      exact .bind (ih qualifier (by simp [Kind.slots]) (by simp [Kind.besides, Kind.slots]) _) fun _ h =>
        .pure ((h.append _).append _)
    | apply callee args | superCall callee args =>
      exact .bind (ih callee (by simp [Kind.slots]) (by simp [Kind.besides, Kind.slots]) _) fun _ h =>
        .bind (.any _) fun _ _ => .pure (h.append _)
    | newExpr tpt => exact .bind (.any _) fun _ _ => .pure ((solid_text rfl).append _)
    | typed expr tpt =>
      exact .bind (ih expr (by simp [Kind.slots]) (by simp [Kind.besides, Kind.slots]) _) fun _ h =>
        .bind (.any _) fun _ _ => .pure ((h.append _).append _)
    | matchExpr selector cases =>
      exact .bind (ih selector (by simp [Kind.slots]) (by simp [Kind.besides, Kind.slots]) _) fun _ h =>
        .bind (.any _) fun _ _ => .pure ((h.append _).append _)
    | caseClause pat guard body =>
      refine .bind (.any _) fun _ _ => .bind (.any _) fun _ _ => .bind (.any _) fun _ _ => .pure ?_
      exact ((((solid_text rfl).append _).append _).append _).append _
    | bind name body =>
      exact .bind (.any _) fun _ _ => .pure (((hname _ (List.mem_cons_self ..)).append _).append _)
    | ifExpr cond thenBranch elseBranch =>
      refine .bind (.any _) fun _ _ => .bind (.any _) fun _ _ => .bind (.any _) fun _ _ => .pure ?_
      exact ((((solid_text rfl).append _).append _).append _).append _
    | lambda params body =>
      dsimp only
      split
      -- A parameter alone is written without parentheses.
      · simp only [List.mapM_cons, List.mapM_nil, bind_assoc, pure_bind]
        exact .bind (ih _ (List.mem_cons_self ..) (List.mem_cons_self ..) _) fun _ h => .bind (.any _) fun _ _ =>
          .pure (((h.append _).append _).append _)
      · exact .bind (.any _) fun _ _ => .bind (.any _) fun _ _ => .pure ((((solid_text rfl).append _).append _).append _)
    | importDecl expr selectors =>
      refine .bind (.any _) fun _ _ => .bind (.any _) fun _ _ => .pure ?_
      exact (((solid_text rfl).append _).append _).append _
    | importSelector name rename => exact .pure ((hname _ (List.mem_cons_self ..)).append _)
    | block stats =>
      refine .bind (.any _) fun _ _ => .pure ?_
      split
      · exact solid_text rfl
      · exact (((solid_text rfl).append _).append _).append _
    | modifierToken flag =>
      dsimp only
      cases hkeyword : flag.keyword? with
      | none => exact rfl
      | some k => exact .pure (solid_text (by cases flag <;> cases hkeyword <;> rfl))
    | selfType name tpt =>
      exact .bind (.any _) fun _ _ => .pure (((hname _ (List.mem_cons_self ..)).append _).append _)

theorem solid_rows {n : Node} (hnames : n.NamesSolid)
    (htemplates : n.Throughout fun k => ∀ c ∈ k.besides, c.tag ≠ .template) :
    n.Throughout fun k => ∀ c ∈ k.rows, ∀ d, c.doc .plain = .ok d → Solid d := by
  induction hnames with
  | @node n _ hslots ih =>
    refine .node (fun c hc d hd => ?_) fun c hc => ih c hc (htemplates.slot hc)
    have hslot := Kind.slot_of_mem_rows hc
    have hdoc := solid_doc (hslots c hslot) ⟨htemplates.layer c (Kind.beside_of_mem_rows hc), htemplates.slot hslot⟩ .plain
    rwa [hd] at hdoc

/-! ### The code of trees -/

/-- The code of a tree whose names hold no line feeds is in order. It is solid if no name is blank and all templates are in
place. -/
theorem orderly_doc {solid : Bool} {n : Node} (hnames : n.NamesInline)
    (hsolid : solid = true → n.NamesSolid ∧ n.TemplatesInPlace) {role : Role} {d : Doc} (h : n.doc role = .ok d) :
    Orderly solid d := by
  have hrows : n.Throughout fun k => ∀ c ∈ k.rows, ∀ d, c.doc .plain = .ok d → solid = true → Solid d := by
    cases solid with
    | false => exact hnames.imp fun _ _ _ _ _ _ h => absurd h Bool.false_ne_true
    | true => exact (solid_rows (hsolid rfl).1 (hsolid rfl).2.2).imp fun _ h c hc d hd _ => h c hc d hd
  have hwrites : n.Throughout (Kind.Writes false (Orderly solid) fun d => solid = true → Solid d) := by
    refine (hnames.and hrows).imp fun k hk => ⟨?_, ?_, ?_, hk.2, fun h => by cases h⟩
    · exact fun name hname => orderly_text (hk.1 name hname)
    · exact fun v _ => orderly_text v.not_mem_render
    · exact fun _ _ _ d ds hd hds => hd.append (orderly_flatMap fun s hs => .gap (.line (hds s hs).2 (hds s hs).1))
  have hdoc := doc_ensures compositional_orderly hwrites role
  rwa [h] at hdoc

end Node

end Reprint
