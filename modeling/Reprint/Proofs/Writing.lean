import Reprint.Print.Write
import Reprint.Proofs.Styles
/-!
Writing code as it goes. Main statement: what a writer puts down for a node at a depth is what is printed for the node, with
every later line indented by that depth.
-/

namespace Reprint

/-! ### Code at a depth -/

/-- A piece of code in a style, with all lines deeper. -/
def Piece.renderAt (style : Style) (depth : Nat) : Piece → Text
  | text t => t
  | line deeper => style.newline (depth + deeper)
  | emptyLine => style.lineEnding.text

namespace Doc

/-- Code in a style, with all lines deeper. -/
def renderAt (style : Style) (depth : Nat) (d : Doc) : Text := d.flatMap (Piece.renderAt style depth)

section RenderAt
variable {style : Style} {depth : Nat}

theorem renderAt_zero (d : Doc) : d.renderAt style 0 = d.render style := by
  refine congrArg (d.flatMap ·) (funext fun p => ?_)
  cases p with
  | text t => rfl
  | line deeper => rw [Piece.renderAt, Nat.zero_add]; rfl
  | emptyLine => rfl

@[simp] theorem renderAt_nil : renderAt style depth [] = [] := rfl

@[simp] theorem renderAt_append (d e : Doc) :
    renderAt style depth (d ++ e) = renderAt style depth d ++ renderAt style depth e :=
  List.flatMap_append

@[simp] theorem renderAt_text (s : String) : renderAt style depth (text s) = s.toList := List.append_nil _

@[simp] theorem renderAt_cons (p : Piece) (d : Doc) :
    renderAt style depth (p :: d) = p.renderAt style depth ++ renderAt style depth d :=
  List.flatMap_cons

@[simp] theorem renderAt_nest (d : Doc) : renderAt style depth d.nest = renderAt style (depth + 1) d := by
  rw [renderAt, nest, List.flatMap_map]
  refine congrArg (d.flatMap ·) (funext fun p => ?_)
  cases p with
  | text t => rfl
  | line deeper => rw [Piece.nest, Piece.renderAt, Piece.renderAt, Nat.add_right_comm, Nat.add_assoc]
  | emptyLine => rfl

@[simp] theorem renderAt_flatten (ds : List Doc) :
    renderAt style depth ds.flatten = (ds.map (renderAt style depth)).flatten := by
  rw [renderAt, List.flatMap_def, List.map_flatten, List.flatten_flatten, List.map_map]
  rfl

@[simp] theorem renderAt_flatMap {α : Type} (f : α → Doc) (l : List α) :
    renderAt style depth (l.flatMap f) = l.flatMap fun a => renderAt style depth (f a) := by
  rw [List.flatMap_def, renderAt_flatten, List.map_map]
  rfl

@[simp] theorem renderAt_join (ds : List Doc) :
    renderAt style depth (join ", " ds) = Writer.listed (ds.map (renderAt style depth)) := by
  induction ds with
  | nil => rfl
  | cons d ds ih =>
    cases ds with
    | nil => rw [join, Writer.listed, List.intercalate_singleton, List.map_singleton, List.intercalate_singleton]
    | cons e ds =>
      rw [join, List.intercalate_cons_cons, renderAt_append, renderAt_append, ← join, ih, renderAt_text]
      simp only [Writer.listed, List.map_cons, List.intercalate_cons_cons]

@[simp] theorem renderAt_parens (ds : List Doc) :
    renderAt style depth (parens ds) = Writer.parens (ds.map (renderAt style depth)) := by
  rw [parens, renderAt_append, renderAt_append, renderAt_join, renderAt_text, renderAt_text]
  rfl

@[simp] theorem renderAt_optional (mark : String) (o : Option Doc) :
    renderAt style depth (optional mark o) = Writer.optional mark (o.map (renderAt style depth)) := by
  cases o with
  | none => rfl
  | some d => rw [optional, renderAt_append, renderAt_text]; rfl

@[simp] theorem renderAt_keywords (mods : List ModifierToken) :
    renderAt style depth (keywords mods) = Writer.keywords mods := by
  rw [keywords, renderAt_flatMap]
  refine congrArg (mods.flatMap ·) (funext fun m => ?_)
  cases m.flag.keyword? with
  | none => rfl
  | some k => rw [renderAt_append, renderAt_text, renderAt_text]

@[simp] theorem renderAt_typeParams (tparams : List Node) :
    renderAt style depth (typeParams tparams) = Writer.typeParams tparams := by
  unfold typeParams Writer.typeParams
  split
  · rfl
  · rw [renderAt_append, renderAt_append, renderAt_join, renderAt_text, renderAt_text, List.map_map]
    simp only [Function.comp_def, renderAt_text]

@[simp] theorem renderAt_nestedLine (d : Doc) :
    renderAt style depth d.nestedLine = style.newline (depth + 1) ++ renderAt style (depth + 1) d := by
  rw [nestedLine, renderAt_cons, renderAt_nest]
  rfl

@[simp] theorem renderAt_templateCode (params superArgs parents : List Doc) (self : Option Doc) (members : List Doc) :
    renderAt style depth (Node.templateCode params superArgs parents self members) =
      Writer.template style depth (params.map (renderAt style depth)) (superArgs.map (renderAt style depth))
        (parents.map (renderAt style depth)) (self.map (renderAt style (depth + 1)))
        (members.map (renderAt style (depth + 1))) := by
  have hbraces : renderAt style depth (if self.isNone && members.isEmpty then []
      else text " \x7b" ++ optional " " (self.map nest) ++ members.flatMap nestedLine ++ [.line 0] ++ text "\x7d") =
      if (self.map (renderAt style (depth + 1))).isNone && (members.map (renderAt style (depth + 1))).isEmpty then []
      else " \x7b".toList ++ Writer.optional " " (self.map (renderAt style (depth + 1))) ++
        Writer.rows style depth (members.map (renderAt style (depth + 1))) := by
    rw [Option.isNone_map, List.isEmpty_map]
    split
    · rfl
    · simp [Writer.rows, Piece.renderAt, List.flatMap_map, Function.comp_def]
  have hparens : ∀ ds : List Doc, renderAt style depth (if ds.isEmpty then [] else parens ds) =
      if (ds.map (renderAt style depth)).isEmpty then [] else Writer.parens (ds.map (renderAt style depth)) := fun ds => by
    cases ds with
    | nil => rfl
    | cons d ds => exact renderAt_parens _
  unfold Node.templateCode Writer.template
  rw [renderAt_append, renderAt_append, hbraces, hparens]
  cases parents with
  | nil => rfl
  | cons first rest =>
    simp only [renderAt_append, renderAt_text, renderAt_flatMap, hparens, List.map_cons, List.flatMap_map]

end RenderAt

end Doc

/-! ### The writer writes the code -/

namespace Node
open Doc

/-- The writer writes the code of a node, at its depth. -/
theorem write_tracks (style : Style) (n : Node) (depth : Nat) (role : Role) :
    Tracks (renderAt style depth) (n.doc role) (n.write style depth role) := by
  induction n using slots_induction generalizing depth role with
  | step n ih =>
    obtain ⟨i, s, k⟩ := n
    replace ih : ∀ c ∈ k.slots, ∀ depth role, Tracks (renderAt style depth) (c.doc role) (c.write style depth role) := ih
    have hlist : ∀ {l : List Node} {depth : Nat} {role : Role}, (∀ c ∈ l, c ∈ k.slots) →
        Tracks (List.map (renderAt style depth)) (l.mapM (doc role)) (l.mapM (write style depth role)) :=
      fun hl => .mapM fun c hc => ih c (hl c hc) _ _
    have hoption : ∀ {o : Option Node} {depth : Nat} {role : Role}, (∀ c ∈ o, c ∈ k.slots) →
        Tracks (Option.map (renderAt style depth)) (o.mapM (doc role)) (o.mapM (write style depth role)) :=
      fun ho => .option_mapM fun c hc => ih c (ho c hc) _ _
    -- Slots are written at the depth of their layer, rows and self types one level deeper.
    rw [doc.eq_def, write.eq_def]
    simp only [List.mapM_subtype, List.unattach_attach, option_mapM_attach]
    cases k with
    | package pid stats =>
      refine .bind (ih pid (by simp [Kind.slots]) _ _) fun pid => ?_
      refine .bind (hlist fun c hc => by simp [Kind.slots, hc]) fun stats => .pure ?_
      simp [Piece.renderAt, List.flatMap_map]
    | classDef mods name tparams impl => exact .bind (ih impl (by simp [Kind.slots]) _ _) fun impl => .pure (by simp)
    | objectDef mods name impl => exact .bind (ih impl (by simp [Kind.slots]) _ _) fun impl => .pure (by simp)
    | template parents superArgs self body =>
      have hrest : ∀ params superArgs : List Doc, Tracks (renderAt style depth) (do
          let parents ← parents.mapM (doc .plain)
          let self ← self.mapM (doc .plain)
          let members ← (body.filter (!·.isParameter)).mapM (doc .plain)
          return templateCode params superArgs parents self members) (do
          let parents ← parents.mapM (write style depth .plain)
          let self ← self.mapM (write style (depth + 1) .plain)
          let members ← (body.filter (!·.isParameter)).mapM (write style (depth + 1) .plain)
          return Writer.template style depth (params.map (renderAt style depth)) (superArgs.map (renderAt style depth))
            parents self members) := by
        intro params superArgs
        refine .bind (hlist fun c hc => by simp [Kind.slots, hc]) fun parents => ?_
        refine .bind (hoption fun c hc => by simp_all [Kind.slots]) fun self => ?_
        refine .bind (hlist fun c hc => by simp [Kind.slots, (List.mem_filter.mp hc).1]) fun members => ?_
        exact .pure (renderAt_templateCode ..).symm
      simp only [pure_bind]
      split
      · refine .bind (hlist fun c hc => by simp [Kind.slots, (List.mem_filter.mp hc).1]) fun params => ?_
        split
        · exact hrest params []
        · exact .bind (hlist fun c hc => by simp [Kind.slots, hc]) fun superArgs => hrest params superArgs
      · split
        · exact hrest [] []
        · exact .bind (hlist fun c hc => by simp [Kind.slots, hc]) fun superArgs => hrest [] superArgs
    | valDef mods name tpt rhs =>
      refine .bind (hoption fun c hc => by simp_all [Kind.slots]) fun tpt => ?_
      refine .bind (hoption fun c hc => by simp_all [Kind.slots]) fun rhs => .pure ?_
      split <;> simp
    | methodDef mods name tparams vparamss tpt rhs =>
      refine .bind (.mapM fun ps hps => hlist fun p hp => ?_) fun vparamss => ?_
      · exact List.mem_append_left _ (List.mem_append_left _ (List.mem_append_right _ (List.mem_flatten.mpr ⟨ps, hps, hp⟩)))
      refine .bind (hoption fun c hc => by simp_all [Kind.slots]) fun tpt => ?_
      refine .bind (hoption fun c hc => by simp_all [Kind.slots]) fun rhs => .pure ?_
      simp [List.flatMap_map]
    | typeDef mods name tparams rhs =>
      exact .bind (hoption fun c hc => by simp_all [Kind.slots]) fun rhs => .pure (by simp)
    | ident name | nameToken name => exact .pure (by simp)
    | literal value => exact .pure (by simp [Piece.renderAt])
    | thisRef qual =>
      refine .pure ?_
      cases qual <;> simp
    | select qualifier name => exact .bind (ih qualifier (by simp [Kind.slots]) _ _) fun qualifier => .pure (by simp)
    | apply callee args | superCall callee args =>
      refine .bind (ih callee (by simp [Kind.slots]) _ _) fun callee => ?_
      exact .bind (hlist fun c hc => by simp [Kind.slots, hc]) fun args => .pure (by simp)
    | newExpr tpt => exact .bind (ih tpt (by simp [Kind.slots]) _ _) fun tpt => .pure (by simp)
    | typed expr tpt =>
      refine .bind (ih expr (by simp [Kind.slots]) _ _) fun expr => ?_
      exact .bind (ih tpt (by simp [Kind.slots]) _ _) fun tpt => .pure (by simp)
    | matchExpr selector cases =>
      refine .bind (ih selector (by simp [Kind.slots]) _ _) fun selector => ?_
      refine .bind (hlist fun c hc => by simp [Kind.slots, hc]) fun cases => .pure ?_
      simp [braces, Writer.rows, Piece.renderAt, List.flatMap_map]
    | caseClause pat guard body =>
      refine .bind (ih pat (by simp [Kind.slots]) _ _) fun pat => ?_
      refine .bind (hoption fun c hc => by simp_all [Kind.slots]) fun guard => ?_
      exact .bind (ih body (by simp [Kind.slots]) _ _) fun body => .pure (by simp)
    | bind name body => exact .bind (ih body (by simp [Kind.slots]) _ _) fun body => .pure (by simp)
    | ifExpr cond thenBranch elseBranch =>
      refine .bind (ih cond (by simp [Kind.slots]) _ _) fun cond => ?_
      refine .bind (ih thenBranch (by simp [Kind.slots]) _ _) fun thenBranch => ?_
      exact .bind (hoption fun c hc => by simp_all [Kind.slots]) fun elseBranch => .pure (by simp)
    | lambda params body =>
      refine .bind (hlist fun c hc => by simp [Kind.slots, hc]) fun docs => ?_
      refine .bind (ih body (by simp [Kind.slots]) _ _) fun body => .pure ?_
      split <;> simp
    | importDecl expr selectors =>
      refine .bind (ih expr (by simp [Kind.slots]) _ _) fun expr => ?_
      refine .bind (hlist fun c hc => by simp [Kind.slots, hc]) fun docs => .pure ?_
      split <;> simp
    | importSelector name rename =>
      refine .pure ?_
      simp [Function.comp_def]
    | block stats =>
      refine .bind (hlist fun c hc => by simp [Kind.slots, hc]) fun stats => .pure ?_
      cases stats with
      | nil => simp
      | cons d ds => simp [braces, Writer.rows, Piece.renderAt, List.flatMap_map]
    | modifierToken flag =>
      dsimp only
      cases flag.keyword? with
      | none => rfl
      | some k => exact .pure (by simp)
    | selfType name tpt => exact .bind (hoption fun c hc => by simp_all [Kind.slots]) fun tpt => .pure (by simp)

end Node

/-! ### Indenting -/

/-- A line ending is a line feed behind nothing to see. -/
theorem LineEnding.exists_text (e : LineEnding) : ∃ r, e.text = r ++ ['\n'] ∧ '\n' ∉ r ∧ r.allBlank = true := by
  cases e with
  | lf => exact ⟨[], rfl, by decide, rfl⟩
  | crlf => exact ⟨['\r'], rfl, by decide, rfl⟩

namespace Doc
variable {style : Style} {depth : Nat} {d : Doc}

theorem first_prefix_renderAt (style : Style) (depth : Nat) (d : Doc) : d.first <+: d.renderAt style depth := by
  induction d with
  | nil => exact List.nil_prefix
  | cons p d ih =>
    cases p with
    | text t => exact List.prefix_append_right_inj t |>.mpr ih
    | line deeper => exact List.nil_prefix
    | emptyLine => exact List.nil_prefix

/-- Code in a style that stands behind a text on the same line: indenting it makes it deeper. -/
theorem Orderly.indentLines_renderAt (h : Orderly true d) {a : Text} (ha : '\n' ∉ a) :
    Text.indentLines (a ++ d.renderAt style 0) (style.indent.atDepth depth) = a ++ d.renderAt style depth := by
  obtain ⟨r, hending, hr, hblank⟩ := style.lineEnding.exists_text
  have hbreak : ∀ {a}, '\n' ∉ a → '\n' ∉ a ++ r := fun ha hmem => (List.mem_append.mp hmem).elim ha hr
  induction h generalizing a with
  | nil =>
    rw [renderAt_nil, renderAt_nil, List.append_nil, Text.indentLines, Text.reindent_eq (Text.splitOn_of_not_mem ha)]
    exact List.append_nil a
  | @text t d ht hd ih =>
    have hline : '\n' ∉ a ++ t := fun hmem => (List.mem_append.mp hmem).elim ha ht
    rw [renderAt_cons, renderAt_cons, Piece.renderAt, Piece.renderAt, ← List.append_assoc, ih hline, List.append_assoc]
  | @line deeper d hsolid hd ih =>
    have hindent : '\n' ∉ style.indent.atDepth deeper :=
      (Text.allBlank_of_isIndent (style.indent.isIndent_atDepth deeper)).2
    -- The line that begins here is not blank.
    obtain ⟨t, ht⟩ := first_prefix_renderAt style 0 d
    obtain ⟨line, rest, hlines⟩ := Text.exists_lines t
    replace hlines := Text.lines_append hindent (ht ▸ Text.lines_append hd.first_inline hlines)
    have hline : Text.allBlank (style.indent.atDepth deeper ++ (first d ++ line)) = false := by
      refine Bool.eq_false_iff.mpr fun h => ?_
      exact Bool.eq_false_iff.mp (hsolid rfl) (Text.allBlank_append.mp (Text.allBlank_append.mp h).2).1
    have hstep := Text.indentLines_break (style.indent.atDepth depth) (hbreak ha) hlines
    rw [hline, if_neg Bool.false_ne_true, ih hindent] at hstep
    simpa [Piece.renderAt, Style.newline, hending, IndentStyle.atDepth_add] using hstep
  | @gap deeper d hd ih =>
    -- The blank line ends at once.
    have hlines : Text.lines (renderAt style 0 (.line deeper :: d)) =
        r :: Text.lines (style.indent.atDepth deeper ++ renderAt style 0 d) := by
      rw [renderAt_cons, Piece.renderAt, Style.newline, hending, Nat.zero_add, List.append_assoc, List.append_assoc,
        List.singleton_append, Text.lines, Text.splitOn_append_cons, Text.splitOn_of_not_mem hr]
      rfl
    have hstep := Text.indentLines_break (style.indent.atDepth depth) (hbreak ha) hlines
    have hrest := ih List.not_mem_nil
    rw [List.nil_append] at hrest
    rw [hblank, if_pos rfl, hrest] at hstep
    simpa [Piece.renderAt, hending] using hstep

end Doc

/-! ### Main statement -/

namespace Node

/-- Writing a node at a depth is writing it at the margin and indenting all lines but the first and the blank ones. At
the margin the writer writes what is printed. -/
theorem write_indents (style : Style) (depth : Nat) (role : Role) {n : Node} (hinline : n.NamesInline)
    (hsolid : n.NamesSolid) (htemplates : n.TemplatesInPlace) :
    n.write style depth role = (n.write style 0 role).map (·.indentLines (style.indent.atDepth depth)) ∧
      n.write style 0 .plain = n.pretty style := by
  have hpretty : n.write style 0 .plain = n.pretty style := by
    rw [write_tracks style n 0 .plain, pretty]
    exact congrArg (Except.map · _) (funext Doc.renderAt_zero)
  refine ⟨?_, hpretty⟩
  rw [write_tracks style n depth role, write_tracks style n 0 role]
  cases hdoc : n.doc role with
  | error e => rfl
  | ok d =>
    have horderly : Doc.Orderly true d := orderly_doc hinline (fun _ => ⟨hsolid, htemplates⟩) hdoc
    exact congrArg Except.ok (horderly.indentLines_renderAt List.not_mem_nil).symm

/-- The blank line of the package stays empty. -/
theorem nestedCode_written :
    (nestedCode.NamesInline ∧ nestedCode.NamesSolid ∧ nestedCode.TemplatesInPlace) ∧
      nestedCode.write { indent := .tabs, lineEnding := .crlf } 1 .plain =
        .ok "package a\r\n\r\n\tobject B \x7b\r\n\t\tdef c = \x7b\r\n\t\t\tx\r\n\t\t\x7d\r\n\t\x7d".toList := by
  have hsolid : nestedCode.NamesSolid := by
    simp [nestedCode, NamesSolid, throughout_mk, Kind.slots, Kind.names, Kind.name?, Text.allBlank, isBlank]
  have htemplates : nestedCode.TemplatesInPlace := by
    simp [nestedCode, TemplatesInPlace, throughout_mk, Kind.slots, Kind.besides, tag, Kind.tag, kind]
  obtain ⟨hwrite, hpretty⟩ := write_indents { indent := .tabs, lineEnding := .crlf } 1 .plain nestedCode_namesInline
    hsolid htemplates
  refine ⟨⟨nestedCode_namesInline, hsolid, htemplates⟩, ?_⟩
  rw [hwrite, hpretty]
  cbv

end Node

end Reprint
