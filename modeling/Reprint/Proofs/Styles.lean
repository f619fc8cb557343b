import Reprint.Proofs.CodeLines
/-!
What a style decides about printed code. The lines of the code and their depths are the same in every style: a style
puts indentation in front of the lines and line endings between them. Main statement: printed code is its lines, laid
out in the style, and where lines end with carriage returns the code is what it would be without them, with a carriage
return in front of every line feed.
-/

namespace Reprint

/-- Lines at depths, in a style. -/
def Style.layOut (style : Style) (lines : List (Nat × Text)) : Text :=
  style.lineEnding.text.intercalate (lines.map fun l => style.indent.atDepth l.1 ++ l.2)

/-- A text with a carriage return in front of every line feed. -/
def Text.withReturns (t : Text) : Text := t.flatMap fun c => if c = '\n' then ['\r', '\n'] else [c]

/-! ### Carriage returns -/

namespace Text

theorem withReturns_append (a b : Text) : withReturns (a ++ b) = a.withReturns ++ b.withReturns := List.flatMap_append

theorem withReturns_of_not_mem {t : Text} (h : '\n' ∉ t) : t.withReturns = t := by
  induction t with
  | nil => rfl
  | cons c t ih =>
    have hc : c ≠ '\n' := fun hc => h (hc ▸ List.mem_cons_self ..)
    rw [withReturns, List.flatMap_cons, if_neg hc, ← withReturns, ih fun ht => h (List.mem_cons_of_mem _ ht)]
    rfl

end Text

/-- Only the line feeds between the lines get carriage returns. -/
theorem Style.withReturns_layOut (indent : IndentStyle) {lines : List (Nat × Text)} (h : ∀ l ∈ lines, '\n' ∉ l.2) :
    (layOut ⟨indent, .lf⟩ lines).withReturns = layOut ⟨indent, .crlf⟩ lines := by
  have hline : ∀ l ∈ lines, Text.withReturns (indent.atDepth l.1 ++ l.2) = indent.atDepth l.1 ++ l.2 := fun l hl => by
    have hindent : '\n' ∉ indent.atDepth l.1 := (Text.allBlank_of_isIndent (indent.isIndent_atDepth l.1)).2
    rw [Text.withReturns_append, Text.withReturns_of_not_mem hindent, Text.withReturns_of_not_mem (h l hl)]
  cases lines with
  | nil => rfl
  | cons l lines =>
    rw [layOut, layOut, List.map_cons, intercalate_cons_flatMap, intercalate_cons_flatMap, Text.withReturns_append,
      hline l (List.mem_cons_self ..), Text.withReturns, List.flatMap_assoc, List.flatMap_map, List.flatMap_map]
    refine congrArg (_ ++ ·) (List.flatMap_congr fun k hk => ?_)
    rw [← Text.withReturns, Text.withReturns_append, hline k (List.mem_cons_of_mem _ hk)]
    rfl

/-! ### The lines of code -/

namespace Doc

/-- The lines of code with their depths. The first line and blank lines between statements are at the margin. -/
def placedLines (d : Doc) : List (Nat × Text) := (0, d.first) :: d.rest.map fun l => (l.1.getD 0, l.2)

/-- Lines with a text in front of the first. -/
def ahead (t : Text) : List (Nat × Text) → List (Nat × Text)
  | [] => []
  | (depth, line) :: lines => (depth, t ++ line) :: lines

/-- Code in a style is its lines, laid out. -/
theorem layOut_placedLines (style : Style) (d : Doc) : style.layOut d.placedLines = d.render style := by
  rw [Style.layOut, placedLines, List.map_cons, intercalate_cons_flatMap]
  induction d with
  | nil => rfl
  | cons p d ih =>
    rw [render, List.flatMap_cons, ← render, ← ih]
    cases p with
    | text t => exact List.append_assoc t _ _
    | line depth => simp [first, rest, Piece.render, IndentStyle.atDepth]
    | emptyLine => simp [first, rest, Piece.render, IndentStyle.atDepth]

theorem first_append_emptyLine (d e : Doc) : first (d ++ .emptyLine :: e) = d.first := by
  induction d with
  | nil => rfl
  | cons p d ih =>
    cases p with
    | text t => exact congrArg (t ++ ·) ih
    | line depth => rfl
    | emptyLine => rfl

theorem rest_append_emptyLine (d e : Doc) : rest (d ++ .emptyLine :: e) = d.rest ++ (none, e.first) :: e.rest := by
  induction d with
  | nil => rfl
  | cons p d ih =>
    cases p with
    | text t => exact ih
    | line depth | emptyLine => rw [List.cons_append, rest, first_append_emptyLine, ih, rest, List.cons_append]

/-- After a blank line the lines begin anew. -/
theorem placedLines_append_gap (d e : Doc) :
    placedLines (d ++ ([.emptyLine, .line 0] ++ e)) = d.placedLines ++ (0, []) :: e.placedLines := by
  rw [List.cons_append, placedLines, first_append_emptyLine, rest_append_emptyLine, List.map_append]
  rfl

theorem placedLines_statements (d : Doc) (stats : List Doc) :
    placedLines (d ++ stats.flatMap fun s => [.emptyLine, .line 0] ++ s) =
      d.placedLines ++ (stats.map placedLines).flatMap ((0, []) :: ·) := by
  induction stats generalizing d with
  | nil => rw [List.flatMap_nil, List.append_nil, List.map_nil, List.flatMap_nil, List.append_nil]
  | cons s stats ih =>
    rw [List.flatMap_cons, ← List.append_assoc, ih, placedLines_append_gap,
      List.map_cons, List.flatMap_cons, List.append_assoc]

theorem Orderly.lines_inline {solid : Bool} {d : Doc} (h : Orderly solid d) : ∀ l ∈ d.placedLines, '\n' ∉ l.2 :=
  List.forall_mem_cons.mpr ⟨h.first_inline, List.forall_mem_map.mpr fun l hl => h.rest_inline l hl⟩

/-- The only blank lines of solid code are empty and at the margin. -/
theorem Orderly.lines_blank {d : Doc} (h : Orderly true d) (hsolid : Solid d) {l : Nat × Text} (hl : l ∈ d.placedLines)
    (hblank : l.2.allBlank = true) : l = (0, []) := by
  rcases List.mem_cons.mp hl with rfl | hl
  · exact absurd hblank (Bool.eq_false_iff.mp hsolid)
  · obtain ⟨k, hk, rfl⟩ := List.mem_map.mp hl
    obtain ⟨hgap, hline⟩ := h.rest_blank k hk
    obtain ⟨depth, t⟩ := k
    cases depth with
    | none => exact congrArg (Prod.mk 0) (hgap rfl)
    | some depth => exact absurd hblank (Bool.eq_false_iff.mp (hline rfl (Option.some_ne_none _)))

end Doc

/-! ### Main statement -/

namespace Node
open Doc

/-- The lines of a node's code with their depths. -/
def placedLines (n : Node) : Except PrintError (List (Nat × Text)) := (n.doc .plain).map Doc.placedLines

/-- The statements of a package follow its name and one another after blank lines at the margin. -/
theorem placedLines_package {i : Identity} {s : Option Span} {pid : Node} {stats : List Node} :
    placedLines (.mk i s (.package pid stats)) = (do
      let pid ← pid.placedLines
      let stats ← stats.mapM placedLines
      return ahead "package ".toList pid ++ stats.flatMap ((0, []) :: ·)) := by
  have hpid : Tracks Doc.placedLines (pid.doc .plain) pid.placedLines := rfl
  have hstats : Tracks (List.map Doc.placedLines) (stats.mapM (doc .plain)) (stats.mapM placedLines) := .mapM fun _ _ => rfl
  rw [placedLines, doc.eq_def]
  simp only [List.mapM_subtype, List.unattach_attach]
  refine Eq.symm (Tracks.bind hpid fun pid => ?_)
  exact .bind hstats fun stats => .pure (placedLines_statements (text "package " ++ pid) stats).symm

/-- Printed code is its lines, laid out in the style. They are at the same depths in all styles, the first at the
margin, and each is one line. The statements of a package follow after blank lines at the margin, and where no name is
blank these are the only blank lines. Carriage returns in line endings change nothing but the line feeds. -/
theorem pretty_laidOut {n : Node} (h : n.NamesInline) :
    (∀ style, n.pretty style = n.placedLines.map style.layOut) ∧
    (∀ lines, n.placedLines = .ok lines → (∃ first later, lines = (0, first) :: later) ∧ (∀ l ∈ lines, '\n' ∉ l.2) ∧
      (n.NamesSolid → n.TemplatesInPlace → ∀ l ∈ lines, l.2.allBlank = true → l = (0, []))) ∧
    (∀ pid stats, n.kind = .package pid stats → n.placedLines = (do
      let pid ← pid.placedLines
      let stats ← stats.mapM placedLines
      return ahead "package ".toList pid ++ stats.flatMap ((0, []) :: ·))) ∧
    ∀ indent, n.pretty ⟨indent, .crlf⟩ = (n.pretty ⟨indent, .lf⟩).map Text.withReturns := by
  have hpretty : ∀ style, n.pretty style = n.placedLines.map style.layOut := fun style => by
    rw [pretty, placedLines]
    cases n.doc .plain with
    | error e => rfl
    | ok d => exact congrArg Except.ok (layOut_placedLines style d).symm
  have hcode : ∀ lines, n.placedLines = .ok lines → ∃ d, n.doc .plain = .ok d ∧ d.placedLines = lines :=
    fun lines hlines => by
    rw [Node.placedLines] at hlines
    cases hdoc : n.doc .plain with
    | error e => rw [hdoc] at hlines; cases hlines
    | ok d => rw [hdoc] at hlines; exact ⟨d, rfl, Except.ok.inj hlines⟩
  have hinline : ∀ lines, n.placedLines = .ok lines → ∀ l ∈ lines, '\n' ∉ l.2 := fun lines hlines => by
    obtain ⟨d, hdoc, rfl⟩ := hcode lines hlines
    have horderly : Orderly false d := orderly_doc h (fun h => absurd h Bool.false_ne_true) hdoc
    exact horderly.lines_inline
  refine ⟨hpretty, fun lines hlines => ⟨?_, hinline lines hlines, fun hsolid htemplates l hl => ?_⟩, ?_, fun indent => ?_⟩
  · obtain ⟨d, -, rfl⟩ := hcode lines hlines
    exact ⟨_, _, rfl⟩
  · obtain ⟨d, hdoc, rfl⟩ := hcode lines hlines
    have horderly : Orderly true d := orderly_doc h (fun _ => ⟨hsolid, htemplates⟩) hdoc
    have hfirst := solid_doc hsolid htemplates .plain
    rw [hdoc] at hfirst
    exact horderly.lines_blank hfirst hl
  · obtain ⟨i, s, k⟩ := n
    rintro pid stats rfl
    exact placedLines_package
  · rw [hpretty, hpretty]
    cases hn : n.placedLines with
    | error e => rfl
    | ok lines => exact congrArg Except.ok (Style.withReturns_layOut indent (hinline lines hn)).symm

/-- A package with an object, whose method has a block. -/
def nestedCode : Node :=
  .mk (.built 0) none (.package (.mk (.built 1) none (.ident "a"))
    [.mk (.built 2) none (.objectDef [] { text := "B" } (.mk (.built 3) none (.template [] [] none
      [.mk (.built 4) none (.methodDef [] { text := "c" } [] [] none
        (some (.mk (.built 5) none (.block [.mk (.built 6) none (.ident "x")]))))])))])

theorem nestedCode_namesInline : nestedCode.NamesInline := by
  simp [nestedCode, NamesInline, throughout_mk, Kind.slots, Kind.names, Kind.name?]

/-- The lines of the package, and what a style makes of them. -/
theorem nestedCode_laidOut : nestedCode.NamesInline ∧
    nestedCode.placedLines = .ok [(0, "package a".toList), (0, []), (0, "object B \x7b".toList), (1, "def c = \x7b".toList),
      (2, "x".toList), (1, "\x7d".toList), (0, "\x7d".toList)] ∧
    nestedCode.pretty ⟨.tabs, .crlf⟩ =
      .ok "package a\r\n\r\nobject B \x7b\r\n\tdef c = \x7b\r\n\t\tx\r\n\t\x7d\r\n\x7d".toList := by
  have hlines : nestedCode.placedLines = .ok [(0, "package a".toList), (0, []), (0, "object B \x7b".toList),
      (1, "def c = \x7b".toList), (2, "x".toList), (1, "\x7d".toList), (0, "\x7d".toList)] := by cbv
  refine ⟨nestedCode_namesInline, hlines, ?_⟩
  rw [(pretty_laidOut nestedCode_namesInline).1, hlines]
  cbv

end Node

end Reprint
