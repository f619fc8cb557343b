import Mathlib
import Reprint.Proofs.Arguments
import Reprint.Proofs.Completion
import Reprint.Proofs.Refilled
import Reprint.Proofs.Remarks
/-!
Blocks of names, one on each line with a remark behind it. The line breaks of such a block come from three places: an
old statement brings the one ahead of it along, a new first statement gets one from the block, and any other new one
gets one from the separator. Main statement: whatever statements the block is given, old ones in any order and as often
as you like and new ones among them, each of them stands on a line of its own with the remark that it had
(`statements_rewritten`).
-/

namespace Reprint

/-! ### Lines and blanks -/

namespace Text

section Lines
variable {a b : Text} {c d : Char}

/-- The blanks at the end of a text stand behind the last character that is not blank. -/
theorem not_mem_trailingBlanks (hc : isBlank c = false) (hd : d ∉ b) : d ∉ trailingBlanks (a ++ c :: b) := by
  have hbehind : ∀ {x : Text}, d ∉ x → d ∉ (x ++ c :: a.reverse).takeWhile isBlank := by
    intro x hx
    induction x with
    | nil => simp [hc]
    | cons e x ih =>
      obtain ⟨hne, hx⟩ := not_or.mp (mt List.mem_cons.mpr hx)
      cases he : isBlank e with
      | false => simp [he]
      | true => simpa [he, hne] using ih hx
  have hreverse : (a ++ c :: b).reverse = b.reverse ++ c :: a.reverse := by simp
  rw [trailingBlanks, hreverse, List.mem_reverse]
  exact hbehind (by simpa using hd)

end Lines

end Text

/-! ### Blocks of names -/

namespace Node

/-- A statement on a line of its own, with the remark behind it. -/
def statementText (indent : Text) (x : Node × Text) : Text := '\n' :: indent ++ x.1.inscription ++ x.2

/-- A block of statements. -/
def bracedText (indent : Text) (stats : List (Node × Text)) : Text :=
  '{' :: stats.flatMap (statementText indent) ++ ['\n', '}']

/-- The row of some statements and of what closes their block. -/
def statementRow (indent : Text) : List (Node × Text) → Row
  | [] => .mark ['\n', '}'] .nil
  | x :: stats => .mark ('\n' :: indent) (.child x.1 x.1.inscription (.mark x.2 (statementRow indent stats)))

/-- The row of a block. -/
def blockRow (indent : Text) (stats : List (Node × Text)) : Row := .mark ['{'] (statementRow indent stats)

/-- What a statement brings along: an old one its line and its remark, a new one its name. -/
def statementShare (indent : Text) (x : Node × Text) : Node × Text :=
  (x.1, if x.1.span.isSome then statementText indent x else x.1.inscription)

section Rows
variable {indent : Text} {stats : List (Node × Text)}

theorem text_statementRow : (statementRow indent stats).text = stats.flatMap (statementText indent) ++ ['\n', '}'] := by
  induction stats with
  | nil => rfl
  | cons x stats ih => simp [statementRow, statementText, ih]

theorem text_blockRow : (blockRow indent stats).text = bracedText indent stats := by
  rw [blockRow, Row.text_mark, text_statementRow]
  rfl

theorem head_blockRow (hstats : stats ≠ []) : (blockRow indent stats).head = '{' :: '\n' :: indent := by
  obtain ⟨x, stats, rfl⟩ := List.exists_cons_of_ne_nil hstats
  simp [blockRow, statementRow, Row.mark, Row.child]

theorem cells_blockRow (hstats : stats ≠ []) : (blockRow indent stats).cells ≠ [] := by
  obtain ⟨x, stats, rfl⟩ := List.exists_cons_of_ne_nil hstats
  exact List.cons_ne_nil _ _

theorem lastGap_statementRow {x : Node × Text} (hlast : stats.getLast? = some x) :
    (statementRow indent stats).lastGap = x.2 ++ ['\n', '}'] := by
  induction stats with
  | nil => cases hlast
  | cons y stats ih =>
    cases stats with
    | nil =>
      cases hlast
      rfl
    | cons z stats => exact ih (by rwa [List.getLast?_cons_cons] at hlast)

theorem lastGap_blockRow {x : Node × Text} (hlast : stats.getLast? = some x) :
    (blockRow indent stats).lastGap = x.2 ++ ['\n', '}'] := by
  cases stats with
  | nil => cases hlast
  | cons y stats => exact lastGap_statementRow hlast

theorem children_block {n : Node} {stats : List Node} (h : n.kind = .block stats) : n.children = stats := by
  obtain ⟨i, q, k⟩ := n
  cases h
  rfl

end Rows

end Node

namespace Row
open Node

section Shares
variable {parent : Node} {head indent : Text} {previous : Option Cell} {nodes : List Node} {stats : List (Node × Text)}

theorem index?_block {left right : Node} (hparent : parent.kind = .block nodes) (hleft : left.tag = .ident)
    (code : Text) : Gap.Junction.index? { parent, left, right } code = none := by
  have hcases : Gap.Junction.opensCases { parent, left, right } = false := by rw [Gap.Junction.opensCases, hparent]
  have hparams : Gap.Junction.endsParameters { parent, left, right } = false := by
    rw [Gap.Junction.endsParameters, hparent]
  have hdef : left.isDefinition = false := by rw [isDefinition, hleft]; rfl
  simp [Gap.Junction.index?, hcases, hparams, hdef, hleft]

/-- Every statement brings its line and its remark along. -/
theorem shares_statementRow (hparent : parent.kind = .block nodes) (hindent : indent.allBlank = true)
    (hstats : ∀ x ∈ stats, x.1.tag = .ident ∧ Gap.Remark x.2)
    (hlead : ∀ cell, lead parent head previous cell = '\n' :: indent) :
    shares parent head previous (statementRow indent stats).cells =
      stats.map fun x => (x.1, statementText indent x) := by
  induction stats generalizing previous with
  | nil => rfl
  | cons x stats ih =>
    obtain ⟨⟨htag, hremark⟩, hstats⟩ := List.forall_mem_cons.mp hstats
    have hcells : (statementRow indent (x :: stats)).cells =
        ⟨x.1, x.1.inscription, x.2 ++ (statementRow indent stats).head⟩ :: (statementRow indent stats).cells := rfl
    have hsplit : ∀ right, Gap.splitBetween (x.2 ++ '\n' :: indent) { parent, left := x.1, right } =
        (x.2, '\n' :: indent) := fun right => Gap.splitBetween_remark hremark hindent (index?_block hparent htag)
    rw [hcells, shares, share, hlead, List.map_cons]
    cases stats with
    | nil =>
      have htrail : (Gap.splitTrailing (x.2 ++ ['\n', '}'])).1 = x.2 := by
        rw [Gap.splitTrailing_remark hremark (by decide) (by decide) (by decide)]
      exact congrArg (fun t => [(x.1, '\n' :: indent ++ x.1.inscription ++ t)]) htrail
    | cons y stats =>
      have hhead : x.2 ++ (statementRow indent (y :: stats)).head = x.2 ++ '\n' :: indent :=
        congrArg (x.2 ++ ·) (List.append_nil _)
      have hnext : ∀ cell,
          lead parent head (some ⟨x.1, x.1.inscription, x.2 ++ '\n' :: indent⟩) cell = '\n' :: indent :=
        fun cell => congrArg Prod.snd (hsplit cell.node)
      rw [hhead, ih hstats hnext]
      refine congrArg (· :: _) (Prod.ext rfl ?_)
      exact congrArg ('\n' :: indent ++ x.1.inscription ++ ·) (congrArg Prod.fst (hsplit y.1))

/-- The brace that opens the block stays with it, and the first line break goes to the first statement. -/
theorem splitLeading_blockRow (hparent : parent.kind = .block nodes) (hindent : indent.allBlank = true)
    (hstats : stats ≠ []) : Gap.splitLeading parent (blockRow indent stats).head = (['{'], '\n' :: indent) := by
  have habsent : ∀ c, isBlank c = false → c ≠ '{' → c ∉ '{' :: '\n' :: indent := fun c hc hbrace =>
    List.not_mem_cons_of_ne_of_not_mem hbrace (Text.not_mem_of_allBlank (t := '\n' :: indent) hindent hc)
  have hdef : parent.isDefinition = false := by rw [isDefinition, tag, hparent]; rfl
  rw [head_blockRow hstats]
  exact Gap.splitLeading_brace hdef (habsent '/' rfl (by decide)) (habsent ',' rfl (by decide))

/-- The last line break stays with the block, and so does the brace that closes it. -/
theorem splitTrailing_blockRow (hstats : stats ≠ []) (hremarks : ∀ x ∈ stats, Gap.Remark x.2) :
    (Gap.splitTrailing (blockRow indent stats).lastGap).2 = ['\n', '}'] := by
  have hremark := hremarks _ (List.getLast_mem hstats)
  rw [lastGap_blockRow (List.getLast?_eq_some_getLast hstats),
    Gap.splitTrailing_remark hremark (by decide) (by decide) (by decide)]

end Shares

end Row

/-! ### Putting statements together -/

namespace Separator
open Text

/-- A line break is put between two texts unless the blanks there have one. -/
theorem glue_lineBreak {indent out t : Text} (hindent : indent.allBlank = true) :
    glue out ('\n' :: indent) t =
      (if hasLineFeed out.trailingBlanks || hasLineFeed t.leadingBlanks then [] else '\n' :: indent, t) := by
  have hcore : Text.trim ('\n' :: indent) = [] := trim_eq_nil_iff.mpr hindent
  have hline : hasLineFeed ('\n' :: indent) = true := by simp [hasLineFeed]
  rw [glue_blank hcore, blankPresent, hline, if_pos rfl]

end Separator

namespace Printer
open Text Node Separator

/-- A name with the remark that it had. -/
structure IsStatement (x : Node × Text) : Prop where
  name : x.1.isName = true
  remark : Gap.Remark x.2
  new : x.1.span = none → x.2 = []

section Statements
variable {n : Node} {nodes : List Node} {ahead indent out : Text} {previous : Option Node} {x : Node × Text}
  {stats : List (Node × Text)}

/-- Behind a text that does not end with a line break, a statement stands on a line of its own. -/
theorem addChild_statement (hn : n.kind = .block nodes) (hindent : indent.allBlank = true) (hx : IsStatement x)
    (hout : '\n' ∉ out.trailingBlanks) :
    addChild n ahead ('\n' :: indent) previous out x.1 (brought (statementShare indent x)).2 =
      out ++ statementText indent x := by
  have hnone : hasLineFeed out.trailingBlanks = false := by simpa [hasLineFeed] using hout
  have hbetween : ∀ left, between n left x.1 = .lineBreak := fun left => by rw [between, hn]
  have hopening : opening? n x.1 = some .lineBreak := by rw [opening?, hn]
  cases hspan : x.1.span with
  | some s =>
    have hshare : brought (statementShare indent x) = (x.1, { center := statementText indent x }) := by
      simp [brought, statementShare, hspan]
    have hblanks : hasLineFeed (statementText indent x).leadingBlanks = true := by
      have hblank : isBlank '\n' = true := by decide
      simp [statementText, leadingBlanks, hasLineFeed, hblank]
    have htext : Fragment.text { center := statementText indent x } = statementText indent x := by simp [Fragment.text]
    rw [hshare]
    cases previous with
    | none => simp [addChild, expected?, htext]
    | some left => simp [addChild, expected?, htext, hbetween, Separator.text, glue_lineBreak hindent, hblanks]
  | none =>
    have hshare : brought (statementShare indent x) = (x.1, { center := x.1.inscription, fresh := true }) := by
      simp [brought, statementShare, hspan]
    have htext : Fragment.text { center := x.1.inscription, fresh := true } = x.1.inscription := by simp [Fragment.text]
    obtain ⟨-, hsolid⟩ := isName_iff.mp hx.name
    have hblanks : hasLineFeed x.1.inscription.leadingBlanks = false := by
      obtain ⟨d, r, hd, hblank, -⟩ := exists_head_of_isSolid hsolid
      rw [hd]
      simp [leadingBlanks, hasLineFeed, hblank]
    have hline : ∀ t, x.1.inscription.indentLines t = x.1.inscription :=
      indentLines_of_not_mem (not_mem_of_isSolid hsolid (by decide))
    have hexpected : expected? n previous x.1 true = some .lineBreak := by
      cases previous with
      | none => exact hopening
      | some left => exact congrArg some (hbetween left)
    rw [hshare]
    simp [addChild, hexpected, htext, Separator.text, glue_lineBreak hindent, hnone, hblanks, hline, statementText,
      hx.new hspan]

/-- Behind a statement no line has ended yet. -/
theorem trailingBlanks_statement (hx : IsStatement x) : '\n' ∉ trailingBlanks (out ++ statementText indent x) := by
  obtain ⟨r, c, hname, hc, -⟩ := exists_last_of_isSolid (isName_iff.mp hx.name).2
  have hsplit : out ++ statementText indent x = (out ++ '\n' :: indent ++ r) ++ c :: x.2 := by
    simp [statementText, hname]
  rw [hsplit]
  exact not_mem_trailingBlanks hc hx.remark.not_mem

/-- Each statement stands on a line of its own. -/
theorem addChildren_statements (hn : n.kind = .block nodes) (hindent : indent.allBlank = true)
    (hstats : ∀ x ∈ stats, IsStatement x) (hout : '\n' ∉ out.trailingBlanks) :
    addChildren n ahead ('\n' :: indent) previous out ((stats.map (statementShare indent)).map brought) =
      out ++ stats.flatMap (statementText indent) := by
  induction stats generalizing previous out with
  | nil => simp [addChildren]
  | cons x stats ih =>
    obtain ⟨hx, hstats⟩ := List.forall_mem_cons.mp hstats
    have hstep : addChild n ahead ('\n' :: indent) previous out x.1 (brought (statementShare indent x)).2 =
        out ++ statementText indent x := addChild_statement hn hindent hx hout
    show addChildren n ahead ('\n' :: indent) (some x.1)
      (addChild n ahead ('\n' :: indent) previous out x.1 (brought (statementShare indent x)).2) _ = _
    rw [hstep, ih hstats (trailingBlanks_statement hx), List.flatMap_cons, List.append_assoc]

end Statements

end Printer

namespace CompilationUnit
open Node Printer

section Blocks
variable {p : Printer} {c : CompilationUnit} {q : Span} {edited : Node} {indent ahead : Text}
  {stats stats' : List (Node × Text)}

/-- A block with other statements. -/
theorem revised_block (hkind : c.root.kind = .block (stats.map (·.1)))
    (hedited : edited.kind = .block (stats'.map (·.1))) (hslot : edited.sameSlot c.root)
    (hsharing : Sharing edited c.root)
    (heach : ∀ x ∈ stats', x ∈ stats ∨ (x.1.span = none ∧ x.1.isName = true ∧ x.2 = [])) : c.Revised edited where
  slot := hslot
  content := by
    have hdef : edited.isDefinition = false := by rw [isDefinition, tag, hedited]; rfl
    unfold contentDiffers
    rw [hedited, hkind]
    simp [(sameSlot_iff.mp hslot).1, hdef]
  sharing := hsharing
  each := by
    rw [children_block hedited, children_block hkind]
    refine List.forall_mem_map.mpr fun x hx => ?_
    exact (heach x hx).imp List.mem_map_of_mem fun h => ⟨h.1, h.2.1⟩

/-- The statements are indented as the first one is. -/
theorem childIndent_block (hblock : c.Inscribed q (blockRow indent stats)) (hstats : stats ≠ [])
    (hindent : indent.all Text.isIndent = true) : p.childIndent c.source c.root ahead = indent := by
  obtain ⟨hblank, hline⟩ := Text.allBlank_of_isIndent hindent
  have hne : (blockRow indent stats).cells ≠ [] := cells_blockRow hstats
  obtain ⟨cell, cells, hcells⟩ := List.exists_cons_of_ne_nil hne
  have hhead : (blockRow indent stats).head = ['{'] ++ '\n' :: indent := head_blockRow hstats
  have hsits : Row.sits (blockRow indent stats).head.size ([] ++ cell :: cells) = true := hcells ▸ hblock.sits
  obtain ⟨s, hs, hstart, -⟩ := Row.place_of_stands hsits
  have hfirst : c.root.children.findSome? (·.layoutSpan) = some s := by
    rw [hblock.children, hcells, List.map_cons, List.findSome?_cons, hs]
  have hstart : s.start = Text.size (['{'] ++ '\n' :: indent) := by
    rw [hstart, hhead]
    rfl
  have htext : c.source.text = (['{'] ++ '\n' :: indent) ++ Row.textOf (cell :: cells) := by
    rw [hblock.text, Row.text, hhead, hcells]
  have hcut : c.source.text.isBoundary s.start = true := by
    rw [htext, hstart]
    exact Text.isBoundary_append_size ..
  have hbefore : c.source.text.before s.start = ['{'] ++ '\n' :: indent := by
    rw [htext, hstart, Text.before_append_size]
  have hfeed : (['{'] ++ '\n' :: indent).contains '\n' = true := by simp
  simp only [childIndent, hfirst, hcut, hbefore, hfeed, Text.lastLine_append hline, hblank, Bool.and_self, if_true]

theorem name_statement (hblock : c.Inscribed q (blockRow indent stats)) (hkind : c.root.kind = .block (stats.map (·.1)))
    {x : Node × Text} (hx : x ∈ stats) : x.1.isName = true ∧ x.1.span.isSome :=
  hblock.name_child (by rw [children_block hkind]; exact List.mem_map_of_mem hx)

/-- An old statement brings its line along, and a new one its name. -/
theorem brings_statement (hblock : c.Inscribed q (blockRow indent stats))
    (hkind : c.root.kind = .block (stats.map (·.1))) (hindent : indent.allBlank = true) (hstats : stats ≠ [])
    (hremarks : ∀ x ∈ stats, Gap.Remark x.2) {x : Node × Text}
    (hx : x ∈ stats ∨ (x.1.span = none ∧ x.1.isName = true ∧ x.2 = [])) :
    (blockRow indent stats).Brings c.root (statementShare indent x) := by
  rcases hx with hmem | ⟨hnone, hname, -⟩
  · have hshares : Row.shares c.root (blockRow indent stats).head none (blockRow indent stats).cells =
        stats.map fun x => (x.1, statementText indent x) :=
      Row.shares_statementRow hkind hindent
        (fun y hy => ⟨(isName_iff.mp (name_statement hblock hkind hy).1).1, hremarks y hy⟩)
        fun _ => congrArg Prod.snd (Row.splitLeading_blockRow hkind hindent hstats)
    refine .inl ?_
    rw [hshares, statementShare, if_pos (name_statement hblock hkind hmem).2]
    exact List.mem_map_of_mem hmem
  · exact .inr ⟨hnone, hname, by simp [statementShare, hnone]⟩

/-- The statements of a block that was left as it was are the ones it had. -/
theorem statements_unchanged (hblock : c.Inscribed q (blockRow indent stats))
    (hkind : c.root.kind = .block (stats.map (·.1))) (hnodes : stats'.map (·.1) = stats.map (·.1))
    (heach : ∀ x ∈ stats', x ∈ stats ∨ (x.1.span = none ∧ x.1.isName = true ∧ x.2 = [])) : stats' = stats := by
  have hchild : ∀ x ∈ stats', x.1 ∈ c.root.children := fun x hx => by
    rw [children_block hkind, ← hnodes]
    exact List.mem_map_of_mem hx
  have hold : ∀ x ∈ stats', x ∈ stats := fun x hx =>
    (heach x hx).resolve_right fun hnew => hblock.span_child (hchild x hx) hnew.1
  have hnodup : (stats.map (·.1)).Nodup := by
    have hids := hblock.single.nodup_children
    rw [children_block hkind] at hids
    exact hids.of_map _
  have hlength : stats'.length = stats.length := by simpa using congrArg List.length hnodes
  refine List.ext_getElem hlength fun i hi hi' => ?_
  refine List.inj_on_of_nodup_map hnodup (hold _ (List.getElem_mem hi)) (List.getElem_mem hi') ?_
  have hnode := congrArg (·[i]?) hnodes
  simpa [hi, hi'] using hnode

/-- No statement was exchanged for a new one, with all others in their places. -/
theorem replaced?_block (hblock : c.Inscribed q (blockRow indent stats))
    (hkind : c.root.kind = .block (stats.map (·.1))) (hedited : edited.kind = .block (stats'.map (·.1)))
    (hlist : (∀ x ∈ stats', x ∈ stats) ∨ stats'.length ≠ stats.length) : edited.replaced? c.root = none := by
  cases hreplaced : edited.replaced? c.root with
  | none => rfl
  | some x =>
    obtain ⟨i, new, place⟩ := x
    obtain ⟨hlength, hnew, hnone, -⟩ := replaced?_inv hreplaced
    rw [children_block hedited] at hlength hnew
    rw [children_block hkind, List.length_map, List.length_map] at hlength
    rcases hlist with hold | hother
    · obtain ⟨x, hx, rfl⟩ := List.mem_map.mp (List.mem_of_getElem? hnew)
      have hchild : x.1 ∈ c.root.children := by
        rw [children_block hkind]
        exact List.mem_map_of_mem (hold x hx)
      exact absurd hnone (hblock.span_child hchild)
    · exact absurd hlength hother

end Blocks

end CompilationUnit

namespace Printer
open Node

/-- A block of names can be given any other statements: names that it had, in any order and as often as you like, and
new ones. Each of them stands on a line of its own with the indentation that the lines had, and one that the block had
keeps its remark. -/
theorem statements_rewritten (p : Printer) (c : CompilationUnit) (q : Span) (edited : Node) (indent : Text)
    (stats stats' : List (Node × Text)) (hunit : p.units.get? q.file = some c) (hnames : p.WritesNames)
    (hstyle : p.style.lineEnding = .lf) (hindent : indent.all Text.isIndent = true)
    (hkind : c.root.kind = .block (stats.map (·.1))) (hstats : stats ≠ []) (hremarks : ∀ x ∈ stats, Gap.Remark x.2)
    (hblock : c.Inscribed q (blockRow indent stats)) (hedited : edited.kind = .block (stats'.map (·.1)))
    (hslot : edited.sameSlot c.root) (hsharing : Sharing edited c.root) (hne : stats' ≠ [])
    (heach : ∀ x ∈ stats', x ∈ stats ∨ (x.1.span = none ∧ x.1.isName = true ∧ x.2 = []))
    (hlist : (∀ x ∈ stats', x ∈ stats) ∨ stats'.length ≠ stats.length) :
    c.source.text = bracedText indent stats ∧ p.rewrite? c edited = some (bracedText indent stats') := by
  have htext : c.source.text = bracedText indent stats := hblock.text.trans text_blockRow
  have hrevised := CompilationUnit.revised_block hkind hedited hslot hsharing heach
  refine ⟨htext, ?_⟩
  cases hchanged : edited.childrenChanged c.root with
  | false =>
    obtain ⟨hchildren, hrewrite⟩ := hrevised.unnoticed hblock hunit hchanged
    rw [children_block hedited, children_block hkind] at hchildren
    rw [hrewrite, htext, CompilationUnit.statements_unchanged hblock hkind hchildren heach]
  | true =>
    have hblank := (Text.allBlank_of_isIndent hindent).1
    have hstatements : ∀ x ∈ stats', IsStatement x := fun x hx => by
      rcases heach x hx with hmem | ⟨-, hname, hnil⟩
      · obtain ⟨hname, hsome⟩ := CompilationUnit.name_statement hblock hkind hmem
        exact ⟨hname, hremarks x hmem, fun hnone => absurd hnone (Option.isSome_iff_ne_none.mp hsome)⟩
      · exact ⟨hname, hnil ▸ .none, fun _ => hnil⟩
    have hbrings : ∀ y ∈ stats'.map (statementShare indent), (blockRow indent stats).Brings c.root y :=
      List.forall_mem_map.mpr fun x hx =>
        CompilationUnit.brings_statement hblock hkind hblank hstats hremarks (heach x hx)
    have hchildren : edited.children = (stats'.map (statementShare indent)).map (·.1) := by
      rw [children_block hedited]
      simp [statementShare]
    have hbreak : p.style.lineEnding.text = ['\n'] := by rw [hstyle]; rfl
    rw [hrevised.rewrite?_eq hblock hunit hnames hchanged (CompilationUnit.replaced?_block hblock hkind hedited hlist)
      hchildren hbrings (by simpa using hne) (cells_blockRow hstats),
      Row.splitLeading_blockRow hkind hblank hstats, Row.splitTrailing_blockRow hstats hremarks, hbreak,
      CompilationUnit.childIndent_block hblock hstats hindent, List.singleton_append,
      addChildren_statements hedited hblank hstatements (show '\n' ∉ Text.trailingBlanks ['{'] by decide)]
    rfl

/-- A block of some statements. -/
def blockOf (serial : Nat) (stats : List Node) : Node :=
  .mk (.built serial) (some (.range "A.scala" 0 19)) (.block stats)

/-- The statements `a`, with a remark that opens like a block comment, and `b`. -/
def remarkedStats : List (Node × Text) := [(Node.letter 0 "a" 3, " // x /* y".toList), (Node.letter 1 "b" 16, [])]

/-- The unit of these two. -/
def remarkedUnit : CompilationUnit where
  source := { name := "A.scala", text := bracedText ['\t'] remarkedStats }
  root := blockOf 2 (remarkedStats.map (·.1))

theorem remarkedUnit_inscribed : remarkedUnit.Inscribed (.range "A.scala" 0 19) (blockRow ['\t'] remarkedStats) where
  place := rfl
  whole := ⟨rfl, rfl⟩
  children := rfl
  text := text_blockRow.symm
  sits := rfl
  names := by decide
  file := by decide
  single := by
    have hpreorder : remarkedUnit.root.preorder = [remarkedUnit.root, Node.letter 0 "a" 3, Node.letter 1 "b" 16] := by
      simp [preorder_eq, remarkedUnit, remarkedStats, blockOf, Node.letter, children]
    rw [Single, hpreorder]
    simp [remarkedUnit, remarkedStats, blockOf, Node.letter, identity]

/-- The block with `b` twice, and a new statement and `a` with its remark between them. -/
theorem statements_mixed :
    let a := Node.letter 0 "a" 3
    let b := Node.letter 1 "b" 16
    let new := Call.newName 4 "c1"
    let edited := blockOf 3 [b, new, a, b]
    remarkedUnit.Inscribed (.range "A.scala" 0 19) (blockRow ['\t'] remarkedStats) ∧ Sharing edited remarkedUnit.root ∧
      remarkedUnit.source.text = "\x7b\n\ta // x /* y\n\tb\n\x7d".toList ∧
      (plain remarkedUnit).rewrite? remarkedUnit edited =
        some "\x7b\n\tb\n\tc1\n\ta // x /* y\n\tb\n\x7d".toList := by
  intro a b new edited
  let stats : List (Node × Text) := [(b, []), (new, []), (a, " // x /* y".toList), (b, [])]
  have hnew : new.isName = true := isName_iff.mpr ⟨rfl, Text.isSolid_of_alphanum (by decide) (List.all_eq_true.mp rfl)⟩
  have hstats : ∀ x ∈ stats, x ∈ remarkedStats ∨ x = (new, []) := by simp [stats, remarkedStats, a, b]
  have hremarks : ∀ x ∈ remarkedStats, Gap.Remark x.2 := List.forall_mem_cons.mpr
    ⟨.line (show '\n' ∉ " x /* y".toList by decide), List.forall_mem_singleton.mpr .none⟩
  have hsharing : Sharing edited remarkedUnit.root := by
    refine remarkedUnit_inscribed.sharing (by decide) fun d hd => ?_
    obtain ⟨x, hx, rfl⟩ := List.mem_map.mp (show d ∈ stats.map (·.1) from hd)
    rcases hstats x hx with hold | rfl
    · exact .inl (List.mem_map_of_mem hold)
    · exact .inr ⟨hnew, by decide⟩
  refine ⟨remarkedUnit_inscribed, hsharing, statements_rewritten (plain remarkedUnit) remarkedUnit
    (.range "A.scala" 0 19) edited ['\t'] remarkedStats stats rfl (writesNames_of_pretty fun _ => rfl) rfl rfl rfl
    (by decide) hremarks remarkedUnit_inscribed rfl rfl hsharing (by simp [stats]) (fun x hx => ?_) (.inr (by decide))⟩
  rcases hstats x hx with hold | rfl
  · exact .inl hold
  · exact .inr ⟨rfl, hnew, rfl⟩

end Printer

end Reprint
