import Mathlib
import Reprint.Proofs.ChangedNodes
import Reprint.Proofs.Fallback
import Reprint.Proofs.Narrowing
import Reprint.Proofs.Quotation
/-!
Regions that are printed afresh: all of the top goes to the fallback printer, be it that the top has no counterpart or
that there is nothing in its counterpart to go by. Code from scratch is one line, or it has a line that begins with a brace
(`Doc.Shuts`), and nothing indents that line unless the top has no counterpart. Main statement: the lines of such a
region are indented as the line it begins on exactly if the top has no counterpart, that line is not indented, or there is
only one line.
-/

namespace Reprint

namespace Text

/-! ### Indented lines -/

/-- Every line but the first begins with an indentation, unless it is blank. -/
def Indented (indent t : Text) : Prop := ∀ line ∈ t.lines.tail, line.allBlank = false → indent <+: line

section Indented
variable {indent t : Text}

theorem indented_nil (t : Text) : Indented [] t := fun _ _ _ => List.nil_prefix

theorem indented_of_not_mem (h : '\n' ∉ t) : Indented indent t := by
  have hlines : t.lines = [t] := splitOn_of_not_mem h
  rw [Indented, hlines]
  exact nofun

theorem indented_indentLines (hindent : '\n' ∉ indent) (t : Text) : Indented indent (t.indentLines indent) := by
  rw [Indented, lines_indentLines hindent]
  cases t.lines with
  | nil => exact nofun
  | cons first rest =>
    intro line hline hblank
    obtain ⟨k, -, rfl⟩ := List.mem_map.mp hline
    split at hblank
    · next hk => rw [hk] at hblank; cases hblank
    · next hk => rw [if_neg hk]; exact List.prefix_append ..

/-- A line that begins with a brace is not indented. -/
theorem not_indented_of_brace {a b : Text} (hindent : ∀ c ∈ indent, isIndent c) (hne : indent ≠ []) :
    ¬ Indented indent (a ++ '\n' :: '}' :: b) := by
  intro h
  obtain ⟨line, rest, hline⟩ : ∃ line rest, lines ('}' :: b) = ('}' :: line) :: rest := by
    cases hb : splitOn b '\n' with
    | nil => exact absurd hb (splitOn_ne_nil b '\n')
    | cons line rest => exact ⟨line, rest, by rw [lines, splitOn, if_neg (by decide), hb]⟩
  obtain ⟨first, front, hfront⟩ := List.exists_cons_of_ne_nil (splitOn_ne_nil a '\n')
  have hlines : (a ++ '\n' :: '}' :: b).lines = first :: (front ++ ('}' :: line) :: rest) := by
    rw [lines, splitOn_append_cons, hfront, ← lines, hline]
    rfl
  have hmem : '}' :: line ∈ (a ++ '\n' :: '}' :: b).lines.tail := by
    rw [hlines]
    exact List.mem_append_right _ (List.mem_cons_self ..)
  obtain ⟨c, indent, rfl⟩ := List.exists_cons_of_ne_nil hne
  obtain ⟨rfl, -⟩ := List.cons_prefix_cons.mp (h _ hmem rfl)
  exact absurd (hindent _ (List.mem_cons_self ..)) (by decide)

theorem isIndent_of_mem_indentationAt {offset : Nat} {c : Char} (h : c ∈ t.indentationAt offset) : isIndent c :=
  List.mem_takeWhile_imp h

/-- With a line that begins with a brace if there are several, lines are indented only where there is nothing to do. -/
theorem indented_iff_of_brace (hindent : ∀ c ∈ indent, isIndent c)
    (h : '\n' ∉ t ∨ ∃ a b, t = a ++ '\n' :: '}' :: b) : Indented indent t ↔ indent = [] ∨ '\n' ∉ t := by
  constructor
  · intro hindented
    rcases h with h | ⟨a, b, rfl⟩
    · exact .inr h
    · exact .inl (by_contra fun hne => not_indented_of_brace hindent hne hindented)
  · rintro (rfl | h)
    · exact indented_nil t
    · exact indented_of_not_mem h

end Indented

end Text

/-! ### Code with braces -/

namespace Doc

/-- A single line. -/
def Flat (d : Doc) : Prop := ∀ x ∈ d, ∃ t, x = .text t ∧ '\n' ∉ t

/-- A single line, or code that has a line with a closing brace in front. -/
def Shuts (d : Doc) : Prop := Flat d ∨ ∃ a b, d = a ++ .line 0 :: .text ['}'] :: b

section Shuts
variable {d e : Doc}

theorem flat_nil : Flat [] := nofun

theorem Flat.append (hd : Flat d) (he : Flat e) : Flat (d ++ e) := fun x hx =>
  (List.mem_append.mp hx).elim (hd x) (he x)

theorem flat_text {t : Text} (h : '\n' ∉ t) : Flat [.text t] := fun _ hx => ⟨t, List.mem_singleton.mp hx, h⟩

theorem Shuts.append (hd : Shuts d) (he : Shuts e) : Shuts (d ++ e) := by
  rcases hd with hd | ⟨a, b, rfl⟩
  · rcases he with he | ⟨a, b, rfl⟩
    · exact .inl (hd.append he)
    · exact .inr ⟨d ++ a, b, (List.append_assoc ..).symm⟩
  · exact .inr ⟨a, b ++ e, by simp⟩

theorem compositional_shuts : Compositional Shuts fun _ => True where
  nil := .inl flat_nil
  append := Shuts.append
  word h := .inl (flat_text fun hmem => absurd (List.all_eq_true.mp h _ hmem) (by decide))
  between h hd := by
    have hflat : ∀ x ∈ enclosures, '\n' ∉ x.1.toList ∧ '\n' ∉ x.2.toList := by decide
    have hfirst : Shuts (text _) := .inl (flat_text (hflat _ h).1)
    exact (hfirst.append hd).append (.inl (flat_text (hflat _ h).2))
  nothing := .inl (flat_text (by decide))
  lines _ _ _ := .inr ⟨_, [], by rw [List.append_assoc]; rfl⟩

variable {style : Style}

theorem Flat.not_mem_render (h : Flat d) : '\n' ∉ d.render style := by
  intro hmem
  obtain ⟨x, hx, hmem⟩ := List.mem_flatMap.mp hmem
  obtain ⟨t, rfl, ht⟩ := h x hx
  exact ht hmem

theorem Shuts.render (h : Shuts d) : '\n' ∉ d.render style ∨ ∃ a b, d.render style = a ++ '\n' :: '}' :: b := by
  rcases h with h | ⟨a, b, rfl⟩
  · exact .inl h.not_mem_render
  · obtain ⟨x, hx⟩ : ∃ x, style.lineEnding.text = x ++ ['\n'] := by
      cases style.lineEnding
      · exact ⟨[], rfl⟩
      · exact ⟨['\r'], rfl⟩
    refine .inr ⟨a.flatMap (Piece.render style) ++ x, b.flatMap (Piece.render style), ?_⟩
    simp [Doc.render, Piece.render, hx, IndentStyle.atDepth]

end Shuts

end Doc

/-! ### Names in a tree -/

theorem Kind.text_mem_names {k : Kind Node} {name : Name} (h : name ∈ k.nameSlots) : name.text ∈ k.names := by
  cases k <;> simp only [nameSlots, List.mem_cons, List.not_mem_nil, or_false] at h <;>
    simp [names, name?] <;> grind

namespace Node
open Doc

theorem NamesInline.child {n c : Node} (h : n.NamesInline) (hc : c ∈ n.children) : c.NamesInline := by
  rcases child_cases hc with hc | hc | ⟨first, rest, args, self, body, hk, rfl⟩
  · exact h.slot hc
  · rcases mem_tokens_cases hc with ⟨_, _, _, rfl⟩ | ⟨name, hname, _, _, rfl⟩
    · exact .node (List.forall_mem_nil _) (List.forall_mem_nil _)
    · exact .node (List.forall_mem_singleton.mpr (h.layer _ (Kind.text_mem_names hname))) (List.forall_mem_nil _)
  · refine .node (List.forall_mem_nil _) fun d hd => h.slot ?_
    rw [hk]
    simp only [superCall, kind, Kind.slots, List.mem_cons, List.mem_append] at hd ⊢
    tauto

theorem NamesInline.of_mem_preorder {n m : Node} (h : n.NamesInline) (hm : m ∈ n.preorder) : m.NamesInline := by
  induction n using children_induction with
  | step n ih =>
    rcases mem_preorder_iff.mp hm with rfl | ⟨c, hc, hm⟩
    · exact h
    · exact ih c hc (h.child hc) hm

/-- Without packages, code from scratch is one line, or has a line that begins with a brace. -/
theorem shuts_doc {n : Node} {role : Role} {d : Doc} (hnames : n.NamesInline)
    (hpackage : n.Throughout fun k => k.tag ≠ .package) (h : n.doc role = .ok d) : Shuts d := by
  have hwrites : n.Throughout (Kind.Writes false Shuts fun _ => True) := by
    refine (hnames.and hpackage).imp fun k hk => ⟨?_, ?_, ?_, fun _ _ _ _ => trivial, nofun⟩
    · exact fun name hname => .inl (flat_text (hk.1 name hname))
    · exact fun v _ => .inl (flat_text v.not_mem_render)
    · rintro pid stats rfl
      exact absurd rfl hk.2
  have hdoc := doc_ensures compositional_shuts hwrites role
  rwa [h] at hdoc

end Node

/-! ### Printing afresh -/

/-- Whenever a step ends well, its result has the property `P`. -/
def Gives {α : Type} (m : PrintM α) (P : α → Prop) : Prop := ∀ ds a ds', Yields m ds a ds' → P a

namespace Gives
variable {α β : Type} {P : α → Prop} {Q : β → Prop}

theorem pure {a : α} (h : P a) : Gives (Pure.pure a) P := by
  intro ds b ds' hb
  rwa [← (Yields.pure_iff.mp hb).1]

theorem lift {x : Except RegenError α} (h : ∀ a, x = .ok a → P a) : Gives (liftM x) P := fun _ a _ ha =>
  h a (Yields.lift_iff.mp ha).1

theorem bind {m : PrintM α} {f : α → PrintM β} (hm : Gives m P) (hf : ∀ a, P a → Gives (f a) Q) : Gives (m >>= f) Q := by
  intro ds b ds' h
  obtain ⟨a, ds₁, ha, hb⟩ := Yields.bind_iff.mp h
  exact hf a (hm ds a ds₁ ha) ds₁ b ds' hb

theorem bind_lift {x : Except RegenError α} {f : α → PrintM β} (hf : ∀ a, x = .ok a → Gives (f a) Q) :
    Gives (liftM x >>= f) Q := bind (lift fun _ ha => ha) hf

theorem mapM {f : α → PrintM β} {R : α → β → Prop} {l : List α} (h : ∀ a ∈ l, Gives (f a) (R a)) :
    Gives (l.mapM f) fun bs => List.Forall₂ R l bs := by
  induction l with
  | nil => exact pure .nil
  | cons a l ih =>
    rw [List.mapM_cons]
    refine bind (h a (List.mem_cons_self ..)) fun b hb => ?_
    exact bind (ih fun c hc => h c (List.mem_cons_of_mem _ hc)) fun bs hbs => pure (.cons hb hbs)

end Gives

namespace Printer
open Node
variable {p : Printer} {style : Style}

theorem gives_printNew (n : Node) : Gives (p.printNew n) fun t => t = (p.scratch n).1 := by
  intro ds t ds' h
  have hscratch := p.yields_printNew n ds
  unfold Yields at h hscratch
  rw [hscratch] at h
  cases h
  rfl

theorem weight_of_mem_requests {u : Units} {changed : NodeSet} {m n : Node} (h : m ∈ u.requests changed n) :
    m.weight ≤ n.weight := by
  induction n using children_induction with
  | step n ih =>
    rw [Units.requests] at h
    have hself : m ∈ [n] → m.weight ≤ n.weight := fun hm => by rw [List.mem_singleton.mp hm]
    split at h
    · exact hself h
    · split at h
      · cases h
      · split at h
        · split at h
          · cases h
          · exact hself h
        · split at h
          · obtain ⟨c, -, hm⟩ := List.mem_flatMap.mp h
            exact Nat.le_trans (ih c.1 c.2 hm) (Nat.le_of_lt (weight_lt_of_mem_children c.2))
          · exact hself h

/-- A node that goes to the fallback printer as a whole is printed from scratch, and counts as such only if it has no
counterpart. -/
theorem gives_printIn {changed : NodeSet} {n : Node} (h : p.units.requests changed n = [n]) :
    Gives (p.printIn changed none n) fun f =>
      f.center = (p.scratch n).1 ∧ f.fresh = (p.units.counterpart? n).isNone := by
  rw [Units.requests] at h
  rw [printIn]
  cases hcp : p.units.counterpart? n with
  | none => exact .bind (gives_printNew n) fun t ht => .pure ⟨ht, rfl⟩
  | some base =>
    obtain ⟨span, hspan⟩ := Units.counterpart?_span hcp
    rw [hcp] at h
    dsimp only at h ⊢
    rw [hspan]
    refine .bind_lift fun layout _ => ?_
    have hlast : ∀ t, t = (p.scratch n).1 → Gives (liftM (p.relocate ⟨layout.leading, t, layout.trailing, false⟩ base none))
        fun f => f.center = (p.scratch n).1 ∧ f.fresh = (some base : Option Node).isNone := by
      rintro t rfl
      refine .lift fun f hf => ?_
      cases hf
      exact ⟨rfl, rfl⟩
    split at h
    · cases h
    · next hpristine =>
      rw [if_neg hpristine]
      split at h
      · next hleaf =>
        rw [if_pos hleaf, printLeaf]
        split at h
        · cases h
        · next hnone =>
          rw [Option.not_isSome_iff_eq_none.mp hnone]
          exact .bind (gives_printNew n) hlast
      · next hleaf =>
        rw [if_neg hleaf]
        refine .bind_lift fun source _ => .bind_lift fun o ho => ?_
        rw [← affixes?_isSome ho] at h
        cases o with
        | none => exact .bind (gives_printNew n) hlast
        | some affixes =>
          -- All that is requested for children weighs less than the node.
          rw [Option.isSome_some, if_pos rfl] at h
          have hself : n ∈ n.children.attach.flatMap fun x => p.units.requests changed x.1 := by
            rw [h]
            exact List.mem_singleton_self n
          obtain ⟨c, -, hn⟩ := List.mem_flatMap.mp hself
          exact absurd (weight_of_mem_requests hn) (Nat.not_le.mpr (weight_lt_of_mem_children c.2))

/-- Code from scratch goes to the range as it is, and is indented only if the top has no counterpart. -/
theorem gives_printRegion {r : Region} (h : p.units.requests r.changed r.top = [r.top]) :
    Gives (p.printRegion r) fun t =>
      (p.units.counterpart? r.top = none ∧ ∃ source, p.units.source? r.range.file = some source ∧
        t = (p.scratch r.top).1.indentLines (source.text.indentationAt r.range.start)) ∨
      (p.units.counterpart? r.top ≠ none ∧ t = (p.scratch r.top).1) := by
  refine .bind (gives_printIn h) ?_
  rintro f ⟨hcenter, hfresh⟩
  rw [hcenter, hfresh]
  split
  · next hnone =>
    refine .bind_lift fun indent hindent => .pure (.inl ⟨Option.isNone_iff_eq_none.mp hnone, ?_⟩)
    unfold indentationOf sourceOf at hindent
    cases hsource : p.units.source? r.range.file with
    | none =>
      rw [hsource] at hindent
      cases hindent
    | some source =>
      rw [hsource] at hindent
      cases hindent
      exact ⟨source, rfl, rfl⟩
  · next hsome => exact .pure (.inr ⟨by simpa using hsome, rfl⟩)

theorem shuts_scratch {n : Node} (hfallback : p.fallback n = n.pretty style) (hnames : n.NamesInline)
    (hpackage : n.Throughout fun k => k.tag ≠ .package) :
    '\n' ∉ (p.scratch n).1 ∨ ∃ a b, (p.scratch n).1 = a ++ '\n' :: '}' :: b := by
  unfold scratch
  rw [hfallback, pretty]
  cases hdoc : n.doc .plain with
  | ok d => exact (shuts_doc hnames hpackage hdoc).render
  | error e =>
    refine .inl ?_
    show '\n' ∉ placeholder n
    unfold placeholder
    cases n.tag <;> decide

end Printer

/-- A region goes where the counterpart of its top is. -/
theorem Region.range_of_counterpart {u : Units} {n base : Node} {r : Region} (h : r ∈ search u n)
    (hcp : u.counterpart? r.top = some base) : base.span = some r.range := by
  induction n using Node.children_induction with
  | step n ih =>
    obtain ⟨pre, post, hsplit⟩ := List.append_of_mem h
    obtain ⟨base', range, hcp', -, hrange, hcases⟩ := search_split hsplit
    have hown : ∀ {base}, u.counterpart? n = some base → base.span = some range := fun h =>
      Option.some.inj (hcp'.symm.trans h) ▸ hrange
    rcases hcases with ⟨-, rfl | ⟨-, c, hc, hr⟩⟩ | ⟨-, -, rfl⟩ | ⟨-, i, new, place, hreplaced, rfl⟩ |
      ⟨-, j, c, d, hc, -, -, pre', post', hr, -⟩
    · exact hown hcp
    · exact ih c hc hr
    · exact hown hcp
    · obtain ⟨-, -, hnone, -⟩ := Node.replaced?_inv hreplaced
      rw [show (of u new place).top = new from rfl, Units.counterpart?_unplaced hnone] at hcp
      cases hcp
    · exact ih c (List.mem_of_getElem? hc) (by rw [hr]; simp)

/-- All of a region goes to the fallback printer. -/
def Region.IsAfresh (u : Units) (r : Region) : Prop := u.requests r.changed r.top = [r.top]

namespace Printer
open Node

/-- The lines of regions that are printed afresh. If the top of such a region has no counterpart, all lines but the
first are indented as the line on which the region begins. Otherwise, if names hold no line feeds and there are no
packages, they are so only where there is nothing to do: the line on which the region begins is not indented, or there
is one line only. -/
theorem regenerate_indented_iff (p : Printer) (style : Style) (root : Node) (g : Regeneration)
    (hfallback : ∀ n, p.fallback n = n.pretty style) (hnames : root.NamesInline) (h : p.regenerate root = .ok g) :
    List.Forall₂ (fun r e => e.start = r.range.start ∧ e.stop = r.range.stop ∧
      (r.IsAfresh p.units → ∃ source, p.units.source? r.range.file = some source ∧
        let indent := source.text.indentationAt r.range.start
        (p.units.counterpart? r.top = none → Text.Indented indent e.replacement) ∧
        ((r.top.Throughout fun k => k.tag ≠ .package) → (Text.Indented indent e.replacement ↔
          p.units.counterpart? r.top = none ∨ indent = [] ∨ '\n' ∉ e.replacement))))
      (Region.find p.units root) g.edits := by
  obtain ⟨-, hedits⟩ := regenerate_eq_ok_iff.mp h
  refine Gives.mapM (fun r hr => ?_) [] g.edits g.diagnostics hedits
  refine .bind (P := fun t => _ → _) (fun ds t ds' ht hrequests => gives_printRegion hrequests ds t ds' ht) fun t ht =>
    .pure ⟨rfl, rfl, fun hrequests => ?_⟩
  have htop := (Region.find_origin hr).top
  rcases ht hrequests with ⟨hnone, source, hsource, rfl⟩ | ⟨hsome, rfl⟩
  · refine ⟨source, hsource, ?_⟩
    have hindented := Text.indented_indentLines (Text.not_mem_indentationAt source.text r.range.start) (p.scratch r.top).1
    exact ⟨fun _ => hindented, fun _ => iff_of_true hindented (.inl hnone)⟩
  · obtain ⟨base, hcp⟩ := Option.ne_none_iff_exists'.mp hsome
    have hrange := Region.range_of_counterpart (Region.mem_of_mem_widest hr) hcp
    obtain ⟨c, hc⟩ := Option.isSome_iff_exists.mp (known_of_counterpart hcp r.range hrange)
    refine ⟨c.source, by rw [Units.source?, hc, Option.map_some], fun hnone => absurd hnone hsome, fun hpackage => ?_⟩
    rw [or_iff_right hsome]
    exact Text.indented_iff_of_brace (fun c => Text.isIndent_of_mem_indentationAt)
      (shuts_scratch (hfallback r.top) (hnames.of_mem_preorder htop) hpackage)

/-- A block with an empty block on a line of its own. -/
def hollowBlock : CompilationUnit where
  source := { name := "A.scala", text := "\x7b\n  \x7b\x7d\n\x7d".toList }
  root := .mk (.built 1) (some (.range "A.scala" 0 8)) (.block [.mk (.built 0) (some (.range "A.scala" 4 6)) (.block [])])

/-- A statement in the inner block. -/
def filledInner : Node := .mk (.built 3) (some (.range "A.scala" 4 6)) (.block [.mk (.built 2) none (.ident "x")])

def filledBlock : Node := .mk (.built 4) (some (.range "A.scala" 0 8)) (.block [filledInner])

/-- What is printed for the inner block, and not indented. -/
def filledCode : Text := ['{', '\n', ' ', ' ', 'x', '\n', '}']

theorem filledBlock_regenerated : (plain hollowBlock).regenerate filledBlock = .ok {
    edits := [⟨4, 6, filledCode, "Regenerate block"⟩]
    diagnostics := [] } := by cbv

theorem filledBlock_namesInline : filledBlock.NamesInline := by
  have hname : NamesInline (.mk (.built 2) none (.ident "x")) := .node (by decide) nofun
  have hinner : filledInner.NamesInline := .node nofun (List.forall_mem_singleton.mpr hname)
  exact .node nofun (List.forall_mem_singleton.mpr hinner)

theorem filledBlock_found : Region.find (plain hollowBlock).units filledBlock =
    [.of (.single hollowBlock) filledInner (.range "A.scala" 4 6)] := by cbv

theorem filledBlock_isAfresh :
    (Region.of (.single hollowBlock) filledInner (.range "A.scala" 4 6)).IsAfresh (.single hollowBlock) := by
  unfold Region.IsAfresh
  cbv

/-- The inner block is printed on several lines, so these are indented only if it has no counterpart. -/
theorem filledBlock_indented_iff : filledBlock.NamesInline ∧
    (∃ g, (plain hollowBlock).regenerate filledBlock = .ok g ∧ g.edits.map (·.replacement) = [filledCode]) ∧
      (Text.Indented [' ', ' '] filledCode ↔ (Units.single hollowBlock).counterpart? filledInner = none) := by
  have hregions := regenerate_indented_iff (plain hollowBlock) {} filledBlock _ (fun _ => rfl) filledBlock_namesInline
    filledBlock_regenerated
  rw [filledBlock_found] at hregions
  obtain ⟨-, -, hafresh⟩ := (List.forall₂_cons.mp hregions).1
  obtain ⟨source, hsource, -, hiff⟩ := hafresh filledBlock_isAfresh
  obtain rfl : hollowBlock.source = source := Option.some.inj hsource
  have hpackage : filledInner.Throughout fun k => k.tag ≠ .package :=
    .node nofun (List.forall_mem_singleton.mpr (.node nofun nofun))
  have hindent : hollowBlock.source.text.indentationAt 4 = [' ', ' '] := by cbv
  have hiff : Text.Indented (hollowBlock.source.text.indentationAt 4) filledCode ↔
      (Units.single hollowBlock).counterpart? filledInner = none ∨ hollowBlock.source.text.indentationAt 4 = [] ∨
        '\n' ∉ filledCode := hiff hpackage
  have hnothing : ¬ (([' ', ' '] : Text) = [] ∨ '\n' ∉ filledCode) := by decide
  rw [hindent, or_iff_left hnothing] at hiff
  exact ⟨filledBlock_namesInline, ⟨_, filledBlock_regenerated, rfl⟩, hiff⟩

/-- It has a counterpart, and its lines are not indented. -/
theorem filledBlock_not_indented : filledBlock.NamesInline ∧
    (plain hollowBlock).regenerate filledBlock = .ok {
      edits := [⟨4, 6, filledCode, "Regenerate block"⟩]
      diagnostics := [] } ∧
    (Region.of (.single hollowBlock) filledInner (.range "A.scala" 4 6)).IsAfresh (.single hollowBlock) ∧
    ¬ Text.Indented (hollowBlock.source.text.indentationAt 4) filledCode := by
  refine ⟨filledBlock_namesInline, filledBlock_regenerated, filledBlock_isAfresh, ?_⟩
  have hindent : hollowBlock.source.text.indentationAt 4 = [' ', ' '] := by cbv
  exact Text.not_indented_of_brace (a := ['{', '\n', ' ', ' ', 'x']) (b := [])
    (fun _ => Text.isIndent_of_mem_indentationAt) (by rw [hindent]; exact List.cons_ne_nil _ _)

end Printer

end Reprint
