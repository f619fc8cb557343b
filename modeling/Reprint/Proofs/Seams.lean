import Mathlib
import Reprint.Proofs.Completion
import Reprint.Proofs.Partition
import Reprint.Proofs.Row
/-!
Nodes made again with the children they had. Each child brings along its halves of the gaps around it. Between two of
them the printer may put a separator, and where the text before ends with that separator, it takes indentation from
the next child. Main statement: what is printed for such a node is its text with commas, spaces and tabs left out,
none of them from a comment, and at most a separator put into each gap between two children.
-/

namespace Reprint

/-! ### Lists without some elements -/

/-- The second list is the first one without some elements that satisfy `p`. -/
inductive Without {α : Type} (p : α → Prop) : List α → List α → Prop
  | nil : Without p [] []
  | keep (a : α) {l l' : List α} : Without p l l' → Without p (a :: l) (a :: l')
  | skip {a : α} {l l' : List α} : p a → Without p l l' → Without p (a :: l) l'

namespace Without
variable {α : Type} {p : α → Prop} {l l' l'' a a' b b' : List α}

theorem refl : ∀ l : List α, Without p l l
  | [] => .nil
  | a :: l => .keep a (refl l)

theorem append (ha : Without p a a') (hb : Without p b b') : Without p (a ++ b) (a' ++ b') := by
  induction ha with
  | nil => exact hb
  | keep x _ ih => exact .keep x ih
  | skip hx _ ih => exact .skip hx ih

theorem trans (h : Without p l l') (h' : Without p l' l'') : Without p l l'' := by
  induction h generalizing l'' with
  | nil => exact h'
  | keep x h ih =>
    cases h' with
    | keep _ h' => exact .keep x (ih h')
    | skip hx h' => exact .skip hx (ih h')
  | skip hx _ ih => exact .skip hx (ih h')

theorem subset (h : Without p l l') : ∀ x ∈ l', x ∈ l := by
  induction h with
  | nil => exact fun _ => id
  | keep x _ ih =>
    intro y hy
    rcases List.mem_cons.mp hy with rfl | hy
    · exact List.mem_cons_self ..
    · exact List.mem_cons_of_mem _ (ih y hy)
  | skip _ _ ih => exact fun y hy => List.mem_cons_of_mem _ (ih y hy)

theorem dropWhile (q : α → Bool) (hq : ∀ x, q x = true → p x) : ∀ l : List α, Without p l (l.dropWhile q)
  | [] => .nil
  | x :: l => by
    rw [List.dropWhile_cons]
    split
    · next hx => exact .skip (hq x hx) (dropWhile q hq l)
    · exact refl _

theorem filter_eq {q : α → Bool} (hq : ∀ x, p x → q x = false) (h : Without p l l') : l'.filter q = l.filter q := by
  induction h with
  | nil => rfl
  | keep x _ ih => rw [List.filter_cons, List.filter_cons, ih]
  | skip hx _ ih => rw [List.filter_cons, hq _ hx, ih]; rfl

end Without

/-! ### Lighter gaps -/

namespace Gap
open Text

/-- A comma, a space or a tab outside comments. -/
def Segment.Light (s : Segment) : Prop := s = .code ',' ∨ s = .code ' ' ∨ s = .code '\t'

/-- The text of segments of which commas, spaces and tabs may be missing. -/
def Lightened (ss : List Segment) (t : Text) : Prop := ∃ ss', Without Segment.Light ss ss' ∧ t = raws ss'

/-- A text, or the text without its indentation. -/
def Unindented (t t' : Text) : Prop := t' = t ∨ t' = t.dropWhile isIndent

theorem LessComma.lightened {ss : List Segment} {t : Text} (h : LessComma ss t) : Lightened ss t := by
  rcases h with rfl | ⟨pre, post, rfl, rfl⟩
  · exact ⟨ss, .refl ss, rfl⟩
  · exact ⟨pre ++ post, (Without.refl pre).append (.skip (.inl rfl) (.refl post)), rfl⟩

theorem Lightened.append {ss ss' : List Segment} {t t' : Text} (h : Lightened ss t) (h' : Lightened ss' t') :
    Lightened (ss ++ ss') (t ++ t') := by
  obtain ⟨x, hx, rfl⟩ := h
  obtain ⟨x', hx', rfl⟩ := h'
  exact ⟨x ++ x', hx.append hx', (raws_append x x').symm⟩

/-- Whether a segment is indentation. -/
def Segment.isIndent : Segment → Bool
  | code c => Text.isIndent c
  | line _ | block _ => false

theorem dropWhile_raws {ss : List Segment} (h : ∀ s ∈ ss, s.isComment = true → s.raw.head? = some '/') :
    (raws ss).dropWhile isIndent = raws (ss.dropWhile Segment.isIndent) := by
  induction ss with
  | nil => rfl
  | cons s ss ih =>
    have ih := ih fun x hx => h x (List.mem_cons_of_mem _ hx)
    have hcomment : s.isComment = true → (s.raw ++ raws ss).dropWhile isIndent = s.raw ++ raws ss := by
      intro hs
      obtain ⟨l, hl⟩ := List.head?_eq_some_iff.mp (h s (List.mem_cons_self ..) hs)
      rw [hl]
      rfl
    cases s with
    | code c =>
      rw [raws_cons, List.dropWhile_cons]
      show (c :: raws ss).dropWhile isIndent = raws (if isIndent c then _ else _)
      rw [List.dropWhile_cons, ih]
      split <;> rfl
    | line l => exact hcomment rfl
    | block l => exact hcomment rfl

theorem light_of_isIndent {s : Segment} (h : s.isIndent = true) : s.Light := by
  cases s with
  | code c =>
    simp only [Segment.isIndent, Text.isIndent, Bool.or_eq_true, beq_iff_eq] at h
    rcases h with rfl | rfl
    · exact .inr (.inl rfl)
    · exact .inr (.inr rfl)
  | line l => cases h
  | block l => cases h

/-- Segments of a gap that lose their indentation are lighter. -/
theorem Lightened.unindented {g : Text} {ss : List Segment} {t t' : Text} (h : Lightened ss t)
    (hss : ∀ s ∈ ss, s ∈ segments g) (ht : Unindented t t') : Lightened ss t' := by
  rcases ht with rfl | rfl
  · exact h
  · obtain ⟨x, hx, rfl⟩ := h
    have hcomments : ∀ s ∈ x, s.isComment = true → s.raw.head? = some '/' := fun s hs hcomment =>
      head?_raw_of_comment (hss s (hx.subset s hs)) hcomment
    exact ⟨_, hx.trans (.dropWhile Segment.isIndent (fun _ => light_of_isIndent) x), dropWhile_raws hcomments⟩

/-- Taking indentation from two texts in a row takes it from one, or from both. -/
theorem Unindented.append {a b t : Text} (h : Unindented (a ++ b) t) :
    ∃ a' b', t = a' ++ b' ∧ Unindented a a' ∧ Unindented b b' := by
  rcases h with rfl | rfl
  · exact ⟨a, b, rfl, .inl rfl, .inl rfl⟩
  · rw [List.dropWhile_append]
    split
    · next hempty =>
      refine ⟨a.dropWhile isIndent, b.dropWhile isIndent, ?_, .inr rfl, .inr rfl⟩
      rw [List.isEmpty_iff.mp hempty]
      rfl
    · exact ⟨a.dropWhile isIndent, b, rfl, .inr rfl, .inl rfl⟩

theorem Unindented.without {t t' : Text} (h : Unindented t t') : Without (fun c => isIndent c = true) t t' := by
  rcases h with rfl | rfl
  · exact .refl t'
  · exact .dropWhile isIndent (fun _ => id) t

end Gap

/-! ### Rows -/

namespace Row

/-- Cells of which commas, spaces and tabs are missing between the children, and only spaces and tabs in them. -/
def Lighter (cells cells' : List Cell) : Prop :=
  List.Forall₂ (fun c c' => Without (fun d => Text.isIndent d = true) c.text c'.text ∧
    Gap.Lightened (Gap.segments c.gap) c'.gap) cells cells'

/-- Cells with a separator, or nothing, put into each gap but the last one. -/
inductive Seamed (parent : Node) (lineBreak : Text) : List Cell → List Cell → Prop
  | last (c : Cell) : Seamed parent lineBreak [c] [c]
  | step {m : Node} {text a b sep : Text} {d : Cell} {cells cells' : List Cell} :
    Separator.Trimmed ((Separator.between parent m d.node).text lineBreak) sep →
    Seamed parent lineBreak (d :: cells) cells' →
    Seamed parent lineBreak (⟨m, text, a ++ b⟩ :: d :: cells) (⟨m, text, a ++ sep ++ b⟩ :: cells')

/-- What trails a child, lighter perhaps, and what is left of the gap behind it. -/
theorem lightened_halves {g l r l' r' : Text} (h : Gap.Halves g l r) (hl : Gap.Unindented l l')
    (hr : Gap.Unindented r r') : Gap.Lightened (Gap.segments g) (l' ++ r') := by
  obtain ⟨ss, ss', hss, hless, hless'⟩ := h
  rw [hss]
  refine (hless.lightened.unindented (g := g) (fun s hs => ?_) hl).append
    (hless'.lightened.unindented (g := g) (fun s hs => ?_) hr)
  · rw [hss]
    exact List.mem_append_left _ hs
  · rw [hss]
    exact List.mem_append_right _ hs

/-- Putting the children together again behind the text `ahead` and the first one, of which `text` and `tail` are
left. The induction follows the cells; at each step what has been put together ends with the text that trails the
child, from which the next step may have to be told apart. -/
theorem assemble_seamed {parent : Node} {lineBreak : Text} (n : Node) (head : Text) {cells : List Cell} {ms : List Node}
    (hlength : ms.length = cells.length) {c last : Cell} {pre : List Cell} (hlast : c :: cells = pre ++ [last])
    (m : Node) (ahead : Text) {text tail : Text} (htext : Without (fun d => Text.isIndent d = true) c.text text)
    (htail : Gap.Unindented (trail n c cells.head?) tail) :
    ∃ cells' cells'' : List Cell, cells'.map (·.node) = m :: ms ∧ Lighter (c :: cells) cells' ∧
      Seamed parent lineBreak cells' cells'' ∧
      Printer.assemble parent lineBreak (some m) (ahead ++ (text ++ tail))
          (ms.zip ((shares n head (some c) cells).map (·.2))) ++ (Gap.splitTrailing last.gap).2 =
        ahead ++ textOf cells'' := by
  induction cells generalizing c pre ms m ahead text tail with
  | nil =>
    obtain rfl := List.length_eq_zero_iff.mp hlength
    obtain ⟨-, hlast⟩ := List.append_inj' (show [] ++ [c] = pre ++ [last] from hlast) rfl
    obtain rfl := List.singleton_inj.mp hlast
    have hgap := lightened_halves (Gap.halves_splitTrailing c.gap) htail (.inl rfl)
    refine ⟨[⟨m, text, tail ++ (Gap.splitTrailing c.gap).2⟩], _, rfl, .cons ⟨htext, hgap⟩ .nil, .last _, ?_⟩
    simp [Printer.assemble]
  | cons d cells ih =>
    cases ms with
    | nil => cases hlength
    | cons m' ms =>
      cases pre with
      | nil => cases hlast
      | cons _ pre =>
        obtain ⟨rfl, hlast'⟩ := List.cons.inj hlast
        obtain ⟨parts, hparts⟩ : ∃ parts, parts = Separator.glue (ahead ++ (text ++ tail))
          ((Separator.between parent m m').text lineBreak) (share n head (some c) d cells.head?) := ⟨_, rfl⟩
        have hseam : Separator.Trimmed ((Separator.between parent m m').text lineBreak) parts.1 := by
          rw [hparts]
          exact Separator.trimmed_glue ..
        have hright : Gap.Unindented (share n head (some c) d cells.head?) parts.2 := by
          rw [hparts]
          exact (Separator.glue_cases ..).2
        obtain ⟨x, tail', hx, hfront, htail'⟩ := hright.append
        obtain ⟨lead', text', rfl, hlead', htext'⟩ := hfront.append
        obtain ⟨cells', cells'', hnodes, hlighter, hseamed, hall⟩ := ih (by simpa using hlength) hlast'
          m' (ahead ++ (text ++ tail) ++ parts.1 ++ lead') htext'.without htail'
        have hgap : Gap.Lightened (Gap.segments c.gap) (tail ++ lead') :=
          lightened_halves (Gap.halves_splitBetween c.gap _) htail hlead'
        obtain ⟨d', rest, rfl⟩ := List.exists_cons_of_ne_nil (l := cells') (by rintro rfl; cases hnodes)
        obtain ⟨rfl, -⟩ := List.cons.inj hnodes
        refine ⟨⟨m, text, tail ++ lead'⟩ :: d' :: rest, ⟨m, text, tail ++ parts.1 ++ lead'⟩ :: cells'', ?_,
          .cons ⟨htext, hgap⟩ hlighter, .step hseam hseamed, ?_⟩
        · rw [List.map_cons, hnodes]
        · rw [shares, List.map_cons, List.zip_cons_cons, Printer.assemble, ← hparts, hx, textOf_cons]
          simp only [List.append_assoc] at hall ⊢
          exact hall

/-- A row of which commas, spaces and tabs are missing between the children, and only spaces and tabs in them. -/
structure Lightened (r r' : Row) : Prop where
  head : Gap.Lightened (Gap.segments r.head) r'.head
  cells : Lighter r.cells r'.cells

/-- Whether a character stays when a row becomes lighter. -/
def stays (c : Char) : Bool := !(c == ',' || Text.isIndent c)

theorem filter_raws {ss ss' : List Gap.Segment} (h : Without Gap.Segment.Light ss ss') :
    (Gap.raws ss').filter stays = (Gap.raws ss).filter stays := by
  induction h with
  | nil => rfl
  | keep s _ ih => rw [Gap.raws_cons, Gap.raws_cons, List.filter_append, List.filter_append, ih]
  | skip hs _ ih =>
    rw [Gap.raws_cons, List.filter_append, ih]
    rcases hs with rfl | rfl | rfl <;> rfl

theorem filter_lightened {g g' : Text} (h : Gap.Lightened (Gap.segments g) g') : g'.filter stays = g.filter stays := by
  obtain ⟨ss, hss, rfl⟩ := h
  rw [filter_raws hss, Gap.raws_segments]

/-- Nothing but commas, spaces and tabs is lost, and nothing is there twice. -/
theorem Lightened.filter_text {r r' : Row} (h : r.Lightened r') : r'.text.filter stays = r.text.filter stays := by
  have hcells : ∀ {cells cells' : List Cell}, Lighter cells cells' →
      (textOf cells').filter stays = (textOf cells).filter stays := by
    intro cells cells' hlighter
    induction hlighter with
    | nil => rfl
    | cons hcell _ ih =>
      have htext := hcell.1.filter_eq (q := stays) fun c hc => by simp [stays, hc]
      simp only [textOf_cons, List.filter_append, ih, htext, filter_lightened hcell.2]
  rw [text, text, List.filter_append, List.filter_append, filter_lightened h.head, hcells h.cells]

/-- The shares of all the children, put together between what is left to the node itself. -/
theorem assemble_shares {parent n : Node} {lineBreak : Text} {r : Row} {ms : List Node}
    (hlength : ms.length = r.cells.length) {pre : List Cell} {last : Cell} (hlast : r.cells = pre ++ [last]) :
    ∃ r' r'' : Row, ms = r'.cells.map (·.node) ∧ r.Lightened r' ∧ r'.head = r''.head ∧
      Seamed parent lineBreak r'.cells r''.cells ∧
      Printer.assemble parent lineBreak none (Gap.splitLeading n r.head).1
        (ms.zip ((shares n r.head none r.cells).map (·.2))) ++ (Gap.splitTrailing last.gap).2 = r''.text := by
  obtain ⟨head, cells⟩ := r
  dsimp only at hlength hlast ⊢
  cases cells with
  | nil => simp at hlast
  | cons c cells =>
    cases ms with
    | nil => cases hlength
    | cons m ms =>
      obtain ⟨cells', cells'', hnodes, hlighter, hseamed, hall⟩ :=
        assemble_seamed n head (by simpa using hlength) hlast m
        ((Gap.splitLeading n head).1 ++ (Gap.splitLeading n head).2) (.refl c.text)
        (.inl rfl : Gap.Unindented (trail n c cells.head?) _)
      have hhead : Gap.Lightened (Gap.segments head) ((Gap.splitLeading n head).1 ++ (Gap.splitLeading n head).2) :=
        lightened_halves (Gap.halves_splitLeading n head) (.inl rfl) (.inl rfl)
      refine ⟨⟨_, cells'⟩, ⟨_, cells''⟩, hnodes.symm, ⟨hhead, hlighter⟩, rfl, hseamed, ?_⟩
      rw [shares, List.map_cons, List.zip_cons_cons, Printer.assemble, share, lead, text, ← hall]
      simp only [List.append_assoc]

end Row

/-! ### Copies -/

namespace Node

/-- A child of a copy: the very child of the base node, or one that the copy derives in its place. -/
def Again (copy m b : Node) : Prop :=
  m = b ∨ (∃ part, m.identity = .part copy.identity part) ∧ m.sameShape b = true ∧ m.children = b.children

/-- Another node of the same tag in the same place with the children of a base node, in the same order. -/
structure Copy (copy n : Node) : Prop where
  other : copy.same n = false
  slot : copy.sameSlot n
  children : List.Forall₂ (Again copy) copy.children n.children

theorem Again.slot {copy m b : Node} (h : Again copy m b) : m.sameSlot b := by
  rcases h with rfl | ⟨-, hshape, -⟩
  · exact m.sameSlot_refl
  · exact (Bool.and_eq_true_iff.mp hshape).1

/-- What a copy derives again counts as unchanged while only the copy itself has changed. -/
theorem Again.pristine {copy m b : Node} (h : Again copy m b) : m.isPristine (.ofList [copy]) b = true := by
  rcases h with rfl | ⟨⟨part, hpart⟩, hshape, hchildren⟩
  · exact m.isPristine_self _
  · have hcontains : (NodeSet.ofList [copy]).contains m = false := by
      refine Bool.eq_false_iff.mpr fun hsame => ?_
      have hid : copy.identity = .part copy.identity part :=
        hpart ▸ same_iff.mp (by simpa [NodeSet.ofList, NodeSet.insert, NodeSet.contains] using hsame)
      have := congrArg sizeOf hid
      simp only [Identity.part.sizeOf_spec] at this
      omega
    have hsame : ∀ (i : Nat) (c d : Node), m.children[i]? = some c → b.children[i]? = some d → c = d := by
      intro i c d hc hd
      rw [hchildren, hd] at hc
      exact (Option.some.inj hc).symm
    have hslots : m.childrenChanged b = false := by
      refine childrenChanged_eq_false_iff.mpr ⟨by rw [hchildren], fun i c d hc hd => ?_⟩
      rw [hsame i c d hc hd]
      exact d.sameSlot_refl
    refine isPristine_iff.mpr (.inr ⟨hcontains, hshape, hslots, fun i c d hc hd => ?_⟩)
    rw [hsame i c d hc hd]
    exact d.isPristine_self _

end Node

open Node in
/-- What is printed for a copy of a laid out node. -/
theorem CompilationUnit.Laid.print_copy {p : Printer} {c : CompilationUnit} {n copy : Node} {q : Span} {r : Row}
    (h : c.Laid n q r) (hdistinct : c.root.Distinct) (hunit : p.units.get? q.file = some c)
    (hchildren : n.children = r.cells.map (·.node)) (hne : n.children ≠ []) (hcopy : copy.Copy n) :
    ∃ r' r'' : Row, copy.children = r'.cells.map (·.node) ∧ r.Lightened r' ∧ r'.head = r''.head ∧
      Row.Seamed copy (Remade.lineBreak p c n q) r'.cells r''.cells ∧
      ∀ ds l, Layout.around p.units n = .ok l →
        Yields (p.print (.ofList [copy]) copy) ds ⟨l.leading, r''.text, l.trailing, false⟩ ds := by
  have hcells : r.cells ≠ [] := fun hnil => hne (by rw [hchildren, hnil, List.map_nil])
  obtain ⟨pre, last, hlast⟩ := (List.eq_nil_or_concat r.cells).resolve_left hcells
  rw [List.concat_eq_append] at hlast
  have hagain : List.Forall₂ (fun m cell => Again copy m cell.node) copy.children r.cells := by
    have := hcopy.children
    rwa [hchildren, List.forall₂_map_right_iff] at this
  have hpaired : List.Forall₂ (fun m cell => p.units.counterpart? m = some cell.node ∧
      m.isPristine (.ofList [copy]) cell.node = true) copy.children r.cells := by
    refine List.forall₂_iff_get.mpr ⟨hagain.length_eq, fun i hi hj => ?_⟩
    have hm := (List.forall₂_iff_get.mp hagain).2 i hi hj
    obtain ⟨pre, post, hsplit⟩ := List.append_of_mem (List.get_mem r.cells ⟨i, hj⟩)
    exact ⟨h.counterpart_child hdistinct hunit hsplit hm.slot, hm.pristine⟩
  have hcopied : copy.children ≠ [] := by
    rw [← List.length_pos_iff_ne_nil, hagain.length_eq]
    exact List.length_pos_iff_ne_nil.mpr hcells
  obtain ⟨r', r'', hnodes, hlightened, hhead, hseamed, hall⟩ := Row.assemble_shares (n := n) hagain.length_eq hlast
  refine ⟨r', r'', hnodes, hlightened, hhead, hseamed, fun ds l hl => ?_⟩
  obtain ⟨fs, hfs, htexts, hfresh⟩ := h.print_children hunit (List.nil_append r.cells).symm hpaired ds
  have hprint := h.yields_print hunit (h.counterpart hdistinct hunit hcopy.slot) (isPristine_changed hcopy.other) hcopied
    hlast hl hfs
  rw [Printer.addChildren_eq_assemble hfresh, htexts] at hprint
  rw [← hall]
  exact hprint

/-- A node is not printed if the text around the base node in its place cannot be measured. -/
theorem Printer.fails_print {p : Printer} {changed : NodeSet} {m n : Node} {q : Span}
    {ds : List Diagnostic} {e : RegenError}
    (hcounterpart : p.units.counterpart? m = some n) (hspan : n.span = some q) (h : Layout.around p.units n = .error e) :
    Fails (p.print changed m) ds e := by
  rw [print, printIn]
  simp only [hcounterpart, hspan]
  exact (Fails.lift h).bind_left

open Node in
/-- A copy of a base node, whose children stand in order and apart from each other. Where the text around the node can
be measured, which is so if all nodes stand in the text, the copy is printed, otherwise printing fails as the measuring
does. What is printed is the text of the node with commas, spaces and tabs left out, none of them from a comment, and
with a separator or nothing put in before each child but the first one. -/
theorem CompilationUnit.copied_text (p : Printer) (c : CompilationUnit) (n copy : Node) (q : Span)
    (hunit : p.units.get? q.file = some c) (hsharing : Sharing c.root c.root) (hscattered : c.root.Scattered)
    (habove : c.root.Encloses n q) (hmem : n ∈ c.root.preorder) (hordered : Layout.InOrder c.source n q)
    (hplaced : ∀ b ∈ n.children, b.layoutSpan.isSome) (hne : n.children ≠ []) (hcopy : copy.Copy n) :
    ∃ r r' r'' : Row,
      (∀ ds l, Layout.around p.units n = .ok l →
        Yields (p.print (.ofList [copy]) copy) ds ⟨l.leading, r''.text, l.trailing, false⟩ ds) ∧
      (∀ ds e, Layout.around p.units n = .error e → Fails (p.print (.ofList [copy]) copy) ds e) ∧
      (c.Fits → ∃ l, Layout.around p.units n = .ok l) ∧
      copy.children = r'.cells.map (·.node) ∧ r'.head = r''.head ∧
      Row.Seamed copy (Remade.lineBreak p c n q) r'.cells r''.cells ∧
      n.children = r.cells.map (·.node) ∧ c.source.slice q.start q.stop = .ok r.text ∧
      Row.sits (q.start + r.head.size) r.cells ∧
      (∀ cell ∈ r.cells, ∃ s, cell.node.span = some s ∧ c.source.slice s.start s.stop = .ok cell.text) ∧
      r.Lightened r' ∧ r'.text.filter Row.stays = r.text.filter Row.stays := by
  have hdistinct := hscattered.distinct
  obtain ⟨r, h⟩ := hordered.exists_laid (hscattered.once hsharing) habove hmem
  have hchildren : n.children = r.cells.map (·.node) := by
    rw [← h.anchors]
    exact (List.filter_eq_self.mpr hplaced).symm
  obtain ⟨r', r'', hnodes, hlightened, hhead, hseamed, hprint⟩ := h.print_copy hdistinct hunit hchildren hne hcopy
  refine ⟨r, r', r'', hprint,
    fun ds e he => Printer.fails_print (h.counterpart hdistinct hunit hcopy.slot) h.span he,
    fun hfits => Layout.around_ok hunit hfits hmem h.span, hnodes, hhead, hseamed, hchildren, h.text, h.sits,
    fun cell hcell => ?_, hlightened, hlightened.filter_text⟩
  obtain ⟨pre, post, hcells⟩ := List.append_of_mem hcell
  obtain ⟨s, -, hs, -⟩ := h.child_place hcells
  exact ⟨s, hs, h.slice_child hcells hs⟩

/-- The selection `a /*,*/.b`. -/
def remarkedSelection : CompilationUnit where
  source := { name := "A.scala", text := ['a', ' ', '/', '*', ',', '*', '/', '.', 'b'] }
  root := .mk (.built 1) (some (.range "A.scala" 0 9))
    (.select (.letter 0 "a" 0) { text := "b", span := some (.range "A.scala" 8 9) })

/-- The selection made again, which derives the node of the name again. -/
def selectionCopy : Node :=
  .mk (.built 2) (some (.range "A.scala" 0 9))
    (.select (.letter 0 "a" 0) { text := "b", span := some (.range "A.scala" 8 9) })

theorem copy_selectionCopy : selectionCopy.Copy remarkedSelection.root where
  other := rfl
  slot := rfl
  children := .cons (.inl rfl) (.cons (.inr ⟨⟨.name, rfl⟩, by decide, rfl⟩) .nil)

/-- The copy is printed as the selection, but for blanks and commas that are no part of its comment. -/
theorem copied_text_selectionCopy :
    selectionCopy.Copy remarkedSelection.root ∧
      ∃ (l : Layout) (r r' r'' : Row), Layout.around (.single remarkedSelection) remarkedSelection.root = .ok l ∧
        Yields ((Printer.plain remarkedSelection).print (.ofList [selectionCopy]) selectionCopy) []
          ⟨l.leading, r''.text, l.trailing, false⟩ [] ∧
        remarkedSelection.source.slice 0 9 = .ok r.text ∧ r.Lightened r' ∧
        r'.text.filter Row.stays = r.text.filter Row.stays := by
  have hwell : remarkedSelection.root.isWellPlaced := by cbv
  have hids : remarkedSelection.root.preorder.map (·.identity) = [.built 1, .built 0, .part (.built 1) .name] := by cbv
  have hsingle : remarkedSelection.root.Single := Node.single_of_identities hids (by decide)
  have hspans : remarkedSelection.root.children.filterMap (·.layoutSpan) =
      [.range "A.scala" 0 1, .range "A.scala" 8 9] := rfl
  have hordered : Layout.InOrder remarkedSelection.source remarkedSelection.root (.range "A.scala" 0 9) :=
    Layout.inOrder_of_spans rfl hspans (by decide) (by decide) (by decide)
  have haround : Layout.around (.single remarkedSelection) remarkedSelection.root = .ok {} := by cbv
  obtain ⟨r, r', r'', hprint, -, -, -, -, -, -, htext, -, -, hlightened, hfilter⟩ :=
    CompilationUnit.copied_text (Printer.plain remarkedSelection) remarkedSelection remarkedSelection.root selectionCopy
      (.range "A.scala" 0 9) rfl hsingle.sharing (Node.scattered_of_isWellPlaced hwell)
      ((Node.wellPlaced_of_isWellPlaced hwell).within.encloses rfl) (Node.mem_preorder_self _) hordered
      (List.forall_mem_cons.mpr ⟨rfl, List.forall_mem_cons.mpr ⟨rfl, by simp⟩⟩) (List.cons_ne_nil _ _) copy_selectionCopy
  exact ⟨copy_selectionCopy, {}, r, r', r'', haround, hprint [] {} haround, htext, hlightened, hfilter⟩

/-- The call `f(a)` from the third byte on. -/
def laterCall (serial : Nat) : Node :=
  .mk (.built serial) (some (.range "A.scala" 2 6)) (.apply (.letter 1 "f" 2) [.letter 2 "a" 4])

/-- The call behind a letter of two bytes, of which a name has the first. -/
def severedLetter : CompilationUnit where
  source := { name := "A.scala", text := ['é', 'f', '(', 'a', ')'] }
  root := .mk (.built 4) (some (.range "A.scala" 0 6)) (.block [.letter 0 "x" 0, laterCall 3])

/-- The call and its children stand in the text, in order and apart from each other, but the gap between the call and the
name ahead of it begins inside a letter. What leads the call cannot be measured, and its copy is not printed. -/
theorem severedLetter_not_printed :
    Node.Sharing severedLetter.root severedLetter.root ∧ severedLetter.root.Scattered ∧ severedLetter.root.Within ∧
      laterCall 3 ∈ severedLetter.root.preorder ∧
      Layout.InOrder severedLetter.source (laterCall 3) (.range "A.scala" 2 6) ∧
      (∀ b ∈ (laterCall 3).children, b.layoutSpan.isSome) ∧ (laterCall 3).children ≠ [] ∧
      (laterCall 5).Copy (laterCall 3) ∧
      ∀ ds, Fails ((Printer.plain severedLetter).print (.ofList [laterCall 5]) (laterCall 5)) ds
        (.outOfBounds { start := 1, stop := 2, size := 6 }) := by
  have hwell : severedLetter.root.isWellPlaced := by cbv
  have hids : severedLetter.root.preorder.map (·.identity) = [.built 4, .built 0, .built 3, .built 1, .built 2] := by cbv
  have hsingle : severedLetter.root.Single := Node.single_of_identities hids (by decide)
  have hmem : laterCall 3 ∈ severedLetter.root.preorder :=
    Node.mem_preorder_child (List.mem_cons_of_mem _ (List.mem_singleton_self _))
  have hspans : (laterCall 3).children.filterMap (·.layoutSpan) = [.range "A.scala" 2 3, .range "A.scala" 4 5] := rfl
  have hordered : Layout.InOrder severedLetter.source (laterCall 3) (.range "A.scala" 2 6) :=
    Layout.inOrder_of_spans rfl hspans (by decide) (by decide) (by decide)
  have hcopy : (laterCall 5).Copy (laterCall 3) := ⟨rfl, rfl, .cons (.inl rfl) (.cons (.inl rfl) .nil)⟩
  have hcounterpart : (Units.single severedLetter).counterpart? (laterCall 5) = some (laterCall 3) := by cbv
  have haround : Layout.around (.single severedLetter) (laterCall 3) =
      .error (.outOfBounds { start := 1, stop := 2, size := 6 }) := by cbv
  exact ⟨hsingle.sharing, Node.scattered_of_isWellPlaced hwell, (Node.wellPlaced_of_isWellPlaced hwell).within,
    hmem, hordered, List.forall_mem_cons.mpr ⟨rfl, List.forall_mem_cons.mpr ⟨rfl, by simp⟩⟩, List.cons_ne_nil _ _,
    hcopy, fun _ => Printer.fails_print hcounterpart rfl haround⟩

end Reprint
