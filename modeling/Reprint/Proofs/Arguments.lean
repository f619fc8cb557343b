import Mathlib
import Reprint.Proofs.Call
/-!
Which calls with other arguments can still be read. A comma between every two arguments, no part of the call in a
comment of another part: that is so exactly when each argument takes what the printer puts behind it. The sample calls
have two arguments and one gap between them, which is a parameter. A block comment in the gap does no harm. A comment
to the end of the line is torn from the line break that closes it, and swallows what comes next.
-/

namespace Reprint.Call
open Node Separator

/-! ### Calls with two arguments -/

/-- A call of `f` that ends at an offset. -/
def callOf (serial stop : Nat) (args : List Node) : Node :=
  .mk (.built serial) (some (.range "A.scala" 0 stop)) (.apply (letter 0 "f" 0) args)

/-- The call of `f` with `a` and `b`, and a gap between the two. -/
def pair (gap : Text) : CompilationUnit where
  source := { name := "A.scala", text := "f(a".toList ++ gap ++ "b)".toList }
  root := callOf 3 (5 + gap.size) [letter 1 "a" 2, letter 2 "b" (3 + gap.size)]

section Pair
variable (gap : Text)

theorem preorder_letter (serial : Nat) (name : String) (start : Nat) :
    (letter serial name start).preorder = [letter serial name start] := by
  rw [preorder_eq]
  rfl

theorem preorder_pair : (pair gap).root.preorder =
    [(pair gap).root, letter 0 "f" 0, letter 1 "a" 2, letter 2 "b" (3 + gap.size)] := by
  have hchildren : (pair gap).root.children = [letter 0 "f" 0, letter 1 "a" 2, letter 2 "b" (3 + gap.size)] := rfl
  rw [preorder_eq, hchildren]
  simp only [List.flatMap_cons, List.flatMap_nil, preorder_letter, List.cons_append, List.nil_append]

theorem placed_pair : (pair gap).root.WellPlaced := by
  have hchildren : (pair gap).root.children = [letter 0 "f" 0, letter 1 "a" 2, letter 2 "b" (3 + gap.size)] := rfl
  have hroot : (pair gap).root.span = some (.range "A.scala" 0 (5 + gap.size)) := rfl
  have hleaf : ∀ i s x, (letter i s x).children = [] := fun _ _ _ => rfl
  have hspan : ∀ i s x, (letter i s x).span = some (.range "A.scala" x (x + 1)) := fun _ _ _ => rfl
  apply wellPlaced_of_isWellPlaced
  simp only [isWellPlaced, preorder_pair, hchildren, hleaf, preorder_letter, allPairs, placesAll, hroot, hspan,
    List.all_cons, List.all_nil, Option.all_some, Span.range, Span.includes, Span.overlaps, Span.sameRange]
  grind

theorem single_pair : (pair gap).root.Single := by
  rw [Single, preorder_pair]
  simp [pair, callOf, letter, identity]

/-- A part of the text of the call, by its size and the size of what stands ahead of it. -/
theorem slice_pair {a x b : Text} {start stop : Nat} (h : (pair gap).source.text = a ++ x ++ b)
    (hstart : Text.size a = start) (hstop : Text.size (a ++ x) = stop) : (pair gap).source.slice start stop = .ok x :=
  Source.slice_eq_ok_iff.mpr ⟨a, b, h, hstart, hstop⟩

theorem gap_pair {a x b : Text} {start stop : Nat} (h : (pair gap).source.text = a ++ x ++ b)
    (hstart : Text.size a = start) (hstop : Text.size (a ++ x) = stop) (hne : x ≠ []) :
    Layout.gap (pair gap).source start stop = .ok x := by
  have hlt : start < stop := by
    have : Text.size x ≠ 0 := fun hzero => hne (Text.size_eq_zero_iff.mp hzero)
    rw [Text.size_append] at hstop
    omega
  rw [Layout.gap, Source.gap, if_pos hlt, slice_pair gap h hstart hstop]

theorem size_pair : Text.size ("f(a".toList ++ gap) = 3 + gap.size ∧
    Text.size ("f(a".toList ++ gap ++ ['b']) = 3 + gap.size + 1 ∧ (pair gap).source.text.size = 5 + gap.size := by
  have hgap : Text.size ("f(a".toList ++ gap) = 3 + gap.size := by rw [Text.size_append]; rfl
  refine ⟨hgap, by rw [Text.size_append, hgap]; rfl, ?_⟩
  show Text.size ("f(a".toList ++ gap ++ "b)".toList) = _
  rw [Text.size_append, hgap, Nat.add_right_comm]
  rfl

theorem fits_pair : (pair gap).Fits := by
  have hcut : ∀ a b : Text, (pair gap).source.text = a ++ b → (pair gap).source.text.isBoundary (Text.size a) :=
    fun a b h => Text.isBoundary_iff.mpr ⟨a, b, h, rfl⟩
  obtain ⟨hgap, hb, hstop⟩ := size_pair gap
  intro n hn s hs
  rw [preorder_pair] at hn
  simp only [List.mem_cons, List.not_mem_nil, or_false] at hn
  rcases hn with rfl | rfl | rfl | rfl
  · cases hs
    exact ⟨Text.isBoundary_zero _, hstop ▸ Text.isBoundary_size _⟩
  · cases hs
    exact ⟨Text.isBoundary_zero _, hcut ['f'] _ rfl⟩
  · cases hs
    exact ⟨hcut ['f', '('] _ rfl, hcut ['f', '(', 'a'] _ rfl⟩
  · cases hs
    exact ⟨hgap ▸ hcut _ _ (List.append_assoc ..), hb ▸ hcut _ [')'] (by simp [pair])⟩

theorem slices_pair : (pair gap).source.slice 0 1 = .ok ['f'] ∧ (pair gap).source.slice 2 3 = .ok ['a'] ∧
    (pair gap).source.slice (3 + gap.size) (3 + gap.size + 1) = .ok ['b'] := by
  obtain ⟨hgap, hb, -⟩ := size_pair gap
  exact ⟨slice_pair gap (a := []) rfl rfl rfl, slice_pair gap (a := ['f', '(']) rfl rfl rfl,
    slice_pair gap (b := [')']) (by simp [pair]) hgap hb⟩

theorem gaps_pair (h : Gap.Only ',' gap) : Layout.gap (pair gap).source 1 2 = .ok ['('] ∧
    Layout.gap (pair gap).source 3 (3 + gap.size) = .ok gap ∧
    Layout.gap (pair gap).source (3 + gap.size + 1) (5 + gap.size) = .ok [')'] := by
  obtain ⟨hgap, hb, hstop⟩ := size_pair gap
  refine ⟨gap_pair gap (a := ['f']) rfl rfl rfl (by simp), gap_pair gap (a := "f(a".toList) rfl rfl hgap ?_,
    gap_pair gap (b := []) (by simp [pair]) hb ?_ (by simp)⟩
  · rintro rfl
    obtain ⟨x, y, hmask, -⟩ := h
    simp [Gap.masked] at hmask
  · rw [Text.size_append, hb]
    show 3 + gap.size + 1 + 1 = 5 + gap.size
    omega

/-- The call whose arguments have one comma between them. -/
def pairCall (h : Gap.Only ',' gap) : Call (Units.single (pair gap)) where
  unit := pair gap
  node := (pair gap).root
  span := .range "A.scala" 0 (5 + gap.size)
  callee := letter 0 "f" 0
  args := [letter 1 "a" 2, letter 2 "b" (3 + gap.size)]
  known := rfl
  placed := placed_pair gap
  single := single_pair gap
  fits := fits_pair gap
  mem := mem_preorder_self _
  place := rfl
  kind := rfl
  hasArgs := by simp
  anchored := by
    intro c hc
    have hc : c ∈ [letter 0 "f" 0, letter 1 "a" 2, letter 2 "b" (3 + gap.size)] := hc
    simp only [List.mem_cons, List.not_mem_nil, or_false] at hc
    rcases hc with rfl | rfl | rfl <;> rfl
  begins := rfl
  simple := ⟨rfl, by decide⟩
  calleeText := by
    intro s hs
    cases hs
    have hcode : Gap.segments ['f'] = [] ++ [.code 'f'] := by
      rw [Gap.segments_code fun h => absurd h (by decide), Gap.segments_nil, List.nil_append]
    exact ⟨['f'], (slices_pair gap).1, Gap.closed_of_code hcode (by decide)⟩
  argText := by
    intro a ha s hs
    simp only [List.mem_cons, List.not_mem_nil, or_false] at ha
    rcases ha with rfl | rfl
    · cases hs
      exact ⟨['a'], (slices_pair gap).2.1, 'a', [], rfl, by decide, by decide⟩
    · cases hs
      exact ⟨['b'], (slices_pair gap).2.2, 'b', [], rfl, by decide, by decide⟩
  gaps := by
    intro i a b s t ha hb hs ht
    match i with
    | 0 =>
      cases ha
      cases hb
      cases hs
      cases ht
      exact ⟨['('], (gaps_pair gap h).1, Gap.only_singleton (by decide)⟩
    | 1 =>
      cases ha
      cases hb
      cases hs
      cases ht
      exact ⟨gap, (gaps_pair gap h).2.1, h⟩
    | i + 2 => cases hb
  closing := by
    intro a s ha hs
    cases ha
    cases hs
    exact ⟨[')'], (gaps_pair gap h).2.2, Gap.only_singleton (by decide)⟩

end Pair

theorem splitBetween_paren {j : Gap.Junction} (hj : j.index? (Gap.masked ['(']) = none) :
    Gap.splitBetween ['('] j = (['('], []) := by
  have hmask : Gap.masked ['('] = [] ++ '(' :: [] := by cbv
  obtain ⟨r, hr⟩ := Gap.find?_opening hmask rfl rfl
  rw [Gap.splitBetween, Gap.indexBetween, hj, hr]
  cbv

/-- The callee and the arguments with their shares of the gaps. -/
theorem brought_pair {gap left right : Text} (h : Gap.Only ',' gap)
    (hsplit : ∀ j : Gap.Junction, j.index? (Gap.masked gap) = none → Gap.splitBetween gap j = (left, right)) :
    (Printer.plain (pair gap)).broughtText (letter 0 "f" 0) = some ['f', '('] ∧
      (Printer.plain (pair gap)).broughtText (letter 1 "a" 2) = some ('a' :: left) ∧
      (Printer.plain (pair gap)).broughtText (letter 2 "b" (3 + gap.size)) = some (right ++ ['b']) := by
  let p := Printer.plain (pair gap)
  let call : Call p.units := pairCall gap h
  obtain ⟨hopen, hcomma, hclose⟩ := gaps_pair gap h
  obtain ⟨hf, ha, hb⟩ := slices_pair gap
  have hindex : ∀ i s x right code,
      Gap.Junction.index? { parent := call.node, left := letter i s x, right } code = none :=
    fun i s x right code => call.junction_index ⟨rfl, fun htag => by cases htag⟩ code
  have hchild : ∀ i a, call.node.children[i]? = some a → a ∈ call.node.children := fun _ _ => List.mem_of_getElem?
  refine ⟨?_, ?_, ?_⟩
  · obtain ⟨l, hl, hshares⟩ := call.around_child (i := 0) (a := letter 0 "f" 0) rfl rfl
    rw [call.broughtText_child (hchild 0 _ rfl) rfl hl hf, hshares.first rfl, hshares.trailing _ _ _ rfl rfl hopen,
      splitBetween_paren (hindex ..)]
    rfl
  · obtain ⟨l, hl, hshares⟩ := call.around_child (i := 1) (a := letter 1 "a" 2) rfl rfl
    rw [call.broughtText_child (hchild 1 _ rfl) rfl hl ha, hshares.leading 0 _ _ _ rfl rfl rfl hopen,
      hshares.trailing _ _ _ rfl rfl hcomma, splitBetween_paren (hindex ..), hsplit _ (hindex ..)]
    rfl
  · obtain ⟨l, hl, hshares⟩ := call.around_child (i := 2) (a := letter 2 "b" (3 + gap.size)) rfl rfl
    have hlast : (Gap.splitTrailing [')']).1 = [] := by cbv
    rw [call.broughtText_child (hchild 2 _ rfl) rfl hl hb, hshares.leading 1 _ _ _ rfl rfl rfl hcomma,
      hshares.last _ rfl hclose, hsplit _ (hindex ..), hlast, List.append_nil]

theorem affixes_pair {gap : Text} (h : Gap.Only ',' gap) :
    Layout.affixes? (pair gap).source (pair gap).root = .ok (some { leading := [], trailing := [')'] }) := by
  have hspans : (pair gap).root.children.filterMap (·.layoutSpan) =
      [.range "A.scala" 0 1, .range "A.scala" 2 3, .range "A.scala" (3 + gap.size) (3 + gap.size + 1)] := rfl
  have hplace : (pair gap).root.layoutSpan = some (.range "A.scala" 0 (5 + gap.size)) := rfl
  have hahead : Layout.gap (pair gap).source 0 0 = .ok [] := rfl
  have hlast : (Gap.splitTrailing [')']).2 = [')'] := by cbv
  simp only [Layout.affixes?, hspans, hplace, List.head?_cons, List.getLast?_cons_cons, List.getLast?_singleton,
    Span.range, hahead, (gaps_pair gap h).2.2]
  show Except.ok (some (Layout.mk (Gap.splitLeading (pair gap).root []).1 (Gap.splitTrailing [')']).2)) = _
  rw [Gap.splitLeading_nil, hlast]

/-- A new name. -/
def newName (serial : Nat) (name : String) : Node := .mk (.built serial) none (.ident name)

/-! ### Legible calls -/

/-- A call with other arguments can be read exactly when every argument but the last takes a comma and the last one
takes what closes the call. The arguments come with the comments that were around them, and these decide. In a call
that can be read, the closing parenthesis and the commas are there once comments are blanked out. -/
theorem arguments_legible_iff (p : Printer) (call : Call p.units) (n : Node) (args : List Node)
    (h : call.Edited n args) :
    Region.search p.units n = [.of p.units n call.span] ∧
      ∃ start texts suffix text, p.broughtText call.callee = some start ∧ args.mapM p.broughtText = some texts ∧
        Layout.affixes? call.unit.source call.node = .ok (some { leading := [], trailing := suffix }) ∧
        (∃ x, start = x ++ ['(']) ∧ Gap.Only ')' suffix ∧
        text = start ++ joined (parts start (unindented texts)) ++ suffix ∧
        (∀ ds, Yields (p.printRegion (.of p.units n call.span)) ds text ds) ∧
        (Legible start (parts start (unindented texts)) suffix ↔ InList (unindented texts) suffix) ∧
        (Legible start (parts start (unindented texts)) suffix →
          ')' ∈ Gap.masked text ∧ args.length - 1 ≤ (Gap.masked text).count ',') := by
  obtain ⟨start, texts, suffix, hstart, htexts, hlength, hsuffix, hparen, hclosed, honly, hfilled, hprint⟩ :=
    h.printRegion
  refine ⟨h.search, start, texts, suffix, _, hstart, htexts, hsuffix, hparen, honly, rfl, hprint,
    legible_iff_inList hclosed (filled_unindented hfilled), fun hlegible => ⟨?_, ?_⟩⟩
  · obtain ⟨a, b, hmask, -⟩ := honly
    refine hlegible.mem_masked (by decide) ?_
    rw [hmask]
    exact List.mem_append_right _ (List.mem_cons_self ..)
  · have hcommas := hlegible.count_comma
    rwa [length_parts, length_unindented, hlength] at hcommas

/-- A block comment stays with its argument and takes a comma behind it: `f(/**/b, c)`. -/
theorem exchanged_argument_legible :
    let gap := [',', '/', '*', '*', '/']
    let p := Printer.plain (pair gap)
    let n := callOf 4 10 [letter 2 "b" 8, newName 5 "c"]
    ∃ start l suffix, (∀ ds, Yields (p.printRegion (.of p.units n (.range "A.scala" 0 10))) ds
        (start ++ joined l ++ suffix) ds) ∧
      start ++ joined l ++ suffix = "f(/**/b, c)".toList ∧ Legible start l suffix := by
  intro gap p n
  have hmask : Gap.masked gap = [] ++ ',' :: [' ', ' ', ' ', ' '] := by cbv
  have hsplit : ∀ j : Gap.Junction, j.index? (Gap.masked gap) = none →
      Gap.splitBetween gap j = ([], ['/', '*', '*', '/']) := by
    intro j hj
    rw [Gap.splitBetween_comma hmask rfl rfl hj]
    cbv
  have honly : Gap.Only ',' gap := ⟨[], _, hmask, rfl, rfl⟩
  have hedited : Call.Edited (p := p) (pairCall gap honly) n [letter 2 "b" 8, newName 5 "c"] := by
    refine ⟨rfl, rfl, rfl, by cbv, fun a ha => ?_⟩
    simp only [List.mem_cons, List.not_mem_nil, or_false] at ha
    rcases ha with rfl | rfl
    · exact .inl (List.mem_cons_of_mem _ (List.mem_singleton_self _))
    · exact .inr ⟨⟨rfl, ['c'], by cbv, ⟨'c', [], rfl, by decide, by decide⟩, by decide⟩, rfl⟩
  obtain ⟨-, start, texts, suffix, _, hstart, htexts, hsuffix, -, -, rfl, hprint, hiff, -⟩ :=
    arguments_legible_iff p (pairCall gap honly) n _ hedited
  obtain ⟨hf, -, hb⟩ := brought_pair honly hsplit
  have htexts' : [letter 2 "b" 8, newName 5 "c"].mapM p.broughtText = some [['/', '*', '*', '/', 'b'], ['c']] := by
    have hc : p.broughtText (newName 5 "c") = some ['c'] := by cbv
    rw [List.mapM_cons, List.mapM_cons, List.mapM_nil, hc]
    have hb : p.broughtText (letter 2 "b" 8) = some ['/', '*', '*', '/', 'b'] := hb
    rw [hb]
    rfl
  cases hstart.symm.trans hf
  cases htexts.symm.trans htexts'
  cases hsuffix.symm.trans (affixes_pair honly)
  refine ⟨_, _, _, hprint, by decide, hiff.mpr ⟨⟨by cbv, by decide⟩, ?_⟩⟩
  show Gap.bare (['c'] ++ [')']) = Gap.bare ['c'] ++ Gap.bare [')']
  cbv

/-- A comment to the end of the line takes the closing parenthesis: without `b` the call becomes `f(a//)`. -/
theorem parenthesis_lost_to_comment :
    let gap := [',', '/', '/', '\n']
    let p := Printer.plain (pair gap)
    let n := callOf 4 9 [letter 1 "a" 2]
    (∃ h : Gap.Only ',' gap, Call.Edited (p := p) (pairCall gap h) n [letter 1 "a" 2]) ∧
      Region.search p.units n = [.of p.units n (.range "A.scala" 0 9)] ∧
      (∀ ds, Yields (p.printRegion (.of p.units n (.range "A.scala" 0 9))) ds "f(a//)".toList ds) ∧
      ')' ∉ Gap.masked "f(a//)".toList := by
  intro gap p n
  have hmask : Gap.masked gap = [] ++ ',' :: [' ', ' ', '\n'] := by cbv
  have hsplit : ∀ j : Gap.Junction, j.index? (Gap.masked gap) = none →
      Gap.splitBetween gap j = (['/', '/'], ['\n']) := by
    intro j hj
    rw [Gap.splitBetween_comma hmask rfl rfl hj]
    cbv
  have honly : Gap.Only ',' gap := ⟨[], _, hmask, rfl, rfl⟩
  have hedited : Call.Edited (p := p) (pairCall gap honly) n [letter 1 "a" 2] := by
    refine ⟨rfl, rfl, rfl, by cbv, fun a ha => .inl ?_⟩
    rw [List.mem_singleton.mp ha]
    exact List.mem_cons_self ..
  obtain ⟨start, texts, suffix, hstart, htexts, -, hsuffix, -, -, -, -, hprint⟩ := hedited.printRegion
  obtain ⟨hf, ha, -⟩ := brought_pair honly hsplit
  have htexts' : [letter 1 "a" 2].mapM p.broughtText = some [['a', '/', '/']] := by
    rw [List.mapM_cons, List.mapM_nil, ha]
    rfl
  cases hstart.symm.trans hf
  cases htexts.symm.trans htexts'
  cases hsuffix.symm.trans (affixes_pair honly)
  refine ⟨⟨honly, hedited⟩, hedited.search, hprint, ?_⟩
  have hlost : Gap.masked ['f', '(', 'a', '/', '/', ')'] = ['f', '(', 'a', ' ', ' ', ' '] := by cbv
  show ')' ∉ Gap.masked ['f', '(', 'a', '/', '/', ')']
  rw [hlost]
  decide

end Reprint.Call
