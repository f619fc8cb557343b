import Reprint.Proofs.Parameters
/-!
Methods that have lost parameters. What stands between two lists of parameters goes to the last parameter of the first
one, so the parentheses of a method depend on which parameters stay. Main statement: the text of such a method closes
exactly what it opens if and only if the count of its parentheses says so (`Node.balancedIff_methodDef`).
-/

namespace Reprint

namespace Row
open Text

/-- A row with something in it, and ahead of that neither a comma nor a comment nor a bracket. -/
structure Plain (r : Row) : Prop where
  cells : r.cells ≠ []
  slash : '/' ∉ r.head
  comma : ',' ∉ r.head
  free : brackets r.head = []

section Plain
variable {n : Node} {r : Row} {head : Text} {previous : Option Cell}

theorem lastGap_mark {t : Text} (h : r.cells ≠ []) : (mark t r).lastGap = r.lastGap := by
  simp [lastGap, mark, List.getLast?_eq_some_getLast h]

theorem shares_child_mark {t : Node} {w g : Text} : shares n head previous (child t w (mark g r)).cells =
    (t, share n head previous ⟨t, w, g ++ r.head⟩ r.cells.head?) :: shares n head (some ⟨t, w, g ++ r.head⟩) r.cells := rfl

end Plain

end Row

namespace Node
open Text Row Separator Gap

/-! ### What stands ahead of the parameters -/

section Tokens
variable {n : Node} {o i : Identity} {mods : List ModifierToken} {r : Row} {head : Text} {previous : Option Cell}

theorem modifierTokens_renewed (mods : List ModifierToken) :
    modifierTokens i mods = (modifierTokens o mods).map (renewed i) := by
  rw [modifierTokens, modifierTokens, List.map_filterMap]
  refine List.filterMap_congr fun x _ => ?_
  obtain ⟨⟨flag, span⟩, k⟩ := x
  cases span <;> rfl

theorem plain_modifierRow (k : Nat) (h : mods.all (fun m => m.span.isSome == m.flag.keyword?.isSome) = true)
    (hr : Row.Plain r) : Row.Plain (modifierRow o (mods.zipIdx k) r) := by
  induction mods generalizing k with
  | nil => exact hr
  | cons m mods ih =>
    rw [List.all_cons, Bool.and_eq_true, beq_iff_eq] at h
    rw [List.zipIdx_cons]
    rcases modifierRow_cons h.1 with ⟨s, w, -, -, hrow⟩ | ⟨-, -, hrow⟩
    · rw [hrow]
      exact ⟨List.cons_ne_nil _ _, List.not_mem_nil, List.not_mem_nil, rfl⟩
    · rw [hrow]
      exact ih (k + 1) h.2

/-- All that stands behind a modifier goes to the right. -/
theorem share_modifier (token : Node) {w : Text} (htoken : token.tag = .modifierToken) (hw : brackets w = [])
    (hr : Row.Plain r) (hprevious : ∀ c, brackets (lead n head previous c) = []) :
    brackets (share n head previous ⟨token, w, ' ' :: r.head⟩ r.cells.head?) = [] ∧
      ∀ c, brackets (lead n head (some ⟨token, w, ' ' :: r.head⟩) c) = [] := by
  have hsplit : ∀ right, splitBetween (' ' :: r.head) { parent := n, left := token, right } = ([], ' ' :: r.head) :=
    fun right => splitBetween_modifier htoken (by simpa using hr.slash) (by simpa using hr.comma)
  obtain ⟨next, rest, hcells⟩ := List.exists_cons_of_ne_nil hr.cells
  constructor
  · rw [share, brackets_append, brackets_append, hprevious, hw, hcells, List.head?_cons, trail, hsplit]
    rfl
  · intro c
    rw [lead, hsplit, brackets_cons rfl, hr.free]

/-- Modifiers bring no brackets along, and leave none to what follows them. -/
theorem shares_modifierRow (k : Nat) (h : mods.all (fun m => m.span.isSome == m.flag.keyword?.isSome) = true)
    (hr : Row.Plain r) (hprevious : ∀ c, brackets (lead n head previous c) = []) : ∃ front previous',
      shares n head previous (modifierRow o (mods.zipIdx k) r).cells = front ++ shares n head previous' r.cells ∧
      (∀ y ∈ front, ∃ q s flag, y.1 = mk (.part o q) s (.modifierToken flag)) ∧ bracketsOf front = [] ∧
      ∀ c, brackets (lead n head previous' c) = [] := by
  induction mods generalizing k previous with
  | nil => exact ⟨[], previous, rfl, by simp, rfl, hprevious⟩
  | cons m mods ih =>
    rw [List.all_cons, Bool.and_eq_true, beq_iff_eq] at h
    rw [List.zipIdx_cons]
    rcases modifierRow_cons h.1 with ⟨s, w, -, hw, hrow⟩ | ⟨-, -, hrow⟩
    · have hfree : brackets w.toList = [] := by
        cases hflag : m.flag <;> rw [hflag] at hw <;> cases hw <;> rfl
      obtain ⟨hshare, hlead⟩ := share_modifier (mk (.part o (.modifier k)) (some s) (.modifierToken m.flag))
        rfl hfree (plain_modifierRow (o := o) (k + 1) h.2 hr) hprevious
      obtain ⟨front, previous', hshares, htokens, hfront, hprevious'⟩ := ih (k + 1) h.2 hlead
      rw [hrow, shares_child_mark]
      refine ⟨_ :: front, previous', congrArg (List.cons _) hshares, List.forall_mem_cons.mpr ⟨⟨_, _, _, rfl⟩, htokens⟩, ?_,
        hprevious'⟩
      rw [bracketsOf_cons, hfront, List.append_nil]
      exact hshare
    · rw [hrow]
      exact ih (k + 1) h.2 hprevious

end Tokens

/-- Ahead of the first list with parameters. -/
theorem stands_of_hands {ls : List (List Bool)} {tail : Bool} {out x rest : Text} (hmore : Parens.hasMore ls = true)
    (h : Hands x rest (Parens.opensNext ls)) (hclose : close [] out = close [] rest)
    (hends : endsOpen out = endsOpen (x ++ rest)) : Stands out (Parens.leave tail ls 1) := by
  have hleave : Parens.leave tail ls 1 = if Parens.opensNext ls then ⟨1, true⟩ else ⟨0, false⟩ := by
    rw [Parens.leave, hmore]
    rfl
  constructor
  · rw [hclose, h.close, hleave]
    cases Parens.opensNext ls <;> rfl
  · rw [hends, h.ends, hleave]
    cases Parens.opensNext ls <;> rfl

theorem hasMore_kept {ls : List (List Node)} {keep : Node → Bool} (h : ls.flatten ≠ []) :
    Parens.hasMore (kept keep ls) = true := by
  obtain ⟨l, hl, hne⟩ : ∃ l ∈ ls, l ≠ [] := by
    by_contra hall
    refine h (List.flatten_eq_nil_iff.mpr fun l hl => ?_)
    by_contra hne
    exact hall ⟨l, hl, hne⟩
  refine List.any_eq_true.mpr ⟨l.map keep, List.mem_map_of_mem hl, ?_⟩
  simpa using hne

namespace Reduced
variable {n edited : Node} {keep : Node → Bool} {tparams : List Node} {vparamss : List (List Node)}
  {tpt rhs : Option Node} {lineBreak out : Text} {a b : Node}

/-- A token of the new method. -/
theorem token_free (h : Reduced n edited keep tparams vparamss tpt rhs)
    (hfresh : ∀ m ∈ tparams ++ vparamss.flatten, ∀ q, m.identity ≠ .part edited.identity q)
    (hb : ∃ q, b.identity = .part edited.identity q) : Free lineBreak (between edited a b) := by
  obtain ⟨mods, name, -, hedited⟩ := h.kind
  obtain ⟨q, hq⟩ := hb
  refine between_free hedited fun m hm => beq_false_of_ne (hq ▸ hfresh m ?_ q)
  rcases List.mem_append.mp hm with hm | hm
  · exact List.mem_append_left _ hm
  · obtain ⟨ps, hps, hm⟩ := List.mem_flatten.mp hm
    obtain ⟨qs, hqs, rfl⟩ := List.mem_map.mp hps
    exact List.mem_append_right _ (List.mem_flatten.mpr ⟨qs, hqs, (List.mem_filter.mp hm).1⟩)

/-- Type parameters behind the name. -/
theorem types_quiet {t : Node} {ts : List Node} {l : List (Node × Text)}
    (h : Reduced n edited keep (t :: ts) vparamss tpt rhs) (hl : l.map (·.1) = t :: ts) (hout : ['['] <:+ out) :
    brackets (Printer.assemble edited lineBreak (some a) out l) = brackets out ++ bracketsOf l := by
  obtain ⟨mods, name, -, hedited⟩ := h.kind
  have hids := h.ids
  rw [List.append_assoc, List.map_append, List.nodup_append] at hids
  refine Printer.brackets_assemble (fun y hy => between_first_type hedited ?_ hout) ?_
  · have hhead : (l.map (·.1)).head? = some y.1 := by rw [List.head?_map, show l.head? = some y from hy]; rfl
    rw [hl] at hhead
    rw [hhead]
    exact same_refl y.1
  · have hlater : ∀ a ∈ t :: ts, ∀ b ∈ ts, Free lineBreak (between edited a b) := fun a ha b hb =>
      between_types hedited (same_of_nodup_append (l := [t]) hids.1 (List.mem_cons_self ..) hb)
        ha (List.mem_cons_of_mem _ hb)
    have hpairs : (l.map (·.1)).Pairwise fun a b => Free lineBreak (between edited a b) := by
      rw [hl]
      exact List.pairwise_cons.mpr ⟨hlater t (List.mem_cons_self ..),
        List.pairwise_of_forall_mem_list fun a ha b hb => hlater a (List.mem_cons_of_mem _ ha) b hb⟩
    exact List.pairwise_map.mp hpairs

end Reduced

section Front
variable {n edited : Node} {keep : Node → Bool} {tparams : List Node} {vparamss : List (List Node)}
  {tpt rhs : Option Node} {lineBreak head out : Text} {previous : Option Cell} {tok : Node} {w : Text} {r : Row}

theorem lastGap_typeParamRow (h : r.cells ≠ []) : (typeParamRow tparams r).lastGap = r.lastGap := by
  cases tparams with
  | nil => rfl
  | cons t ts => exact lastGap_mark_list.trans (lastGap_mark h)

theorem lastGap_modifierRow {o : Identity} {mods : List ModifierToken} (k : Nat)
    (hmods : mods.all (fun m => m.span.isSome == m.flag.keyword?.isSome) = true) (h : Row.Plain r) :
    (modifierRow o (mods.zipIdx k) r).lastGap = r.lastGap := by
  induction mods generalizing k with
  | nil => rfl
  | cons m mods ih =>
    rw [List.all_cons, Bool.and_eq_true, beq_iff_eq] at hmods
    rw [List.zipIdx_cons]
    rcases modifierRow_cons hmods.1 with ⟨s, w, -, -, hrow⟩ | ⟨-, -, hrow⟩
    · rw [hrow, lastGap_child, lastGap_mark (plain_modifierRow (k + 1) hmods.2 h).cells, ih (k + 1) hmods.2]
    · rw [hrow, ih (k + 1) hmods.2]

/-- A type parameter as it is written. -/
def typeName (p : Node) : Node × Text := (p, (p.name?.getD "_").toList)

theorem neutral_typeName {p : Node} (h : p.isSimple = true) : brackets p.typeName.2 = [] := by
  rw [typeName]
  cases hname : p.name? with
  | none => rfl
  | some name => exact Kind.isSimple_name (isSimple_iff.mp h).1 (Kind.mem_names hname)

theorem splitBetween_types {right : Node} (htok : tok.tag ≠ .modifierToken) :
    splitBetween ['['] { parent := n, left := tok, right } = (['['], []) := by
  have hindex : Junction.index? { parent := n, left := tok, right } ['['] = none :=
    Junction.index?_absent_marks htok (by simp)
  rw [splitBetween, indexBetween, snap_plain (by decide), masked_plain (by decide), hindex]
  decide +kernel

theorem any_getLast?_typeName (t : Node) (ts : List Node) :
    ((t :: ts).map typeName).getLast?.any (fun _ => true) = true := by
  rw [List.map_cons, List.getLast?_cons]
  rfl

/-- Type parameters bring no bracket along but those behind the last of them. -/
theorem close_typeShares {t : Node} {ts : List Node} (hsimple : ∀ p ∈ t :: ts, p.isSimple = true) (behind : Text)
    (pending : List Char) :
    close pending (bracketsOf (listShares [] behind ((t :: ts).map typeName))) = close pending behind := by
  have hneutral : ∀ y ∈ (t :: ts).map typeName, Neutral y.2 :=
    List.forall_mem_map.mpr fun p hp => neutral_of_free (neutral_typeName (hsimple p hp))
  have hclose := close_kept (fun _ => true) [] behind hneutral pending
  rwa [List.filter_eq_self.mpr fun _ _ => rfl, any_getLast?_typeName, Bool.cond_true, brackets_nil, Bool.cond_self,
    List.nil_append, close_brackets] at hclose

theorem getLast?_typeShares (t : Node) (ts : List Node) (behind : Text) :
    ∃ y u, (listShares [] behind ((t :: ts).map typeName)).getLast? = some y ∧ y.2 = u ++ behind := by
  have hsome : ((t :: ts).map typeName).any (fun _ => true) = true := rfl
  obtain ⟨y, u, v, hy, -, htext⟩ := @getLast?_kept (fun _ => true) _ [] behind hsome
  rw [List.filter_eq_self.mpr fun _ _ => rfl] at hy
  rw [any_getLast?_typeName, Bool.cond_true] at htext
  exact ⟨y, u ++ v.2, hy, htext⟩

/-- The name of a method and its type parameters, as they are brought along. -/
theorem shares_name (h : Reduced n edited keep tparams vparamss tpt rhs) (hparams : vparamss.flatten ≠ [])
    (htok : tok.tag ≠ .modifierToken) (hw : brackets w = []) (hlead : ∀ c, brackets (lead n head previous c) = []) :
    ∃ c x rest t types,
      shares n head previous (child tok w (typeParamRow tparams (paramRow vparamss (resultRow tpt rhs)))).cells =
        (tok, t) :: types ++ shares n head (some c) (paramRow vparamss (resultRow tpt rhs)).cells ∧
      types.map (·.1) = tparams ∧ Ahead n c x 0 vparamss tpt rhs ∧
      Hands x rest (Parens.opensNext (kept keep vparamss)) ∧ (tparams ≠ [] → ['['] <:+ t) ∧
      close [] (brackets t ++ bracketsOf types) = close [] rest ∧
      ∃ y u, ((tok, t) :: types).getLast? = some y ∧ y.2 = u ++ (x ++ rest) := by
  have hmore : (Parens.hasMore (kept keep vparamss) || (tpt.isSome || rhs.isSome)) = true := by
    rw [hasMore_kept hparams]; rfl
  -- The parameters come behind the name, or else behind the last type parameter, which closes what the name has opened.
  cases tparams with
  | nil =>
    have hahead : Ahead n ⟨tok, w, (paramRow vparamss (resultRow tpt rhs)).head⟩ [] 0 vparamss tpt rhs :=
      ⟨.none, rfl, htok, fun hnil => absurd hnil hparams⟩
    have htrails := trails_params keep hahead
    rw [hmore] at htrails
    obtain ⟨rest, htrail, hhands⟩ := htrails
    have hshares : shares n head previous (child tok w (paramRow vparamss (resultRow tpt rhs))).cells =
        (tok, lead n head previous ⟨tok, w, (paramRow vparamss (resultRow tpt rhs)).head⟩ ++ w ++ ([] ++ rest)) ::
          shares n head (some ⟨tok, w, (paramRow vparamss (resultRow tpt rhs)).head⟩)
            (paramRow vparamss (resultRow tpt rhs)).cells := by
      rw [← htrail]
      rfl
    refine ⟨_, [], rest, _, [], hshares, rfl, hahead, hhands, fun hne => absurd rfl hne, ?_, _, _, rfl, rfl⟩
    rw [brackets_append, brackets_append, hlead, hw, bracketsOf_nil, List.append_nil]
    exact close_brackets
  | cons t ts =>
    obtain ⟨m, hm⟩ : ∃ m, (t :: ts).getLast? = some m := ⟨_, List.getLast?_cons⟩
    have hsimple : ∀ p ∈ t :: ts, p.isSimple = true := fun p hp =>
      h.simple p (List.mem_append_left _ (List.mem_append_left _ hp))
    have hlast : (ts.map typeName).getLast?.getD t.typeName = m.typeName := by
      rw [List.getLast?_cons] at hm
      rw [List.getLast?_map, ← Option.some.inj hm]
      cases ts.getLast? <;> rfl
    have hahead : Ahead n ⟨m, m.typeName.2, (mark [']'] (paramRow vparamss (resultRow tpt rhs))).head⟩ [']'] 0
        vparamss tpt rhs :=
      ⟨.types, rfl, tag_ne_of_isSimple (hsimple m (List.mem_of_getLast? hm)), fun hnil => absurd hnil hparams⟩
    have htrails := trails_params keep hahead
    rw [hmore] at htrails
    obtain ⟨rest, htrail, hhands⟩ := htrails
    have hshares := @shares_child_list n head previous (mark [']'] (paramRow vparamss (resultRow tpt rhs)))
      (ts.map typeName)
      tok w ['['] _ _ t.typeName fun right => splitBetween_types htok
    rw [hlast] at hshares
    have hbehind : trail n ⟨m.typeName.1, m.typeName.2, (mark [']'] (paramRow vparamss (resultRow tpt rhs))).head⟩
        (mark [']'] (paramRow vparamss (resultRow tpt rhs))).cells.head? = [']'] ++ rest := htrail
    rw [hbehind] at hshares
    obtain ⟨y, u, hy, htext⟩ := getLast?_typeShares t ts ([']'] ++ rest)
    refine ⟨_, [']'], rest, _, _, hshares, ?_, hahead, hhands, fun _ => ⟨_, rfl⟩, ?_, y, u, ?_, htext⟩
    · rw [map_fst_listShares]
      simp [typeName, Function.comp_def]
    · rw [brackets_append, brackets_append, hlead, hw]
      show close [']'] (bracketsOf (listShares [] ([']'] ++ rest) ((t :: ts).map typeName))) = _
      rw [close_typeShares hsimple, close_append]
      rfl
    · rw [List.getLast?_cons,
        show (listShares [] ([']'] ++ rest) (t.typeName :: ts.map typeName)).getLast? = some y from hy]
      rfl

theorem suffix_assemble {d : Char} {l : List (Node × Text)} {z : Node × Text} {previous : Option Node}
    (hd : isIndent d = false) (hz : [d] <:+ z.2) : [d] <:+ Printer.assemble edited lineBreak previous out (l ++ [z]) := by
  obtain ⟨v, hv⟩ := hz
  have hdrop : [d] <:+ z.2.dropWhile isIndent := by
    rw [← hv, List.dropWhile_append]
    split
    · rw [List.dropWhile_cons_of_neg (by simp [hd])]
    · exact List.suffix_append _ _
  rw [Printer.assemble_append]
  cases (l.getLast?.map (·.1)).or previous with
  | none => exact List.IsSuffix.trans ⟨v, hv⟩ (List.suffix_append _ _)
  | some left =>
    refine List.IsSuffix.trans ?_ (List.suffix_append _ _)
    rcases (glue_cases (Printer.assemble edited lineBreak previous out l) ((between edited left z.1).text lineBreak) z.2).2
      with hglue | hglue
    · rw [hglue]
      exact ⟨v, hv⟩
    · rw [hglue]
      exact hdrop

/-- What is written ahead of the parameters. -/
theorem stands_front (lineBreak : Text) {u t x rest : Text} {front types : List (Node × Text)}
    (h : Reduced n edited keep tparams vparamss tpt rhs)
    (hfresh : ∀ m ∈ tparams ++ vparamss.flatten, ∀ q, m.identity ≠ .part edited.identity q)
    (htokens : ∀ y ∈ front ++ [(tok, t)], ∃ q, (y.1.renewed edited.identity).identity = .part edited.identity q)
    (hu : brackets u = []) (hfront : bracketsOf front = []) (htypes : types.map (·.1) = tparams)
    (hparams : vparamss.flatten ≠ []) (hhands : Hands x rest (Parens.opensNext (kept keep vparamss)))
    (hbracket : tparams ≠ [] → ['['] <:+ t) (hclose : close [] (brackets t ++ bracketsOf types) = close [] rest)
    (hlast : ∃ y v, ((tok, t) :: types).getLast? = some y ∧ y.2 = v ++ (x ++ rest)) :
    Stands (Printer.assemble edited lineBreak none u
        ((front ++ (tok, t) :: types).map fun y => (y.1.renewed edited.identity, y.2)))
      (Parens.leave (tpt.isSome || rhs.isSome) (kept keep vparamss) 1) := by
  have hself : (types.map fun y => (y.1.renewed edited.identity, y.2)) = types := by
    refine (List.map_congr_left fun y hy => ?_).trans (List.map_id types)
    have hmem : y.1 ∈ tparams := htypes ▸ List.mem_map_of_mem hy
    rw [renewed_of_isSimple (h.simple y.1 (List.mem_append_left _ (List.mem_append_left _ hmem)))]
    rfl
  refine stands_of_hands (hasMore_kept hparams) hhands ?_ ?_
  · have htoken : brackets (Printer.assemble edited lineBreak none u
        ((front ++ [(tok, t)]).map fun y => (y.1.renewed edited.identity, y.2))) = brackets t := by
      have hquiet : Printer.Quiet edited lineBreak u
          ((front ++ [(tok, t)]).map fun y => (y.1.renewed edited.identity, y.2)) := by
        refine Printer.quiet_of_free (List.pairwise_of_forall_mem_list fun a _ b hb => ?_)
        obtain ⟨y, hy, rfl⟩ := List.mem_map.mp hb
        exact h.token_free hfresh (htokens y hy)
      have hsame : bracketsOf ((front ++ [(tok, t)]).map fun y => (y.1.renewed edited.identity, y.2)) =
          bracketsOf (front ++ [(tok, t)]) := List.flatMap_map ..
      rw [hquiet, hsame, bracketsOf_append, hu, hfront, bracketsOf_cons, bracketsOf_nil, List.append_nil]
      rfl
    rw [List.append_cons, List.map_append, hself, ← close_brackets, ← hclose, ← htoken, List.map_append, List.map_singleton,
      Printer.assemble_append, List.getLast?_concat]
    cases htypes' : tparams with
    | nil =>
      rw [htypes', List.map_eq_nil_iff] at htypes
      rw [htypes, bracketsOf_nil, List.append_nil]
      rfl
    | cons p ps =>
      subst htypes'
      refine congrArg (close []) (h.types_quiet htypes (suffix_assemble (by decide) (hbracket (List.cons_ne_nil _ _))))
  · obtain ⟨y, v, hy, htext⟩ := hlast
    have hne : y.2.trimStart ≠ [] := htext ▸ trimStart_append_ne_nil hhands.ne
    rw [Printer.endsOpen_assemble (z := (y.1.renewed edited.identity, y.2)) ?_ hne, htext, endsOpen_append hhands.ne]
    rw [List.getLast?_map, List.getLast?_append, hy]
    rfl

end Front

section Heading
variable {n edited : Node} {keep : Node → Bool} {tparams : List Node} {vparamss : List (List Node)}
  {tpt rhs : Option Node} {lineBreak : Text} {r : Row} {o : Identity} {mods : List ModifierToken}
  {place : Span} {w : String}

/-- A method up to its parameters. -/
theorem heading (lineBreak : Text) (h : Reduced n edited keep tparams vparamss tpt rhs) (hn : n.isDefinition = true)
    (hmods : mods.all (fun m => m.span.isSome == m.flag.keyword?.isSome) = true) (hw : brackets w.toList = [])
    (hparams : vparamss.flatten ≠ [])
    (hfresh : ∀ m ∈ tparams ++ vparamss.flatten, ∀ q, m.identity ≠ .part edited.identity q)
    (hr : r = modifierRow o mods.zipIdx (mark "def ".toList (child (mk (.part o .name) (some place) (.nameToken w)) w.toList
      (typeParamRow tparams (paramRow vparamss (resultRow tpt rhs)))))) :
    ∃ front c x left, shares n r.head none r.cells =
        front ++ shares n r.head (some c) (paramRow vparamss (resultRow tpt rhs)).cells ∧
      Ahead n c x 0 vparamss tpt rhs ∧
      r.lastGap = (mark (x ++ pairs 0) (paramRow vparamss (resultRow tpt rhs))).lastGap ∧
      (front.map fun y => (y.1.renewed edited.identity, y.2)).getLast?.map (·.1) = some left ∧
      (∀ m ∈ vparamss.flatten, m.same left = false) ∧
      Stands (Printer.assemble edited lineBreak none (splitLeading n r.head).1
          (front.map fun y => (y.1.renewed edited.identity, y.2)))
        (Parens.leave (tpt.isSome || rhs.isSome) (kept keep vparamss) 1) := by
  have hplain : Row.Plain (mark "def ".toList (child (mk (.part o .name) (some place) (.nameToken w)) w.toList
      (typeParamRow tparams (paramRow vparamss (resultRow tpt rhs))))) :=
    ⟨List.cons_ne_nil _ _, (by decide : '/' ∉ "def ".toList ++ []), (by decide : ',' ∉ "def ".toList ++ []), rfl⟩
  have hhead := plain_modifierRow (o := o) 0 hmods hplain
  have hleading : splitLeading n r.head = (r.head, []) :=
    splitLeading_definition hn (hr ▸ hhead.slash) (hr ▸ hhead.comma)
  have hlead : ∀ c, brackets (lead n r.head none c) = [] := fun c => by rw [lead, hleading, brackets_nil]
  obtain ⟨front, previous, hfront, hmodifiers, hfree, hprevious⟩ := shares_modifierRow (o := o) 0 hmods hplain hlead
  have htok : (mk (.part o .name) (some place) (.nameToken w)).tag ≠ .modifierToken := fun htag => by cases htag
  obtain ⟨c, x, rest, t, types, hname, htypes, hahead, hhands, hbracket, hclose, hlast⟩ :=
    shares_name h hparams htok hw hprevious
  have hshares : shares n r.head none r.cells = (front ++ (mk (.part o .name) (some place) (.nameToken w), t) :: types) ++
      shares n r.head (some c) (paramRow vparamss (resultRow tpt rhs)).cells := by
    rw [List.append_assoc, ← hname, hr]
    exact hr ▸ hfront
  have htokens : ∀ y ∈ front ++ [(mk (.part o .name) (some place) (.nameToken w), t)],
      ∃ q, (y.1.renewed edited.identity).identity = .part edited.identity q := by
    intro y hy
    rcases List.mem_append.mp hy with hy | hy
    · obtain ⟨q, s, flag, hnode⟩ := hmodifiers y hy
      exact ⟨q, by rw [hnode]; rfl⟩
    · rw [List.mem_singleton.mp hy]
      exact ⟨.name, rfl⟩
  have hcells : (paramRow vparamss (resultRow tpt rhs)).cells ≠ [] := by
    intro hnil
    have hnodes := nodes_paramRow (r := resultRow tpt rhs) vparamss
    rw [nodes, hnil] at hnodes
    exact hparams (List.append_eq_nil_iff.mp hnodes.symm).1
  have hstands := stands_front lineBreak h hfresh htokens (hr ▸ hhead.free) hfree htypes hparams hhands hbracket
    hclose hlast
  obtain ⟨y, v, hy, -⟩ := hlast
  refine ⟨_, c, x, y.1.renewed edited.identity, hshares, hahead, ?_, ?_, ?_, by rw [hleading]; exact hstands⟩
  · rw [hr, lastGap_modifierRow 0 hmods hplain, lastGap_mark_child, lastGap_typeParamRow hcells, lastGap_mark hcells]
  · rw [List.getLast?_map, List.getLast?_append, hy]
    rfl
  · intro m hm
    rcases List.mem_cons.mp (List.mem_of_getLast? hy) with rfl | hmem
    · exact beq_false_of_ne (hfresh m (List.mem_append_right _ hm) .name)
    · have hmem : y.1 ∈ tparams := htypes ▸ List.mem_map_of_mem hmem
      rw [renewed_of_isSimple (h.simple y.1 (List.mem_append_left _ (List.mem_append_left _ hmem)))]
      exact same_eq_false_comm.mp (h.types_other hm y.1 hmem)

end Heading

/-! ### Methods -/

section Method
variable {o i : Identity} {s : Option Span} {mods : List ModifierToken} {name : Name} {tparams : List Node}
  {vparamss : List (List Node)} {tpt rhs : Option Node} {keep : Node → Bool} {lineBreak : Text} {r : Row}

theorem reduced_thinned (keep : Node → Bool)
    (hsimple : (mk o s (.methodDef mods name tparams vparamss tpt rhs)).isSimple = true)
    (hids : ((mk o s (.methodDef mods name tparams vparamss tpt rhs)).children.map identity).Nodup)
    (hparams : vparamss.flatten.all (·.tag == .valDef) = true) :
    Reduced (mk o s (.methodDef mods name tparams vparamss tpt rhs))
      ((mk o s (.methodDef mods name tparams vparamss tpt rhs)).thinned i keep) keep tparams vparamss tpt rhs where
  kind := ⟨mods, name, rfl, rfl⟩
  simple m hm := by
    refine (isSimple_iff.mp hsimple).2 m ?_
    simpa [Node.kind, Kind.slots, or_assoc] using hm
  params m hm := by simpa using List.all_eq_true.mp hparams m hm
  ids := by
    refine hids.sublist (.map _ ?_)
    simp only [children, List.append_assoc]
    exact (List.sublist_append_right ..).trans (List.sublist_append_right ..)

theorem flatten_filter_ne (hdel : vparamss.map (·.filter keep) ≠ vparamss) :
    vparamss.flatten.filter keep ≠ vparamss.flatten := by
  intro hall
  refine hdel ((List.map_congr_left fun ps hps => List.filter_eq_self.mpr fun a ha => ?_).trans (List.map_id _))
  exact List.filter_eq_self.mp hall a (List.mem_flatten.mpr ⟨ps, hps, ha⟩)

theorem children_thinned {place : Span} {front : List (Node × Text)} (hspan : name.span = some place)
    (hsimple : ∀ p ∈ tparams, p.isSimple = true)
    (hfront : front.map (·.1) = modifierTokens o mods ++ nameTokens o .name name ++ tparams) :
    ((mk o s (.methodDef mods name tparams vparamss tpt rhs)).thinned i keep).children =
      front.map (fun y => y.1.renewed i) ++ (vparamss.flatten.filter keep ++ (tpt.toList ++ rhs.toList)) := by
  have htypes : tparams.map (renewed i) = tparams :=
    (List.map_congr_left fun p hp => renewed_of_isSimple (hsimple p hp)).trans (List.map_id _)
  have htokens : front.map (fun y => y.1.renewed i) = (front.map (·.1)).map (renewed i) := by rw [List.map_map]; rfl
  rw [htokens, hfront, List.map_append, List.map_append, htypes, ← modifierTokens_renewed, nameTokens, hspan]
  simp [thinned, Kind.thinned, kind, children, nameTokens, hspan, renewed, List.filter_flatten]

/-- The parentheses of a method are in balance exactly if the count of them says so. -/
theorem balancedIff_methodDef (hsimple : (mk o s (.methodDef mods name tparams vparamss tpt rhs)).isSimple = true)
    (hids : ((mk o s (.methodDef mods name tparams vparamss tpt rhs)).children.map identity).Nodup)
    (hfresh : ∀ m ∈ (mk o s (.methodDef mods name tparams vparamss tpt rhs)).children, ∀ q, m.identity ≠ .part i q)
    (hi : i ≠ o) (hdel : vparamss.map (·.filter keep) ≠ vparamss)
    (hrow : (mk o s (.methodDef mods name tparams vparamss tpt rhs)).row? = some r) :
    BalancedIff (mk o s (.methodDef mods name tparams vparamss tpt rhs)) r
      ((mk o s (.methodDef mods name tparams vparamss tpt rhs)).thinned i keep) keep lineBreak
      (Parens.settled (tpt.isSome || rhs.isSome) (kept keep vparamss)) := by
  have hnodes := children_of_row? hrow
  obtain ⟨place, hspan, hmods, hparams, hr⟩ := row?_methodDef hrow
  obtain ⟨dropped, hdropped, hkeep⟩ := exists_dropped (flatten_filter_ne hdel)
  have hne : vparamss.flatten ≠ [] := List.ne_nil_of_mem hdropped
  have h := reduced_thinned (i := i) keep hsimple hids hparams
  have hname : brackets name.text.toList = [] := Kind.isSimple_name (isSimple_iff.mp hsimple).1 (List.mem_cons_self ..)
  have hfresh' : ∀ m ∈ tparams ++ vparamss.flatten, ∀ q, m.identity ≠ .part i q := by
    intro m hm
    refine hfresh m ?_
    simp only [children, List.mem_append] at hm ⊢
    exact .inl (.inl (hm.imp_left .inr))
  obtain ⟨front, c, x, left, hshares, hahead, hgap, hleft, hother, hstands⟩ := heading lineBreak h rfl hmods hname hne
    hfresh' hr
  obtain ⟨middle, c', x', k', q, hmiddle, hfst, hahead', hgap', hq, hdepth⟩ :=
    Reduced.run r.head lineBreak h (show vparamss = [] ++ vparamss from rfl) hahead hother hstands
  have hall := hshares.trans ((congrArg (front ++ ·) hmiddle).trans (List.append_assoc ..).symm)
  refine ⟨front, middle, _, ⟨sameSlot_thinned i, beq_false_of_ne hi, hall, ?_⟩, ?_, fun _ => ?_⟩
  · have hfront : front.map (·.1) = modifierTokens o mods ++ nameTokens o .name name ++ tparams := by
      have hfirst := congrArg (List.map (·.1)) hall
      rw [map_fst_shares, ← nodes, ← hnodes, List.map_append, List.map_append, hfst, map_fst_shares, nodes_resultRow,
        children, List.append_assoc _ tpt.toList] at hfirst
      exact (List.append_cancel_right (List.append_cancel_right hfirst)).symm
    have hsimples : ∀ p ∈ tparams, p.isSimple = true := fun p hp =>
      h.simple p (List.mem_append_left _ (List.mem_append_left _ hp))
    rw [children_thinned hspan hsimples hfront, ← hfst, List.filter_map, List.map_append, map_fst_shares, nodes_resultRow]
    rfl
  · obtain ⟨y, hy, rfl⟩ := List.mem_map.mp (hfst ▸ hdropped)
    exact ⟨y, hy, hkeep⟩
  · obtain ⟨last, hlast⟩ : ∃ m, ((middle.filter (keep ·.1)).getLast?.map (·.1)).or (some left) = some m := by
      cases (middle.filter (keep ·.1)).getLast? <;> exact ⟨_, rfl⟩
    have hsimples : ∀ m ∈ tpt.toList ++ rhs.toList, m.isSimple = true := fun m hm =>
      h.simple m (List.mem_append_right _ hm)
    have hresult := balanced_result last r.head lineBreak hahead' hsimples (fun a b hb => h.result_free hb) hq
    rw [Row.remade, keptShares, Printer.assemble_append, Option.or_none, hleft, Printer.assemble_append, hlast, hgap, hgap']
    refine hresult.trans ?_
    rw [hdepth, Parens.settled, beq_iff_eq]
    rfl

end Method

end Node

end Reprint
