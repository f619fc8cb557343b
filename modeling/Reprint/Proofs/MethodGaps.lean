import Reprint.Proofs.Parens
/-!
The gaps of a method. Ahead of a list of parameters stand the bracket that closes what comes before, empty lists, and
the parenthesis that opens the list. What of that goes to the left and what to the right depends on the empty lists
(`trails_params`, `lead_params`). Main statement: a method is in balance exactly if its parameters have left open what
its end closes (`balanced_result`).
-/

namespace Reprint

namespace Gap
open Text
variable {x rest : Text}

theorem free_divide {t : Text} {i : Nat} (h : brackets t = []) :
    brackets (divide t i).1 = [] ∧ brackets (divide t i).2 = [] := by
  have hbefore : ∀ (t : Text) i c, c ∈ t.before i → c ∈ t := fun t i c hc =>
    before_append_after t i ▸ List.mem_append_left _ hc
  have hafter : ∀ (t : Text) i c, c ∈ t.after i → c ∈ t := fun t i c hc =>
    before_append_after t i ▸ List.mem_append_right _ hc
  have hremove : ∀ (t : Text) i c, c ∈ removeAt t i → c ∈ t := fun t i c hc =>
    (List.mem_append.mp hc).elim (hbefore t i c) (hafter t (i + 1) c)
  constructor
  · refine brackets_of_subset (fun c hc => hbefore t i c ?_) h
    simp only [divide, leftOf] at hc
    split at hc
    · exact hremove _ _ c hc
    · exact hc
  · refine brackets_of_subset (fun c hc => hafter t i c ?_) h
    simp only [divide, rightOf] at hc
    split at hc
    · exact hremove _ _ c hc
    · exact hc

theorem neutral_pairs (k : Nat) : Neutral (pairs k) := by
  induction k with
  | zero => exact neutral_nil
  | succ k ih =>
    rw [pairs_succ]
    exact (neutral_nil.enclosed (o := '(') rfl).append ih

/-- What closes the last list of parameters goes to the parent. -/
theorem splitTrailing_pairs (k : Nat) : splitTrailing (')' :: pairs k) = ([], ')' :: pairs k) := by
  have hslash := absent_gap (c := '/') (k := k) (y := []) .params (by decide)
  have hcomma := absent_gap (c := ',') (k := k) (y := []) .params (by decide)
  exact splitTrailing_code (by simpa using hslash) (by simpa using hcomma) rfl

/-- A text in two parts, of which the second one opens a parenthesis at its end, or closes all it opens. -/
structure Hands (x rest : Text) (opens : Bool) : Prop where
  ne : Text.trimStart (x ++ rest) ≠ []
  ends : endsOpen (x ++ rest) = opens
  close : ∀ pending, close pending rest = some (bif opens then ')' :: pending else pending)

theorem Hands.paren (x : Text) : Hands x ['('] true where
  ne := trimStart_append_ne_nil (by decide)
  ends := endsOpen_append (t := ['(']) (by decide)
  close _ := rfl

theorem Hands.neutral (hx : Closing x) (hne : Text.trimStart (x ++ rest) ≠ []) (hrest : Neutral rest) :
    Hands x rest false where
  ne := hne
  ends := by
    obtain ⟨p, hp⟩ : ∃ p, Text.close p x = some [] := by
      cases hx with
      | none => exact ⟨[], rfl⟩
      | types => exact ⟨[']'], rfl⟩
      | params => exact ⟨[')'], rfl⟩
    refine endsOpen_of_close (p := p) ?_
    rw [close_append, hp, Option.bind_some, hrest]
  close := hrest

/-- What trails a child ahead of the lists of parameters. -/
def Trails (x t : Text) (more opens : Bool) : Prop :=
  if more then ∃ rest, t = x ++ rest ∧ Hands x rest opens else t = []

end Gap

theorem Row.mark_mark (t u : Text) (r : Row) : mark t (mark u r) = mark (t ++ u) r := by
  simp [mark]

namespace Node
open Text Row Separator Gap

/-! ### Identities -/

section Identities
variable {a b : Node} {l l' : List Node}

theorem same_eq_false_comm : a.same b = false ↔ b.same a = false := by
  rw [same, same, Bool.beq_comm]

/-- Two lists without a common identity. -/
theorem same_of_nodup_append (h : ((l ++ l').map identity).Nodup) (ha : a ∈ l) (hb : b ∈ l') : a.same b = false := by
  rw [List.map_append, List.nodup_append] at h
  exact beq_false_of_ne (h.2.2 _ (List.mem_map_of_mem ha) _ (List.mem_map_of_mem hb))

theorem isIn_eq_false (h : ∀ m ∈ l, m.same a = false) : isIn l a = false :=
  List.any_eq_false.mpr fun m hm => by simp [h m hm]

theorem isIn_of_mem (h : a ∈ l) : isIn l a = true := List.any_eq_true.mpr ⟨a, h, same_refl a⟩

theorem fills_eq_false {o : Option Node} (h : ∀ m ∈ o, m.same a = false) : fills o a = false := by
  cases o with
  | none => rfl
  | some m => exact h m rfl

end Identities

/-! ### Separators in a method -/

section Between
variable {method a b : Node} {mods : List ModifierToken} {name : Name} {tparams ps : List Node}
  {vparamss : List (List Node)}
  {tpt rhs : Option Node} {lineBreak : Text}

/-- Only parameters have a separator with a bracket. -/
theorem between_free (hmethod : method.kind = .methodDef mods name tparams vparamss tpt rhs)
    (hb : ∀ m ∈ tparams ++ vparamss.flatten, m.same b = false) : Free lineBreak (between method a b) := by
  have hhead : fills tparams.head? b = false :=
    fills_eq_false fun m hm => hb m (List.mem_append_left _ (List.mem_of_head? hm))
  have hflat : isIn vparamss.flatten b = false := isIn_eq_false fun m hm => hb m (List.mem_append_right _ hm)
  rw [between, hmethod]
  simp only [hhead, hflat, Bool.false_eq_true, if_false]
  repeat' split
  all_goals rfl

theorem between_result (hmethod : method.kind = .methodDef mods name tparams vparamss tpt rhs)
    (hb : b ∈ tpt.toList ++ rhs.toList) : Free lineBreak (between method a b) := by
  rw [between, hmethod]
  dsimp only
  split
  · rfl
  · next hrhs =>
    have htpt : fills tpt b = true := by
      rcases List.mem_append.mp hb with hb | hb
      · rw [Option.mem_toList.mp hb]
        exact same_refl b
      · rw [Option.mem_toList.mp hb] at hrhs
        exact absurd (same_refl b) hrhs
    rw [if_pos htpt]
    rfl

theorem between_types (hmethod : method.kind = .methodDef mods name tparams vparamss tpt rhs)
    (hhead : fills tparams.head? b = false) (ha : a ∈ tparams) (hb : b ∈ tparams) :
    Free lineBreak (between method a b) := by
  rw [between, hmethod]
  simp only [hhead, isIn_of_mem ha, isIn_of_mem hb, Bool.false_eq_true, if_false, Bool.and_self, if_true]
  repeat' split
  all_goals rfl

/-- The separator ahead of the first type parameter need not be written behind the bracket. -/
theorem between_first_type {out : Text} (hmethod : method.kind = .methodDef mods name tparams vparamss tpt rhs)
    (hb : fills tparams.head? b = true) (hout : ['['] <:+ out) :
    Free lineBreak (between method a b) ∨ Present lineBreak out (between method a b) := by
  rw [between, hmethod]
  dsimp only
  split
  · exact .inl rfl
  · split
    · exact .inl rfl
    · exact .inr (present_token (by decide) rfl hout)

theorem between_params (hmethod : method.kind = .methodDef mods name tparams vparamss tpt rhs) (hps : ps ∈ vparamss)
    (ha : a ∈ ps) (hb : b ∈ ps) (htypes : ∀ m ∈ tparams, m.same b = false) : Free lineBreak (between method a b) := by
  have hhead : fills tparams.head? b = false := fills_eq_false fun m hm => htypes m (List.mem_of_head? hm)
  have hlist : (vparamss.any fun ps => isIn ps a && isIn ps b) = true :=
    List.any_eq_true.mpr ⟨ps, hps, by rw [isIn_of_mem ha, isIn_of_mem hb]; rfl⟩
  rw [between, hmethod]
  simp only [hhead, hlist, Bool.false_eq_true, if_false, if_true]
  repeat' split
  all_goals rfl

/-- Ahead of a parameter of another list the separator is a parenthesis. -/
theorem between_opening (hmethod : method.kind = .methodDef mods name tparams vparamss tpt rhs)
    (hb : b ∈ vparamss.flatten) (htypes : ∀ m ∈ tparams, m.same b = false)
    (hresult : ∀ m ∈ tpt.toList ++ rhs.toList, m.same b = false)
    (hother : ∀ ps ∈ vparamss, (∀ m ∈ ps, m.same a = false) ∨ ∀ m ∈ ps, m.same b = false) :
    between method a b = token "(" := by
  have hhead : fills tparams.head? b = false := fills_eq_false fun m hm => htypes m (List.mem_of_head? hm)
  have hrhs : fills rhs b = false :=
    fills_eq_false fun m hm => hresult m (List.mem_append_right _ (Option.mem_toList.mpr hm))
  have htpt : fills tpt b = false :=
    fills_eq_false fun m hm => hresult m (List.mem_append_left _ (Option.mem_toList.mpr hm))
  have hlists : (vparamss.any fun ps => isIn ps a && isIn ps b) = false := by
    refine List.any_eq_false.mpr fun ps hps => ?_
    rcases hother ps hps with h | h
    · rw [isIn_eq_false h]
      exact Bool.false_ne_true
    · rw [isIn_eq_false h, Bool.and_false]
      exact Bool.false_ne_true
  rw [between, hmethod]
  simp only [hrhs, htpt, hhead, isIn_eq_false htypes, hlists, isIn_of_mem hb, Bool.and_false, Bool.false_eq_true, if_false,
    if_true]

end Between

/-! ### Gaps in a method -/

theorem paramRow_cons (ps : List Node) (ls : List (List Node)) (r : Row) : paramRow (ps :: ls) r =
    .mark ['('] (.list (ps.map (written .param)) (.mark [')'] (paramRow ls r))) := rfl

/-- The type and the body of a method. -/
def resultRow (tpt rhs : Option Node) : Row := optionRow ": ".toList tpt (optionRow " = ".toList rhs .nil)

/-- Which parameters are kept. -/
def kept (keep : Node → Bool) (ls : List (List Node)) : List (List Bool) := ls.map (·.map keep)

/-- Ahead of the lists `ls` of a method a gap begins, which has `k` empty lists first. -/
structure Ahead (n : Node) (c : Cell) (x : Text) (k : Nat) (ls : List (List Node)) (tpt rhs : Option Node) : Prop where
  closing : Closing x
  gap : c.gap = x ++ pairs k ++ (paramRow ls (resultRow tpt rhs)).head
  tag : c.node.tag ≠ .modifierToken
  last : ls.flatten = [] → x = [')'] ∧
    ∃ mods name tparams vparamss, n.kind = .methodDef mods name tparams vparamss tpt rhs ∧
    vparamss.flatten.getLast? = some c.node

section Gaps
variable {n : Node} {c : Cell} {x : Text} {k : Nat} {ls : List (List Node)} {tpt rhs : Option Node} {keep : Node → Bool}
  {head : Text}

theorem Ahead.skip (h : Ahead n c x k ([] :: ls) tpt rhs) : Ahead n c x (k + 1) ls tpt rhs where
  closing := h.closing
  gap := by
    rw [h.gap, paramRow_cons, pairs_concat]
    simp [mark, Row.list]
  tag := h.tag
  last hls := h.last hls

/-- Between the last parameter and the body of a method that has no type. -/
theorem Ahead.split_body {b : Node} (h : Ahead n c x k [] none (some b)) :
    ∃ (l m : Nat) (u v : Text), u.allBlank = true ∧ (v = ['=', ' '] ∨ v = [' ', '=', ' ']) ∧
      splitBetween c.gap { parent := n, left := c.node, right := b } = ([')'] ++ pairs l ++ u, pairs m ++ v) := by
  obtain ⟨rfl, mods, name, tparams, vparamss, hkind, hlast⟩ := h.last rfl
  have hcases : Junction.opensCases { parent := n, left := c.node, right := b } = false := by
    rw [Junction.opensCases, hkind]
  have hends : Junction.endsParameters { parent := n, left := c.node, right := b } = true := by
    rw [Junction.endsParameters, hkind]
    simp [hlast, same_refl]
  rw [h.gap]
  exact splitBetween_body h.tag hcases hends

/-- Behind the last parameter. -/
theorem trails_result (h : Ahead n c x k [] tpt rhs) :
    Trails x (trail n c (resultRow tpt rhs).cells.head?) (tpt.isSome || rhs.isSome) false := by
  obtain ⟨rfl, -⟩ := h.last rfl
  have hne : ∀ rest : Text, Text.trimStart ([')'] ++ rest) ≠ [] := fun rest => List.cons_ne_nil ')' rest
  cases tpt with
  | some t =>
    refine ⟨pairs k ++ [':', ' '], ?_, .neutral .params (hne _) ((neutral_pairs k).append (neutral_of_free rfl))⟩
    show (splitBetween c.gap _).1 = _
    rw [h.gap, ← List.append_assoc]
    exact congrArg Prod.fst (splitBetween_type .params h.tag)
  | none =>
    cases rhs with
    | some b =>
      obtain ⟨l, m, u, v, hu, -, hsplit⟩ := h.split_body
      refine ⟨pairs l ++ u, ?_,
        .neutral .params (hne _) ((neutral_pairs l).append (neutral_of_free (brackets_of_allBlank hu)))⟩
      show (splitBetween c.gap _).1 = _
      rw [hsplit, List.append_assoc]
    | none =>
      show (splitTrailing c.gap).1 = []
      have hgap : c.gap = ')' :: pairs k := h.gap.trans (List.append_nil _)
      rw [hgap, splitTrailing_pairs]

/-- Ahead of lists of parameters. -/
theorem trails_params (keep : Node → Bool) (h : Ahead n c x k ls tpt rhs) :
    Trails x (trail n c (paramRow ls (resultRow tpt rhs)).cells.head?)
      (Parens.hasMore (kept keep ls) || (tpt.isSome || rhs.isSome)) (k == 0 && Parens.opensNext (kept keep ls)) := by
  induction ls generalizing k with
  | nil =>
    have hopens : (k == 0 && Parens.opensNext (kept keep [])) = false := Bool.and_false _
    rw [hopens]
    exact trails_result h
  | cons ps ls ih =>
    cases ps with
    | nil =>
      have hopens : (k == 0 && Parens.opensNext (kept keep ([] :: ls))) = (k + 1 == 0 && Parens.opensNext (kept keep ls)) :=
        (Bool.and_false _).trans rfl
      rw [hopens]
      exact ih h.skip
    | cons p ps =>
      obtain ⟨t, gap, cells, hcells⟩ : ∃ t gap cells,
          (paramRow ((p :: ps) :: ls) (resultRow tpt rhs)).cells = ⟨p, t, gap⟩ :: cells := by
        rw [paramRow_cons]
        cases ps <;> exact ⟨_, _, _, rfl⟩
      have hgap : c.gap = x ++ pairs k ++ ['('] := by
        rw [h.gap, paramRow_cons]
        cases ps <;> rfl
      rw [hcells]
      show ∃ rest, (splitBetween c.gap _).1 = x ++ rest ∧ _
      rw [hgap]
      cases k with
      | zero =>
        refine ⟨['('], ?_, .paren x⟩
        rw [pairs, List.replicate_zero, List.flatten_nil, List.append_nil, splitBetween_paren h.closing h.tag]
      | succ k =>
        refine ⟨['(', ')'], congrArg Prod.fst (splitBetween_pair h.closing h.tag), .neutral h.closing ?_ (neutral_pairs 1)⟩
        exact trimStart_append_ne_nil (by decide)

/-- The shares of a list of parameters, and of what follows it. -/
theorem shares_params {p m : Node} {ps : List Node} {r : Row} (hm : (p :: ps).getLast? = some m) :
    shares n head (some c) (paramRow ((p :: ps) :: ls) r).cells =
      listShares (lead n head (some c) ⟨p, (p.written .param).2, []⟩)
        (trail n ⟨m, (m.written .param).2, (mark [')'] (paramRow ls r)).head⟩ (paramRow ls r).cells.head?)
        ((p :: ps).map (written .param)) ++
      shares n head (some ⟨m, (m.written .param).2, (mark [')'] (paramRow ls r)).head⟩) (paramRow ls r).cells := by
  have hlast : (ps.map (written .param)).getLast?.getD (p.written .param) = m.written .param := by
    rw [List.getLast?_cons] at hm
    rw [List.getLast?_map, ← Option.some.inj hm]
    cases ps.getLast? <;> rfl
  have hshares := @shares_list n head (some c) (mark [')'] (paramRow ls r)) (p.written .param) (ps.map (written .param))
  rw [hlast] at hshares
  exact hshares

/-- What leads the first parameter of a list. -/
theorem lead_params {p : Node} {ps : List Node} (h : Ahead n c x k ((p :: ps) :: ls) tpt rhs) {t gap : Text} :
    lead n head (some c) ⟨p, t, gap⟩ = bif k == 0 then [] else pairs (k - 1) ++ ['('] := by
  have hgap : c.gap = x ++ pairs k ++ ['('] := by
    rw [h.gap, paramRow_cons]
    cases ps <;> rfl
  rw [lead, hgap]
  cases k with
  | zero => rw [pairs, List.replicate_zero, List.flatten_nil, List.append_nil, splitBetween_paren h.closing h.tag]; rfl
  | succ k => rw [splitBetween_pair h.closing h.tag]; rfl

end Gaps

/-! ### The texts of parameters and of the result -/

/-- A parameter begins with its name. -/
theorem starts_written {p : Node} (h : p.isSimple = true) (htag : p.tag = .valDef) : Starts (p.written .param).2 := by
  obtain ⟨o, s, k⟩ := p
  cases k with
  | valDef mods name tpt rhs =>
    obtain ⟨hkind, hslots⟩ := isSimple_iff.mp h
    have htpt := option_mapM_doc (o := tpt) (fun t ht => hslots t (by simp_all [kind, Kind.slots])) .plain
    have hrhs := option_mapM_doc (o := rhs) (fun t ht => hslots t (by simp_all [kind, Kind.slots])) .plain
    have hdoc : (mk o s (.valDef mods name tpt rhs)).doc .param =
        .ok (Doc.text name.text ++ Doc.optional ": " (tpt.map (code .plain)) ++
          Doc.optional " = " (rhs.map (code .plain))) := by
      rw [doc.eq_def]
      simp only [option_mapM_attach, htpt, hrhs]
      rfl
    have hname : isSimpleName name.text = true := by
      simp only [Kind.isSimple, Bool.and_eq_true, List.all_eq_true] at hkind
      exact hkind.1.2 _ (List.mem_cons_self ..)
    simp only [isSimpleName, Bool.and_eq_true, Bool.not_eq_true', List.all_eq_true] at hname
    obtain ⟨c, t, ht⟩ := List.exists_cons_of_ne_nil (List.isEmpty_eq_false_iff.mp hname.1)
    obtain ⟨hblank, hbracket⟩ := hname.2 c (ht ▸ List.mem_cons_self ..)
    have hstarts : Starts name.text.toList := ⟨c, t, ht, hblank, fun hc => by rw [hc] at hbracket; cases hbracket⟩
    have htext : ((mk o s (.valDef mods name tpt rhs)).written .param).2 = name.text.toList ++
        ((Doc.optional ": " (tpt.map (code .plain))).render {} ++
          (Doc.optional " = " (rhs.map (code .plain))).render {}) := by
      simp [written, code, hdoc, Except.toOption]
    rw [htext]
    exact hstarts.append
  | _ => cases htag

section Result
variable {n edited left : Node} {c : Cell} {x : Text} {k : Nat} {tpt rhs : Option Node}
  {head lineBreak out : Text} {p : Parens}

theorem nodes_resultRow : (resultRow tpt rhs).cells.map (·.node) = tpt.toList ++ rhs.toList := by
  cases tpt <;> cases rhs <;> rfl

/-- The type and the body of a method bring no bracket along that they do not close. -/
theorem neutral_shares_result (h : Ahead n c x k [] tpt rhs)
    (hsimple : ∀ m ∈ tpt.toList ++ rhs.toList, m.isSimple = true) :
    ∀ y ∈ shares n head (some c) (resultRow tpt rhs).cells, Neutral y.2 := by
  obtain ⟨rfl, -⟩ := h.last rfl
  have hend : splitTrailing [] = ([], []) := by decide +kernel
  cases tpt with
  | some t =>
    have ht := neutral_written (hsimple t (List.mem_cons_self ..)) .plain
    have hlead : ∀ cell : Cell, lead n head (some c) cell = [] := by
      intro cell
      rw [lead, h.gap]
      exact congrArg Prod.snd (splitBetween_type .params h.tag)
    cases rhs with
    | none =>
      show ∀ y ∈ [(t, lead n head (some c) _ ++ (t.written .plain).2 ++ (splitTrailing []).1)], Neutral y.2
      rw [hend, hlead]
      simpa using ht
    | some b =>
      have hb := neutral_written (hsimple b (List.mem_cons_of_mem _ (List.mem_cons_self ..))) .plain
      have hfree := free_divide (t := " = ".toList)
        (i := indexBetween " = ".toList { parent := n, left := t, right := b }) rfl
      show ∀ y ∈ [(t, lead n head (some c) _ ++ (t.written .plain).2 ++ (divide " = ".toList _).1),
        (b, (divide " = ".toList _).2 ++ (b.written .plain).2 ++ (splitTrailing []).1)], Neutral y.2
      rw [hend, hlead]
      simp only [List.forall_mem_cons, List.nil_append, List.append_nil]
      exact ⟨ht.append (neutral_of_free hfree.1), (neutral_of_free hfree.2).append hb, by simp⟩
  | none =>
    cases rhs with
    | none => simp [resultRow, optionRow, nil, shares]
    | some b =>
      have hb := neutral_written (hsimple b (List.mem_cons_self ..)) .plain
      obtain ⟨l, m, u, v, -, hv, hsplit⟩ := h.split_body
      have hlead : ∀ t gap, lead n head (some c) ⟨b, t, gap⟩ = pairs m ++ v := by
        intro t gap
        rw [lead, hsplit]
      have hfree : brackets v = [] := by rcases hv with rfl | rfl <;> rfl
      show ∀ y ∈ [(b, lead n head (some c) _ ++ (b.written .plain).2 ++ (splitTrailing []).1)], Neutral y.2
      rw [hend, hlead, List.append_nil]
      exact List.forall_mem_singleton.mpr (((neutral_pairs m).append (neutral_of_free hfree)).append hb)

/-- A method is in balance if its parameters have left open what its end closes. -/
theorem balanced_result (left : Node) (head lineBreak : Text) (h : Ahead n c x k [] tpt rhs)
    (hsimple : ∀ m ∈ tpt.toList ++ rhs.toList, m.isSimple = true)
    (hfree : ∀ a, ∀ b ∈ tpt.toList ++ rhs.toList, Free lineBreak (between edited a b)) (hstands : Stands out p) :
    Balanced (Printer.assemble edited lineBreak (some left) out (shares n head (some c) (resultRow tpt rhs).cells) ++
      (splitTrailing (mark (x ++ pairs k) (resultRow tpt rhs)).lastGap).2) ↔
        p.depth = if tpt.isSome || rhs.isSome then 0 else 1 := by
  obtain ⟨rfl, -⟩ := h.last rfl
  have hmem : ∀ y ∈ shares n head (some c) (resultRow tpt rhs).cells, y.1 ∈ tpt.toList ++ rhs.toList := fun y hy => by
    rw [← nodes_resultRow, ← map_fst_shares]
    exact List.mem_map_of_mem hy
  have hneutral : Neutral (bracketsOf (shares n head (some c) (resultRow tpt rhs).cells)) :=
    neutral_bracketsOf (neutral_shares_result h hsimple)
  rw [Text.Balanced, close_append, ← close_brackets, Printer.brackets_assemble
    (fun y hy => .inl (hfree _ _ (hmem y (List.mem_of_head? hy))))
    (List.pairwise_of_forall_mem_list fun a _ b hb => hfree _ _ (hmem b hb)), close_append, close_brackets, hstands.waits,
    Option.bind_some, hneutral, Option.bind_some]
  cases htail : tpt.isSome || rhs.isSome with
  | true =>
    have hend : (splitTrailing (mark ([')'] ++ pairs k) (resultRow tpt rhs)).lastGap).2 = [] := by
      have hgap : (mark ([')'] ++ pairs k) (resultRow tpt rhs)).lastGap = [] := by
        cases tpt <;> cases rhs <;> first | rfl | cases htail
      rw [hgap]
      decide +kernel
    rw [hend]
    simp
  | false =>
    obtain ⟨htpt, hrhs⟩ := Bool.or_eq_false_iff.mp htail
    rw [Option.isSome_eq_false_iff, Option.isNone_iff_eq_none] at htpt hrhs
    subst htpt hrhs
    have hgap : (mark ([')'] ++ pairs k) (resultRow none none)).lastGap = ')' :: pairs k := lastGap_mark_nil
    rw [hgap, splitTrailing_pairs, close_cons]
    cases p.depth with
    | zero => simp [await, closer?, isBracket, bracketChars]
    | succ d =>
      have hstep : await (List.replicate (d + 1) ')') ')' = some (List.replicate d ')') := rfl
      rw [hstep, Option.bind_some, neutral_pairs k]
      simp

end Result

end Node

end Reprint
