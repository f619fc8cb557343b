import Reprint.Proofs.MethodGaps
/-!
Lists of parameters of which some have been lost. Main statements: what is kept of one list leads from one standing of
the text to the next one in the count of parentheses (`Reduced.step`), and so do all lists of a method (`Reduced.run`).
-/

namespace Reprint.Node
open Text Row Separator Gap

section Lists
variable {ls : List (List Bool)} {tail : Bool} {depth : Nat} {t : Text}

theorem hasMore_of_opensNext (h : Parens.opensNext ls = true) : Parens.hasMore ls = true := by
  unfold Parens.opensNext at h
  split at h
  · rfl
  · cases h

/-- What the last parameter of a list brings along. -/
theorem close_leave (hpos : 0 < depth) (h : Trails [')'] t (Parens.hasMore ls || tail) (Parens.opensNext ls)) :
    close (List.replicate depth ')') (brackets t) = some (List.replicate (Parens.leave tail ls depth).depth ')') ∧
      (t = [] ∧ (Parens.leave tail ls depth).waiting = false ∨
        t.trimStart ≠ [] ∧ endsOpen t = (Parens.leave tail ls depth).waiting) := by
  cases hmore : Parens.hasMore ls || tail with
  | false =>
    have hopens : Parens.opensNext ls = false := by
      by_contra hopens
      rw [hasMore_of_opensNext (by simpa using hopens)] at hmore
      cases hmore
    rw [hmore] at h
    have hleave : Parens.leave tail ls depth = ⟨depth, false⟩ := by
      rw [Parens.leave, hopens, hmore]
      rfl
    rw [hleave, show t = [] from h]
    exact ⟨rfl, .inl ⟨rfl, rfl⟩⟩
  | true =>
    rw [hmore] at h
    obtain ⟨rest, rfl, hne, hends, hclose⟩ := h
    obtain ⟨d, rfl⟩ : ∃ d, depth = d + 1 := ⟨depth - 1, by omega⟩
    have hstep : close (List.replicate (d + 1) ')') [')'] = some (List.replicate d ')') := rfl
    rw [close_brackets, close_append, hstep, Option.bind_some, hclose]
    cases hopens : Parens.opensNext ls with
    | true =>
      have hleave : Parens.leave tail ls (d + 1) = ⟨d + 1, true⟩ := by
        rw [Parens.leave, hopens]
        rfl
      rw [hleave]
      exact ⟨rfl, .inr ⟨hne, hends.trans hopens⟩⟩
    | false =>
      have hleave : Parens.leave tail ls (d + 1) = ⟨d, false⟩ := by
        rw [Parens.leave, hopens, hmore]
        rfl
      rw [hleave]
      exact ⟨rfl, .inr ⟨hne, hends.trans hopens⟩⟩

end Lists

/-- A method with what is kept of its parameters. -/
structure Reduced (n edited : Node) (keep : Node → Bool) (tparams : List Node) (vparamss : List (List Node))
    (tpt rhs : Option Node) : Prop where
  kind : ∃ mods name, n.kind = .methodDef mods name tparams vparamss tpt rhs ∧
    edited.kind = .methodDef mods name tparams (vparamss.map (·.filter keep)) tpt rhs
  simple : ∀ m ∈ tparams ++ vparamss.flatten ++ (tpt.toList ++ rhs.toList), m.isSimple = true
  params : ∀ m ∈ vparamss.flatten, m.tag = .valDef
  ids : ((tparams ++ vparamss.flatten ++ (tpt.toList ++ rhs.toList)).map identity).Nodup

namespace Reduced
variable {n edited left : Node} {keep : Node → Bool} {tparams : List Node} {vparamss pre ls : List (List Node)}
  {tpt rhs : Option Node} {c : Cell} {x head lineBreak out : Text} {k : Nat} {p : Parens} {ps : List Node} {a b : Node}

theorem result_free (h : Reduced n edited keep tparams vparamss tpt rhs) (hb : b ∈ tpt.toList ++ rhs.toList) :
    Free lineBreak (between edited a b) := by
  obtain ⟨mods, name, -, hedited⟩ := h.kind
  exact between_result hedited hb

theorem types_other (h : Reduced n edited keep tparams vparamss tpt rhs) (hb : b ∈ vparamss.flatten) :
    ∀ m ∈ tparams, m.same b = false := by
  have hids := h.ids
  rw [List.map_append, List.nodup_append] at hids
  exact fun m hm => same_of_nodup_append hids.1 hm hb

theorem list_free (h : Reduced n edited keep tparams vparamss tpt rhs) (hps : ps ∈ vparamss) (ha : a ∈ ps.filter keep)
    (hb : b ∈ ps.filter keep) : Free lineBreak (between edited a b) := by
  obtain ⟨mods, name, -, hedited⟩ := h.kind
  exact between_params hedited (List.mem_map_of_mem hps) ha hb
    (h.types_other (List.mem_flatten.mpr ⟨ps, hps, (List.mem_filter.mp hb).1⟩))

/-- Behind something that is not in the list, nor in a later one. -/
theorem opening (h : Reduced n edited keep tparams vparamss tpt rhs) (hsplit : vparamss = pre ++ ps :: ls)
    (hleft : ∀ m ∈ (ps :: ls).flatten, m.same left = false) (hb : b ∈ ps) (hkeep : keep b = true) :
    between edited left b = token "(" := by
  obtain ⟨mods, name, -, hedited⟩ := h.kind
  have hps : ps ∈ vparamss := hsplit ▸ List.mem_append_right _ (List.mem_cons_self ..)
  have hmem : b ∈ vparamss.flatten := List.mem_flatten.mpr ⟨ps, hps, hb⟩
  refine between_opening hedited ?_ (h.types_other hmem) (fun m hm => ?_) ?_
  · exact List.mem_flatten.mpr ⟨_, List.mem_map_of_mem hps, List.mem_filter.mpr ⟨hb, hkeep⟩⟩
  · exact same_eq_false_comm.mp (same_of_nodup_append h.ids (List.mem_append_right _ hmem) hm)
  · refine List.forall_mem_map.mpr fun qs hqs => ?_
    rw [hsplit] at hqs
    rcases List.mem_append.mp hqs with hqs | hqs
    · refine .inr fun m hm => ?_
      have hids := h.ids
      rw [List.map_append, List.nodup_append, List.map_append, List.nodup_append, hsplit, List.flatten_append] at hids
      exact same_of_nodup_append hids.1.2.1 (List.mem_flatten.mpr ⟨qs, hqs, (List.mem_filter.mp hm).1⟩) (by simp [hb])
    · exact .inl fun m hm => hleft m (List.mem_flatten.mpr ⟨qs, hqs, (List.mem_filter.mp hm).1⟩)

/-- Behind the last parameter of a list. -/
theorem ahead {q : Node} {t gap : Text} (h : Reduced n edited keep tparams vparamss tpt rhs)
    (hsplit : vparamss = pre ++ ps :: ls)
    (hq : ps.getLast? = some q) (hgap : gap = (mark [')'] (paramRow ls (resultRow tpt rhs))).head) :
    Ahead n ⟨q, t, gap⟩ [')'] 0 ls tpt rhs where
  closing := .params
  gap := hgap
  tag := by
    refine tag_ne_of_isSimple (h.simple q ?_)
    rw [hsplit]
    simp [List.mem_of_getLast? hq]
  last hls := by
    obtain ⟨mods, name, hn, -⟩ := h.kind
    refine ⟨rfl, mods, name, tparams, vparamss, hn, ?_⟩
    rw [hsplit, List.flatten_append, List.flatten_cons, hls, List.append_nil, List.getLast?_append, hq]
    rfl

/-- One list of parameters, of which some are kept. -/
theorem stands_list {q : Node} {qs : List Node} (head lineBreak : Text) (h : Reduced n edited keep tparams vparamss tpt rhs)
    (hsplit : vparamss = pre ++ (q :: qs) :: ls) (hahead : Ahead n c x k ((q :: qs) :: ls) tpt rhs)
    (hleft : ∀ m ∈ ((q :: qs) :: ls).flatten, m.same left = false) (hstands : Stands out p)
    (hany : (q :: qs).any keep = true) {last : Cell} (hlast : Ahead n last [')'] 0 ls tpt rhs) :
    Stands (Printer.assemble edited lineBreak (some left) out ((listShares
        (lead n head (some c) ⟨q, (q.written .param).2, []⟩)
        (trail n last (paramRow ls (resultRow tpt rhs)).cells.head?) ((q :: qs).map (written .param))).filter (keep ·.1)))
      (if (q :: qs).getLast?.any keep then
        Parens.leave (tpt.isSome || rhs.isSome) (kept keep ls) (p.enter (k != 0 && keep q))
      else ⟨p.enter (k != 0 && keep q), false⟩) := by
  have hps : (q :: qs) ∈ vparamss := hsplit ▸ List.mem_append_right _ (List.mem_cons_self ..)
  have hmem : ∀ m ∈ q :: qs, m ∈ vparamss.flatten := fun m hm => List.mem_flatten.mpr ⟨_, hps, hm⟩
  have hsimple : ∀ m ∈ q :: qs, m.isSimple = true := fun m hm =>
    h.simple m (List.mem_append_left _ (List.mem_append_right _ (hmem m hm)))
  have hstarts : ∀ w ∈ (q :: qs).map (written .param), Starts w.2 :=
    List.forall_mem_map.mpr fun m hm => starts_written (hsimple m hm) (h.params m (hmem m hm))
  have hlists : ((q :: qs).map (written .param)).getLast?.any (keep ·.1) = (q :: qs).getLast?.any keep := by
    rw [List.getLast?_map, Option.any_map]
    rfl
  rw [← hlists]
  have hneutral : ∀ w ∈ (q :: qs).map (written .param), Neutral w.2 :=
    List.forall_mem_map.mpr fun m hm => neutral_written (hsimple m hm) _
  have hfirst : ∀ w ∈ (q :: qs).map (written .param), keep w.1 = true → between edited left w.1 = token "(" :=
    List.forall_mem_map.mpr fun m hm hkeep => h.opening hsplit hleft hm hkeep
  have hrest : ((((q :: qs).map (written .param)).map (·.1)).filter keep).Pairwise fun a b =>
      Free lineBreak (between edited a b) := by
    have hnodes : ((q :: qs).map (written .param)).map (·.1) = q :: qs := by simp [Function.comp_def]
    rw [hnodes]
    exact List.pairwise_of_forall_mem_list fun a ha b hb => h.list_free hps ha hb
  refine hstands.list hneutral hstarts ?_ hfirst hrest (by simpa [Function.comp_def] using hany)
    fun _ => close_leave hstands.enter_pos (trails_params keep hlast)
  rw [lead_params hahead]
  cases k with
  | zero => exact ⟨(hstarts (q.written .param) (List.mem_cons_self ..)).beginsOpen, fun pending => rfl⟩
  | succ k =>
    constructor
    · rw [Nat.add_sub_cancel]
      cases k with
      | zero => rfl
      | succ k => rw [pairs_succ]; rfl
    · intro pending
      show close pending (brackets (pairs k ++ ['('])) = _
      rw [close_brackets, close_append, neutral_pairs k]
      rfl

theorem later (h : Reduced n edited keep tparams vparamss tpt rhs) (hsplit : vparamss = pre ++ ps :: ls) (hb : b ∈ ps) :
    ∀ m ∈ ls.flatten, m.same b = false := by
  intro m hm
  have hids := h.ids
  rw [List.map_append, List.nodup_append, List.map_append, List.nodup_append, hsplit, List.append_cons,
    List.flatten_append] at hids
  exact same_eq_false_comm.mp (same_of_nodup_append hids.1.2.1 (by simp [hb]) hm)

/-- One list of parameters leads from one standing of the text to the next one in the count. -/
theorem step {q : Node} {qs : List Node} (lineBreak : Text) (h : Reduced n edited keep tparams vparamss tpt rhs)
    (hsplit : vparamss = pre ++ (q :: qs) :: ls) (hahead : Ahead n c x k ((q :: qs) :: ls) tpt rhs)
    (hleft : ∀ m ∈ ((q :: qs) :: ls).flatten, m.same left = false) (hstands : Stands out p) {last : Cell}
    (hlast : Ahead n last [')'] 0 ls tpt rhs) {l : List (Node × Text)}
    (hl : l = listShares (lead n head (some c) ⟨q, (q.written .param).2, []⟩)
        (trail n last (paramRow ls (resultRow tpt rhs)).cells.head?) ((q :: qs).map (written .param))) :
    ∃ left' p', ((l.filter (keep ·.1)).getLast?.map (·.1)).or (some left) = some left' ∧
      (∀ m ∈ ls.flatten, m.same left' = false) ∧
      Stands (Printer.assemble edited lineBreak (some left) out (l.filter (keep ·.1))) p' ∧
      Parens.left (tpt.isSome || rhs.isSome) (kept keep ((q :: qs) :: ls)) (k != 0) p =
        Parens.left (tpt.isSome || rhs.isSome) (kept keep ls) false p' := by
  have hcount : (keep q :: qs.map keep).any id = (q :: qs).any keep := List.any_map (l := q :: qs)
  have hend : (keep q :: qs.map keep).getLast?.any id = (q :: qs).getLast?.any keep := by
    rw [← List.map_cons, List.getLast?_map, Option.any_map]
    rfl
  show ∃ left' p', _ ∧ _ ∧ _ ∧ Parens.left _ ((keep q :: qs.map keep) :: kept keep ls) _ _ = _
  rw [Parens.left, hcount, hend]
  cases hany : (q :: qs).any keep with
  | false =>
    have hnone : l.filter (keep ·.1) = [] := by
      rw [hl]
      exact filter_listShares_nil (by simpa using hany)
    rw [hnone]
    exact ⟨left, p, rfl, fun m hm => hleft m (List.mem_append_right _ hm), hstands, rfl⟩
  | true =>
    have hnext := stands_list head lineBreak h hsplit hahead hleft hstands hany hlast
    rw [← hl] at hnext
    have hsome : ((q :: qs).map (written .param)).any (keep ·.1) = true := by simpa [Function.comp_def] using hany
    obtain ⟨y, u, w, hy, -⟩ := getLast?_kept (lead n head (some c) ⟨q, (q.written .param).2, []⟩)
      (trail n last (paramRow ls (resultRow tpt rhs)).cells.head?) hsome
    rw [← hl] at hy
    have hmem : y.1 ∈ q :: qs := by
      have hfst := List.mem_map_of_mem (f := (·.1)) (List.mem_filter.mp (List.mem_of_getLast? hy)).1
      rw [hl, map_fst_listShares] at hfst
      simpa [Function.comp_def] using hfst
    exact ⟨y.1, _, by rw [hy]; rfl, h.later hsplit hmem, hnext, rfl⟩

/-- All lists of parameters. -/
theorem run (head lineBreak : Text) (h : Reduced n edited keep tparams vparamss tpt rhs) (hsplit : vparamss = pre ++ ls)
    (hahead : Ahead n c x k ls tpt rhs) (hleft : ∀ m ∈ ls.flatten, m.same left = false) (hstands : Stands out p) :
    ∃ middle c' x' k' q, shares n head (some c) (paramRow ls (resultRow tpt rhs)).cells =
        middle ++ shares n head (some c') (resultRow tpt rhs).cells ∧ middle.map (·.1) = ls.flatten ∧
      Ahead n c' x' k' [] tpt rhs ∧
      (mark (x ++ pairs k) (paramRow ls (resultRow tpt rhs))).lastGap =
        (mark (x' ++ pairs k') (resultRow tpt rhs)).lastGap ∧
      Stands (Printer.assemble edited lineBreak (some left) out (middle.filter (keep ·.1))) q ∧
      q.depth = Parens.left (tpt.isSome || rhs.isSome) (kept keep ls) (k != 0) p := by
  induction ls generalizing pre c x k left out p with
  | nil => exact ⟨[], c, x, k, p, rfl, rfl, hahead, rfl, hstands, rfl⟩
  | cons ps ls ih =>
    have hsplit' : vparamss = (pre ++ [ps]) ++ ls := by rw [hsplit, List.append_assoc]; rfl
    cases ps with
    | nil =>
      obtain ⟨middle, c', x', k', q, hshares, hfst, hahead', hgap, hq, hdepth⟩ := ih hsplit' hahead.skip hleft hstands
      refine ⟨middle, c', x', k', q, hshares, hfst, hahead', ?_, hq, hdepth⟩
      rw [← hgap, paramRow_cons, pairs_concat, List.map_nil, Row.list, mark_mark, mark_mark, List.append_assoc,
        List.append_assoc]
      rfl
    | cons q qs =>
      obtain ⟨m, hm⟩ : ∃ m, (q :: qs).getLast? = some m := ⟨_, List.getLast?_cons⟩
      have hnext := h.ahead (t := (m.written .param).2) hsplit hm rfl
      have hgap : (mark (x ++ pairs k) (paramRow ((q :: qs) :: ls) (resultRow tpt rhs))).lastGap =
          (mark ([')'] ++ pairs 0) (paramRow ls (resultRow tpt rhs))).lastGap := by
        rw [paramRow_cons, mark_mark, List.map_cons, lastGap_mark_list]
        rfl
      obtain ⟨l, hl⟩ : ∃ l, l = listShares (lead n head (some c) ⟨q, (q.written .param).2, []⟩)
          (trail n ⟨m, (m.written .param).2, (mark [')'] (paramRow ls (resultRow tpt rhs))).head⟩
            (paramRow ls (resultRow tpt rhs)).cells.head?) ((q :: qs).map (written .param)) := ⟨_, rfl⟩
      obtain ⟨left', p', hprevious, hleft', hp', hcount⟩ := step lineBreak h hsplit hahead hleft hstands hnext hl
      obtain ⟨middle, c', x', k', r, hrest, hfst, hahead', hgap', hr, hdepth⟩ := ih hsplit' hnext hleft' hp'
      refine ⟨l ++ middle, c', x', k', r, ?_, ?_, hahead', hgap.trans hgap', ?_, hdepth.trans hcount.symm⟩
      · rw [shares_params hm, ← hl, List.append_assoc, ← hrest]
      · rw [List.map_append, hl, map_fst_listShares, hfst]
        simp [Function.comp_def]
      · rw [List.filter_append, Printer.assemble_append, hprevious]
        exact hr

end Reduced

end Reprint.Node
