import Reprint.Print.Pretty
import Reprint.Proofs.Descent
/-!
What code printed from scratch is made of: fixed words, names and literals, one behind the other, between brackets or on
lines between braces. Main statement: a property of code that is kept by all these ways to put code together
(`Doc.Compositional`) holds of whatever is printed for a tree, if it holds of the names and literals in it
(`Node.doc_ensures`). What stands on lines of its own may have to have another property as well.
-/

namespace Reprint

/-! ### Computations that may fail -/

theorem option_mapM_attach {α β : Type} (o : Option α) (f : α → Except PrintError β) :
    (o.attach.mapM fun x => f x.1) = o.mapM f := by
  cases o <;> rfl

/-- What a computation gives has the property `P`. It gives something if it `must`. -/
def Ensures {α : Type} (must : Bool) (x : Except PrintError α) (P : α → Prop) : Prop :=
  match x with
  | .ok a => P a
  | .error _ => must = false

namespace Ensures
variable {α β : Type} {must : Bool} {P : α → Prop} {Q : β → Prop}

theorem pure {a : α} (h : P a) : Ensures must (Pure.pure a) P := h

theorem any (x : Except PrintError α) : Ensures false x fun _ => True := by
  cases x with
  | ok a => exact trivial
  | error e => exact rfl

theorem bind {x : Except PrintError α} {f : α → Except PrintError β} (hx : Ensures must x P)
    (hf : ∀ a, P a → Ensures must (f a) Q) : Ensures must (x >>= f) Q := by
  cases x with
  | ok a => exact hf a hx
  | error e => exact hx

theorem and {x : Except PrintError α} {R : α → Prop} (hx : Ensures must x P) (hR : ∀ a, x = .ok a → R a) :
    Ensures must x fun a => P a ∧ R a := by
  cases x with
  | ok a => exact ⟨hx, hR a rfl⟩
  | error e => exact hx

theorem mapM {f : β → Except PrintError α} {l : List β} (h : ∀ b ∈ l, Ensures must (f b) P) :
    Ensures must (l.mapM f) fun as => ∀ a ∈ as, P a := by
  induction l with
  | nil => exact .pure (by simp)
  | cons b l ih =>
    rw [List.mapM_cons]
    refine .bind (h b (List.mem_cons_self ..)) fun a ha => .bind (ih fun c hc => h c (List.mem_cons_of_mem _ hc)) ?_
    exact fun as has => .pure (List.forall_mem_cons.mpr ⟨ha, has⟩)

theorem option_mapM {f : β → Except PrintError α} {o : Option β} (h : ∀ b ∈ o, Ensures must (f b) P) :
    Ensures must (o.mapM f) fun a => ∀ b ∈ a, P b := by
  cases o with
  | none => exact .pure (by simp)
  | some b => exact .bind (h b rfl) fun a ha => .pure (by simpa using ha)

end Ensures

/-- Two computations end alike: both fail with one error, or what the second gives is `f` of what the first gives. -/
def Tracks {α β : Type} (f : α → β) (x : Except PrintError α) (y : Except PrintError β) : Prop := y = x.map f

namespace Tracks
variable {α β γ δ : Type} {f : α → β} {g : γ → δ}

theorem pure {a : α} {b : β} (h : b = f a) : Tracks f (Pure.pure a) (Pure.pure b) := congrArg Except.ok h

theorem bind {x : Except PrintError α} {y : Except PrintError β} {k : α → Except PrintError γ} {l : β → Except PrintError δ}
    (hx : Tracks f x y) (hk : ∀ a, Tracks g (k a) (l (f a))) : Tracks g (x >>= k) (y >>= l) := by
  cases hx
  cases x with
  | error e => rfl
  | ok a => exact hk a

theorem mapM {k : γ → Except PrintError α} {l : γ → Except PrintError β} {cs : List γ}
    (h : ∀ c ∈ cs, Tracks f (k c) (l c)) : Tracks (List.map f) (cs.mapM k) (cs.mapM l) := by
  induction cs with
  | nil => rfl
  | cons c cs ih =>
    rw [List.mapM_cons, List.mapM_cons]
    refine .bind (h c (List.mem_cons_self ..)) fun a => .bind (ih fun d hd => h d (List.mem_cons_of_mem _ hd)) ?_
    exact fun as => .pure rfl

theorem option_mapM {k : γ → Except PrintError α} {l : γ → Except PrintError β} {o : Option γ}
    (h : ∀ c ∈ o, Tracks f (k c) (l c)) : Tracks (Option.map f) (o.mapM k) (o.mapM l) := by
  cases o with
  | none => rfl
  | some c => exact .bind (h c rfl) fun a => .pure rfl

end Tracks

/-! ### Numbers -/

namespace Decimal

/-- Whether a character may be part of a number. -/
def isNumeral (c : Char) : Bool := c.isDigit || ['-', '.', 'e'].contains c

theorem all_isNumeral_of_subset {a b : Text} (h : ∀ c ∈ a, c ∈ b) (hb : b.all isNumeral) : a.all isNumeral :=
  List.all_eq_true.mpr fun c hc => List.all_eq_true.mp hb c (h c hc)

theorem all_isNumeral_toDigits (n : Nat) : (Nat.toDigits 10 n).all isNumeral := by
  refine List.all_eq_true.mpr fun c hc => ?_
  rw [isNumeral, Nat.isDigit_of_mem_toDigits (by decide) (by decide) hc, Bool.true_or]

theorem all_isNumeral_toString (n : Int) : (toString n).toList.all isNumeral := by
  rw [Int.toString_eq_repr, Int.repr_eq_if]
  split
  · rw [Nat.toList_repr, all_isNumeral_toDigits]
  · rw [String.toList_append, List.all_append, Nat.toList_repr, all_isNumeral_toDigits]
    rfl

theorem all_isNumeral_positional {d : Digits} (h : d.digits.all isNumeral) : (positional d).all isNumeral := by
  have hzeros : ∀ n, (List.replicate n '0').all isNumeral := fun n =>
    all_isNumeral_of_subset (b := ['0']) (fun c hc => List.mem_singleton.mpr (List.eq_of_mem_replicate hc)) rfl
  have htake : ∀ n, (d.digits.take n).all isNumeral := fun n => all_isNumeral_of_subset (fun c => List.mem_of_mem_take) h
  have hdrop : ∀ n, (d.digits.drop n).all isNumeral := fun n => all_isNumeral_of_subset (fun c => List.mem_of_mem_drop) h
  unfold positional
  split
  · rw [List.all_append, List.all_append, hzeros, h]
    rfl
  · rw [List.all_append, List.all_append, htake, hzeros, List.all_cons]
    split
    · rfl
    · rw [hdrop]
      rfl

theorem all_isNumeral_scientific {d : Digits} (h : d.digits.all isNumeral) : (scientific d).all isNumeral := by
  have htake : (d.digits.take 1).all isNumeral := all_isNumeral_of_subset (fun c => List.mem_of_mem_take) h
  have hdrop : (d.digits.drop 1).all isNumeral := all_isNumeral_of_subset (fun c => List.mem_of_mem_drop) h
  unfold scientific
  rw [List.all_append, List.all_append, htake, List.all_cons, all_isNumeral_toString]
  split
  · rfl
  · rw [List.all_cons, hdrop]
    rfl

theorem all_isNumeral_render (style : Style) (x : Binary64) : (render style x).all isNumeral := by
  have hzeros : ∀ l : Text, ∀ c ∈ (l.reverse.dropWhile (· == '0')).reverse, c ∈ l := fun l c hc =>
    List.mem_reverse.mp ((List.dropWhile_sublist _).subset (List.mem_reverse.mp hc))
  have hdigits : (shortest style.tie x).digits.all isNumeral :=
    all_isNumeral_of_subset (hzeros _) (all_isNumeral_toDigits _)
  have hsign : (if x.negative then ['-'] else []).all isNumeral := by split <;> rfl
  unfold render
  dsimp only
  split
  · rw [List.all_append, hsign]
    rfl
  · rw [List.all_append, hsign]
    split
    · exact all_isNumeral_positional hdigits
    · exact all_isNumeral_scientific hdigits

end Decimal

/-! ### Ways to put code together -/

namespace Doc

/-- Whether a character may be part of a fixed word. -/
def isWordPart (c : Char) : Bool := c.isAlpha || [' ', ',', ':', '=', '>', '.', '@', '_'].contains c

/-- The texts that code is put between. -/
def enclosures : List (String × String) :=
  [("(", ")"), ("if (", ") "), ("[", "]"), ("\x7b", "\x7d")]

/-- A property `P` of code that is kept however code is put together, if what stands on lines of its own has the
property `Q`. -/
structure Compositional (P Q : Doc → Prop) : Prop where
  nil : P []
  append {d e : Doc} : P d → P e → P (d ++ e)
  word {s : String} : s.toList.all isWordPart = true → P (text s)
  between {s t : String} {d : Doc} : (s, t) ∈ enclosures → P d → P (text s ++ d ++ text t)
  nothing : P (text "\x7b\x7d")
  lines {s : String} {o : Option Doc} {ds : List Doc} : s ∈ ["\x7b", " \x7b"] → (∀ d ∈ o, P d) →
    (∀ d ∈ ds, P d ∧ Q d) → P (text s ++ optional " " (o.map nest) ++ ds.flatMap nestedLine ++ [.line 0] ++ text "\x7d")

theorem of_flatten {P : Doc → Prop} {ds : List Doc} (nil : P []) (append : ∀ {d e}, P d → P e → P (d ++ e))
    (h : ∀ d ∈ ds, P d) : P ds.flatten := by
  induction ds with
  | nil => exact nil
  | cons d ds ih =>
    rw [List.flatten_cons]
    exact append (h d (List.mem_cons_self ..)) (ih fun e he => h e (List.mem_cons_of_mem _ he))

namespace Compositional
variable {P Q : Doc → Prop} {d : Doc} {ds : List Doc}

theorem flatten (hP : Compositional P Q) (h : ∀ d ∈ ds, P d) : P ds.flatten := of_flatten hP.nil hP.append h

theorem flatMap {α : Type} {f : α → Doc} {l : List α} (hP : Compositional P Q) (h : ∀ a ∈ l, P (f a)) :
    P (l.flatMap f) := by
  rw [List.flatMap_def]
  exact hP.flatten (List.forall_mem_map.mpr h)

theorem join {s : String} (hP : Compositional P Q) (hs : s.toList.all isWordPart = true) (h : ∀ d ∈ ds, P d) :
    P (Doc.join s ds) := by
  induction ds with
  | nil => exact hP.nil
  | cons d ds ih =>
    have hd := h d (List.mem_cons_self ..)
    cases ds with
    | nil =>
      rw [Doc.join, List.intercalate_singleton]
      exact hd
    | cons e ds =>
      rw [Doc.join, List.intercalate_cons_cons]
      exact hP.append (hP.append hd (hP.word hs)) (ih fun x hx => h x (List.mem_cons_of_mem _ hx))

theorem parens (hP : Compositional P Q) (h : ∀ d ∈ ds, P d) : P (Doc.parens ds) := hP.between (by decide) (hP.join rfl h)

theorem braces (hP : Compositional P Q) (h : ∀ d ∈ ds, P d ∧ Q d) : P (Doc.braces ds) := by
  have hlines := hP.lines (s := "\x7b") (o := none) (by decide) (by simp) h
  rwa [Option.map_none, optional, List.append_nil] at hlines

theorem optional {mark : String} {o : Option Doc} (hP : Compositional P Q) (hmark : mark.toList.all isWordPart = true)
    (h : ∀ d ∈ o, P d) : P (Doc.optional mark o) := by
  cases o with
  | none => exact hP.nil
  | some d => exact hP.append (hP.word hmark) (h d rfl)

theorem keyword (hP : Compositional P Q) {flag : Modifier} {k : String} (h : flag.keyword? = some k) : P (text k) :=
  hP.word (by cases flag <;> cases h <;> rfl)

theorem keywords (hP : Compositional P Q) (mods : List ModifierToken) : P (Doc.keywords mods) := by
  refine hP.flatMap fun m _ => ?_
  cases hk : m.flag.keyword? with
  | none => exact hP.nil
  | some k => exact hP.append (hP.keyword hk) (hP.word rfl)

/-- How a definition begins. -/
theorem heading {s name : String} (hP : Compositional P Q) (mods : List ModifierToken) (hs : s.toList.all isWordPart = true)
    (hname : P (text name)) : P (Doc.keywords mods ++ text s ++ text name) :=
  hP.append (hP.append (hP.keywords mods) (hP.word hs)) hname

end Compositional

end Doc

/-! ### Trees -/

/-- The names that are written for a layer. -/
def Kind.names {α : Type} : Kind α → List String
  | .importSelector name rename => name.text :: (rename.map (·.text)).toList
  | .thisRef qual => (qual.map (·.text)).toList
  | k => k.name?.toList

theorem Kind.mem_names {α : Type} {k : Kind α} {name : String} (h : k.name? = some name) : name ∈ k.names := by
  cases k <;> cases h <;> exact List.mem_cons_self ..

/-- What stands on lines of its own below a layer. -/
def Kind.rows : Kind Node → List Node
  | .package _ stats | .block stats => stats
  | .template _ _ _ body => body.filter (!·.isParameter)
  | .matchExpr _ cases => cases
  | _ => []

theorem Kind.slot_of_mem_rows {k : Kind Node} {c : Node} (h : c ∈ k.rows) : c ∈ k.slots := by
  cases k <;> simp only [rows, List.not_mem_nil, List.mem_filter] at h <;> simp [slots, h]

/-- What a layer writes by itself has the property `P`, and what stands on lines of its own below it the property `Q`. The
layer writes something if it `must`. -/
structure Kind.Writes (must : Bool) (P Q : Doc → Prop) (k : Kind Node) : Prop where
  names : ∀ name ∈ k.names, P (Doc.text name)
  value : ∀ v, k = .literal v → P [.text v.render]
  statements : ∀ pid stats, k = .package pid stats → ∀ (d : Doc) (ds : List Doc), P d → (∀ s ∈ ds, P s ∧ Q s) →
    P (d ++ ds.flatMap fun s => [.emptyLine, .line 0] ++ s)
  rows : ∀ c ∈ k.rows, ∀ d, c.doc .plain = .ok d → Q d
  flag : must = true → ∀ flag, k = .modifierToken flag → flag.keyword?.isSome

namespace Node
open Doc

/-- No name in a tree holds a line feed. -/
def NamesInline (n : Node) : Prop := n.Throughout fun k => ∀ name ∈ k.names, '\n' ∉ name.toList

/-- The code of a template from that of its parts. -/
def templateCode (params superArgs parents : List Doc) (self : Option Doc) (members : List Doc) : Doc :=
  (if params.isEmpty then [] else parens params) ++
    (match parents with
    | [] => []
    | first :: rest =>
      text " extends " ++ first ++ (if superArgs.isEmpty then [] else parens superArgs) ++
        rest.flatMap fun p => text " with " ++ p) ++
    if self.isNone && members.isEmpty then []
    else text " \x7b" ++ optional " " (self.map nest) ++ members.flatMap nestedLine ++ [.line 0] ++ text "\x7d"

section Compositional
variable {must : Bool} {P Q : Doc → Prop}

theorem typeParams_of_compositional (hP : Compositional P Q) {tparams : List Node}
    (h : ∀ p ∈ tparams, p.kind.Writes must P Q) :
    P (typeParams tparams) := by
  have hnames : ∀ d ∈ tparams.map fun p => text (p.name?.getD "_"), P d := by
    refine List.forall_mem_map.mpr fun p hp => ?_
    cases hname : p.name? with
    | none => exact hP.word rfl
    | some name => exact (h p hp).names name (Kind.mem_names hname)
  unfold typeParams
  split
  · exact hP.nil
  · exact hP.between (by decide) (hP.join rfl hnames)

theorem templateCode_of_compositional (hP : Compositional P Q)
    {params superArgs parents members : List Doc} {self : Option Doc}
    (hparams : ∀ d ∈ params, P d) (hargs : ∀ d ∈ superArgs, P d) (hparents : ∀ d ∈ parents, P d)
    (hself : ∀ d ∈ self, P d) (hmembers : ∀ d ∈ members, P d ∧ Q d) :
    P (templateCode params superArgs parents self members) := by
  unfold templateCode
  refine hP.append (hP.append ?_ ?_) ?_
  · split
    · exact hP.nil
    · exact hP.parens hparams
  · cases parents with
    | nil => exact hP.nil
    | cons first rest =>
      refine hP.append (hP.append (hP.append (hP.word rfl) (hparents _ (List.mem_cons_self ..))) ?_)
        (hP.flatMap fun p hp => hP.append (hP.word rfl) (hparents p (List.mem_cons_of_mem _ hp)))
      split
      · exact hP.nil
      · exact hP.parens hargs
  · split
    · exact hP.nil
    · exact hP.lines (by decide) hself hmembers

/-- A property that is kept however code is put together holds of the code of a tree, if it holds of what its layers write
by themselves. -/
theorem doc_ensures (hP : Compositional P Q) {n : Node} (h : n.Throughout (Kind.Writes must P Q)) (role : Role) :
    Ensures must (n.doc role) P := by
  induction n using slots_induction generalizing role with
  | step n ih =>
    obtain ⟨i, s, k⟩ := n
    have hk := h.layer
    have hslots : ∀ c ∈ k.slots, c.kind.Writes must P Q := fun c hc => (h.slot hc).layer
    replace ih : ∀ c ∈ k.slots, ∀ role, Ensures must (c.doc role) P := fun c hc role => ih c hc (h.slot hc) role
    rw [kind] at hk
    have hname := hk.names
    have hrow : ∀ c ∈ k.rows, Ensures must (c.doc .plain) fun d => P d ∧ Q d := fun c hc =>
      (ih c (Kind.slot_of_mem_rows hc) .plain).and (hk.rows c hc)
    clear h
    rw [doc.eq_def]
    simp only [List.mapM_subtype, List.unattach_attach, option_mapM_attach]
    cases k with
    | package pid stats =>
      refine .bind (ih pid (by simp [Kind.slots]) _) fun pid hpid => ?_
      refine .bind (.mapM hrow) fun stats hstats => .pure ?_
      exact hk.statements _ _ rfl _ _ (hP.append (hP.word rfl) hpid) hstats
    | classDef mods name tparams impl =>
      refine .bind (ih impl (by simp [Kind.slots]) _) fun impl himpl => .pure ?_
      have htparams : P (typeParams tparams) :=
        typeParams_of_compositional hP fun p hp => hslots p (by simp [Kind.slots, hp])
      exact hP.append (hP.append (hP.heading mods rfl (hname _ (List.mem_cons_self ..))) htparams) himpl
    | objectDef mods name impl =>
      refine .bind (ih impl (by simp [Kind.slots]) _) fun impl himpl => .pure ?_
      exact hP.append (hP.heading mods rfl (hname _ (List.mem_cons_self ..))) himpl
    | template parents superArgs self body =>
      have hlist : ∀ {l : List Node} {role : Role}, (∀ c ∈ l, c ∈ (Kind.template parents superArgs self body).slots) →
          Ensures must (l.mapM (doc role)) fun ds => ∀ d ∈ ds, P d := fun hl => .mapM fun c hc => ih c (hl c hc) _
      -- Parameters and arguments are printed only if there are any; what comes behind them is the same in all four cases.
      have hrest : ∀ params superArgs : List Doc, (∀ d ∈ params, P d) → (∀ d ∈ superArgs, P d) →
          Ensures must (do
            let parents ← parents.mapM (doc .plain)
            let self ← self.mapM (doc .plain)
            let members ← (body.filter (!·.isParameter)).mapM (doc .plain)
            return templateCode params superArgs parents self members) P := by
        intro params superArgs hparams hargs
        refine .bind (hlist fun c hc => by simp [Kind.slots, hc]) fun parents hparents => ?_
        refine .bind (.option_mapM fun c hc => ih c (by simp_all [Kind.slots]) _) fun self hself => ?_
        refine .bind (.mapM hrow) fun members hmembers => ?_
        exact .pure (templateCode_of_compositional hP hparams hargs hparents hself hmembers)
      simp only [pure_bind]
      split
      · refine .bind (hlist fun c hc => by simp [Kind.slots, (List.mem_filter.mp hc).1]) fun params hparams => ?_
        split
        · exact hrest params [] hparams (by simp)
        · exact .bind (hlist fun c hc => by simp [Kind.slots, hc]) fun superArgs => hrest params superArgs hparams
      · split
        · exact hrest [] [] (by simp) (by simp)
        · exact .bind (hlist fun c hc => by simp [Kind.slots, hc]) fun superArgs => hrest [] superArgs (by simp)
    | valDef mods name tpt rhs =>
      refine .bind (.option_mapM fun t ht => ih t (by simp_all [Kind.slots]) _) fun tpt htpt => ?_
      refine .bind (.option_mapM fun r hr => ih r (by simp_all [Kind.slots]) _) fun rhs hrhs => .pure ?_
      refine hP.append (hP.append (hP.append ?_ (hname _ (List.mem_cons_self ..))) (hP.optional rfl htpt))
        (hP.optional rfl hrhs)
      split
      · exact hP.nil
      · exact hP.append (hP.keywords mods) (hP.word rfl)
    | methodDef mods name tparams vparamss tpt rhs =>
      refine .bind (.mapM fun ps hps => .mapM fun p hp => ih p ?_ _) fun vparamss hvparamss => ?_
      · exact List.mem_append_left _ (List.mem_append_left _ (List.mem_append_right _ (List.mem_flatten.mpr ⟨ps, hps, hp⟩)))
      refine .bind (.option_mapM fun t ht => ih t (by simp_all [Kind.slots]) _) fun tpt htpt => ?_
      refine .bind (.option_mapM fun r hr => ih r (by simp_all [Kind.slots]) _) fun rhs hrhs => .pure ?_
      have htparams : P (typeParams tparams) :=
        typeParams_of_compositional hP fun p hp => hslots p (by simp [Kind.slots, hp])
      have hparams := hP.flatMap fun ps hps => hP.parens (hvparamss ps hps)
      have hhead := hP.append (hP.heading mods (s := "def ") rfl (hname name.text (List.mem_cons_self ..))) htparams
      exact hP.append (hP.append (hP.append hhead hparams) (hP.optional rfl htpt)) (hP.optional rfl hrhs)
    | typeDef mods name tparams rhs =>
      refine .bind (.option_mapM fun r hr => ih r (by simp_all [Kind.slots]) _) fun rhs hrhs => .pure ?_
      have htparams : P (typeParams tparams) :=
        typeParams_of_compositional hP fun p hp => hslots p (by simp [Kind.slots, hp])
      exact hP.append (hP.append (hP.heading mods rfl (hname _ (List.mem_cons_self ..))) htparams) (hP.optional rfl hrhs)
    | ident name | nameToken name => exact .pure (hname name (List.mem_cons_self ..))
    | literal value => exact .pure (hk.value value rfl)
    | thisRef qual =>
      refine .pure (hP.append ?_ (hP.word rfl))
      cases qual with
      | none => exact hP.nil
      | some q => exact hP.append (hname _ (List.mem_cons_self ..)) (hP.word rfl)
    | select qualifier name =>
      refine .bind (ih qualifier (by simp [Kind.slots]) _) fun q hq => .pure ?_
      exact hP.append (hP.append hq (hP.word rfl)) (hname _ (List.mem_cons_self ..))
    | apply callee args | superCall callee args =>
      refine .bind (ih callee (by simp [Kind.slots]) _) fun callee hcallee => ?_
      refine .bind (.mapM fun a ha => ih a (by simp [Kind.slots, ha]) _) fun args hargs => .pure ?_
      exact hP.append hcallee (hP.parens hargs)
    | newExpr tpt =>
      refine .bind (ih tpt (by simp [Kind.slots]) _) fun tpt htpt => .pure ?_
      exact hP.append (hP.word rfl) htpt
    | typed expr tpt =>
      refine .bind (ih expr (by simp [Kind.slots]) _) fun expr hexpr => ?_
      refine .bind (ih tpt (by simp [Kind.slots]) _) fun tpt htpt => .pure ?_
      exact hP.append (hP.append hexpr (hP.word rfl)) htpt
    | matchExpr selector cases =>
      refine .bind (ih selector (by simp [Kind.slots]) _) fun selector hselector => ?_
      refine .bind (.mapM hrow) fun cases hcases => .pure ?_
      exact hP.append (hP.append hselector (hP.word rfl)) (hP.braces hcases)
    | caseClause pat guard body =>
      refine .bind (ih pat (by simp [Kind.slots]) _) fun pat hpat => ?_
      refine .bind (.option_mapM fun g hg => ih g (by simp_all [Kind.slots]) _) fun guard hguard => ?_
      refine .bind (ih body (by simp [Kind.slots]) _) fun body hbody => .pure ?_
      exact hP.append (hP.append (hP.append (hP.append (hP.word rfl) hpat) (hP.optional rfl hguard)) (hP.word rfl)) hbody
    | bind name body =>
      refine .bind (ih body (by simp [Kind.slots]) _) fun body hbody => .pure ?_
      exact hP.append (hP.append (hname _ (List.mem_cons_self ..)) (hP.word rfl)) hbody
    | ifExpr cond thenBranch elseBranch =>
      refine .bind (ih cond (by simp [Kind.slots]) _) fun cond hcond => ?_
      refine .bind (ih thenBranch (by simp [Kind.slots]) _) fun thenBranch hthen => ?_
      refine .bind (.option_mapM fun e he => ih e (by simp_all [Kind.slots]) _) fun elseBranch helse => .pure ?_
      exact hP.append (hP.append (hP.between (by decide) hcond) hthen) (hP.optional rfl helse)
    | lambda params body =>
      refine .bind (.mapM fun p hp => ih p (by simp [Kind.slots, hp]) _) fun docs hdocs => ?_
      refine .bind (ih body (by simp [Kind.slots]) _) fun body hbody => .pure ?_
      refine hP.append (hP.append ?_ (hP.word rfl)) hbody
      split
      · exact hP.flatten hdocs
      · exact hP.parens hdocs
    | importDecl expr selectors =>
      refine .bind (ih expr (by simp [Kind.slots]) _) fun expr hexpr => ?_
      refine .bind (.mapM fun s hs => ih s (by simp [Kind.slots, hs]) _) fun docs hdocs => .pure ?_
      refine hP.append (hP.append (hP.append (hP.word rfl) hexpr) (hP.word rfl)) ?_
      split
      · exact hP.flatten hdocs
      · exact hP.between (by decide) (hP.join rfl hdocs)
    | importSelector name rename =>
      refine .pure (hP.append (hname _ (List.mem_cons_self ..)) (hP.optional rfl fun d hd => ?_))
      obtain ⟨r, hr, rfl⟩ := Option.map_eq_some_iff.mp hd
      exact hname _ (List.mem_cons_of_mem _ (by simp [hr]))
    | block stats =>
      refine .bind (.mapM hrow) fun stats hstats => .pure ?_
      split
      · exact hP.nothing
      · exact hP.braces hstats
    | modifierToken flag =>
      dsimp only
      cases hkeyword : flag.keyword? with
      | some k => exact .pure (hP.keyword hkeyword)
      | none =>
        have hmust : must ≠ true := fun hmust => by
          have hsome := hk.flag hmust flag rfl
          rw [hkeyword] at hsome
          cases hsome
        exact eq_false_of_ne_true hmust
    | selfType name tpt =>
      refine .bind (.option_mapM fun t ht => ih t (by simp_all [Kind.slots]) _) fun tpt htpt => .pure ?_
      exact hP.append (hP.append (hname _ (List.mem_cons_self ..)) (hP.optional rfl htpt)) (hP.word rfl)

end Compositional

end Node

end Reprint
