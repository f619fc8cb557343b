import Reprint.Proofs.Code
/-!
Brackets in printed code. A text is balanced if every bracket that it opens is closed by its partner, and nothing else
is closed. Main statement: a tree whose names hold no brackets and whose literals are unquoted can be printed from
scratch, and the code closes all brackets that it opens (`Node.neutral_doc`).
-/

namespace Reprint

namespace Text

/-! ### Balance -/

/-- The bracket that closes an opening one. -/
def closer? : Char → Option Char
  | '(' => some ')'
  | '[' => some ']'
  | '{' => some '}'
  | _ => none

/-- The brackets of all kinds. -/
def bracketChars : List Char := ['(', ')', '[', ']', '{', '}']

/-- Whether a character is a bracket. -/
def isBracket (c : Char) : Bool := bracketChars.contains c

/-- The brackets that wait to be closed, the innermost first, after one more character. -/
def await (pending : List Char) (c : Char) : Option (List Char) :=
  match closer? c with
  | some d => some (d :: pending)
  | none =>
    if isBracket c then
      match pending with
      | d :: pending => if c = d then some pending else none
      | [] => none
    else some pending

/-- The brackets that wait to be closed after a text, unless it closes a wrong one. -/
def close (pending : List Char) (t : Text) : Option (List Char) := t.foldlM await pending

/-- Every bracket of the text is closed by its partner. -/
def Balanced (t : Text) : Prop := close [] t = some []

instance (t : Text) : Decidable (Balanced t) := inferInstanceAs (Decidable (close [] t = some []))

/-- The brackets of a text. -/
def brackets (t : Text) : Text := t.filter isBracket

/-- The text closes all it opens, wherever it stands. -/
def Neutral (t : Text) : Prop := ∀ pending, close pending t = some pending

section Close
variable {a b t : Text} {pending : List Char}

@[simp] theorem close_nil : close pending [] = some pending := rfl

theorem close_append : close pending (a ++ b) = (close pending a).bind (close · b) := List.foldlM_append

theorem close_cons {c : Char} : close pending (c :: t) = (await pending c).bind (close · t) := List.foldlM_cons

@[simp] theorem brackets_nil : brackets [] = [] := rfl

@[simp] theorem brackets_append : brackets (a ++ b) = brackets a ++ brackets b := List.filter_append ..

theorem brackets_cons {c : Char} (hc : isBracket c = false) : brackets (c :: t) = brackets t :=
  List.filter_cons_of_neg (by simp [hc])

theorem closer?_eq_none {c : Char} (h : isBracket c = false) : closer? c = none := by
  unfold closer?
  split
  · cases h
  · cases h
  · cases h
  · rfl

/-- Only brackets count. -/
theorem close_brackets : close pending (brackets t) = close pending t := by
  induction t generalizing pending with
  | nil => rfl
  | cons c t ih =>
    cases hc : isBracket c with
    | true =>
      rw [brackets, List.filter_cons_of_pos hc, close_cons, close_cons]
      exact congrArg _ (funext fun _ => ih)
    | false =>
      have hawait : await pending c = some pending := by simp [await, closer?_eq_none hc, hc]
      rw [brackets, List.filter_cons_of_neg (by simp [hc]), close_cons, hawait]
      exact ih

theorem neutral_brackets : Neutral (brackets t) ↔ Neutral t := by simp only [Neutral, close_brackets]

theorem neutral_nil : Neutral [] := fun _ => rfl

theorem neutral_of_free (h : brackets t = []) : Neutral t := neutral_brackets.mp (h ▸ neutral_nil)

theorem Neutral.append (ha : Neutral a) (hb : Neutral b) : Neutral (a ++ b) := fun pending => by
  rw [close_append, ha pending]
  exact hb pending

theorem Neutral.flatten {l : List Text} (h : ∀ t ∈ l, Neutral t) : Neutral l.flatten := by
  induction l with
  | nil => exact neutral_nil
  | cons t l ih =>
    rw [List.flatten_cons]
    exact (h t (List.mem_cons_self ..)).append (ih fun u hu => h u (List.mem_cons_of_mem _ hu))

/-- A pair of brackets around a text. -/
theorem Neutral.enclosed {o d : Char} (ho : closer? o = some d) (ht : Neutral t) : Neutral (o :: t ++ [d]) := by
  intro pending
  have hopen : await pending o = some (d :: pending) := by simp [await, ho]
  have hclose : await (d :: pending) d = some pending := by
    unfold closer? at ho
    split at ho <;> cases ho <;> rfl
  rw [List.cons_append, close_cons, hopen, Option.bind_some, close_append, ht, Option.bind_some, close_cons, hclose]
  rfl

/-- No brackets among characters of a class that holds none. -/
theorem brackets_eq_nil {p : Char → Bool} (hp : bracketChars.all (!p ·) = true) (h : ∀ c ∈ t, p c = true) :
    brackets t = [] := by
  refine List.filter_eq_nil_iff.mpr fun c hc hbracket => ?_
  have hc' := List.all_eq_true.mp hp c (List.contains_iff_mem.mp hbracket)
  rw [h c hc] at hc'
  cases hc'

theorem brackets_of_subset (h : ∀ c ∈ a, c ∈ b) (hb : brackets b = []) : brackets a = [] :=
  List.filter_eq_nil_iff.mpr fun c hc => List.filter_eq_nil_iff.mp hb c (h c hc)

theorem brackets_of_allBlank (h : t.allBlank = true) : brackets t = [] :=
  brackets_eq_nil (by decide) (List.all_eq_true.mp h)

end Close

end Text

/-! ### Literals -/

section Literals
open Text

theorem brackets_of_all_isNumeral {t : Text} (h : t.all Decimal.isNumeral = true) : brackets t = [] :=
  brackets_eq_nil (by decide) (List.all_eq_true.mp h)

/-- A literal that is written without quotes. -/
def Constant.isUnquoted : Constant → Bool
  | .char _ | .str _ => false
  | _ => true

theorem Constant.neutral_render {v : Constant} (h : v.isUnquoted = true) : Neutral v.render := by
  cases v with
  | unit => exact neutral_nil.enclosed (o := '(') rfl
  | null => exact neutral_of_free rfl
  | bool b => cases b <;> exact neutral_of_free rfl
  | int n => exact neutral_of_free (brackets_of_all_isNumeral (Decimal.all_isNumeral_toString n))
  | double x => exact neutral_of_free (brackets_of_all_isNumeral (Decimal.all_isNumeral_render _ x))
  | char c => cases h
  | str s => cases h

end Literals

/-! ### Code -/

theorem LineEnding.brackets_text (e : LineEnding) : Text.brackets e.text = [] := by
  cases e <;> rfl

theorem IndentStyle.brackets_unit (s : IndentStyle) : Text.brackets s.unit = [] := by
  cases s with
  | spaces n =>
    exact Text.brackets_of_subset (b := [' ']) (fun c hc => List.mem_singleton.mpr (List.eq_of_mem_replicate hc)) rfl
  | tabs => rfl

/-- The brackets of a piece of code. Line breaks hold none. -/
def Piece.brackets : Piece → Text
  | .text t => Text.brackets t
  | _ => []

namespace Doc

/-- The brackets of printed code, whatever its style. -/
def brackets (d : Doc) : Text := d.flatMap Piece.brackets

/-- The code closes all brackets it opens. -/
def Neutral (d : Doc) : Prop := Text.Neutral d.brackets

theorem brackets_append (d e : Doc) : brackets (d ++ e) = brackets d ++ brackets e := List.flatMap_append

theorem brackets_text (s : String) : brackets (text s) = Text.brackets s.toList := by
  simp [brackets, text, Piece.brackets]

theorem brackets_nest (d : Doc) : brackets (nest d) = brackets d := by
  have hpiece : ∀ p : Piece, p.nest.brackets = p.brackets := fun p => by cases p <;> rfl
  simp only [brackets, nest, List.flatMap_map, hpiece]

theorem brackets_render (style : Style) (d : Doc) : Text.brackets (d.render style) = d.brackets := by
  have hindent : ∀ depth, Text.brackets (style.indent.atDepth depth) = [] := fun depth =>
    Text.brackets_of_subset (fun c hc => by
      obtain ⟨l, hl, hc⟩ := List.mem_flatten.mp hc
      rwa [List.eq_of_mem_replicate hl] at hc) (IndentStyle.brackets_unit style.indent)
  have hpiece : ∀ p : Piece, Text.brackets (p.render style) = p.brackets := by
    intro p
    cases p with
    | text t => rfl
    | line depth => rw [Piece.render, Text.brackets_append, LineEnding.brackets_text, hindent]; rfl
    | emptyLine => exact LineEnding.brackets_text _
  rw [render, brackets, Text.brackets, List.filter_flatMap]
  exact congrArg (d.flatMap ·) (funext hpiece)

section Neutral
variable {d e : Doc} {ds : List Doc}

theorem neutral_nil : Neutral [] := Text.neutral_nil

theorem Neutral.append (hd : Neutral d) (he : Neutral e) : Neutral (d ++ e) := by
  rw [Neutral, brackets_append]
  exact Text.Neutral.append hd he

theorem neutral_text {s : String} (h : Text.brackets s.toList = []) : Neutral (text s) := by
  rw [Neutral, brackets_text, h]
  exact Text.neutral_nil

/-- Code between two texts that hold the two brackets of a pair. -/
theorem Neutral.between {x y : String} {o c : Char} (hd : Neutral d) (ho : Text.closer? o = some c)
    (hx : Text.brackets x.toList = [o]) (hy : Text.brackets y.toList = [c]) : Neutral (text x ++ d ++ text y) := by
  rw [Neutral, brackets_append, brackets_append, brackets_text, brackets_text, hx, hy]
  exact Text.Neutral.enclosed ho hd

theorem Neutral.nest (hd : Neutral d) : Neutral (nest d) := by
  rw [Neutral, brackets_nest]
  exact hd

theorem neutral_lines {ds : List Doc} (h : ∀ d ∈ ds, Neutral d) : Neutral (ds.flatMap Doc.nestedLine ++ [.line 0]) := by
  refine Neutral.append ?_ neutral_nil
  rw [List.flatMap_def]
  refine of_flatten neutral_nil Neutral.append (List.forall_mem_map.mpr fun d hd => ?_)
  exact neutral_nil.append (d := [.line 1]) (h d hd).nest

theorem compositional_neutral : Compositional Neutral fun _ => True where
  nil := neutral_nil
  append := Neutral.append
  word h := neutral_text (Text.brackets_eq_nil (by decide) (List.all_eq_true.mp h))
  between h hd := by
    simp only [enclosures, List.mem_cons, Prod.mk.injEq, List.not_mem_nil, or_false] at h
    rcases h with ⟨rfl, rfl⟩ | ⟨rfl, rfl⟩ | ⟨rfl, rfl⟩ | ⟨rfl, rfl⟩
    · exact hd.between (o := '(') rfl rfl rfl
    · exact hd.between (o := '(') rfl rfl rfl
    · exact hd.between (o := '[') rfl rfl rfl
    · exact hd.between (o := '{') rfl rfl rfl
  nothing := neutral_nil.between (x := "\x7b") (y := "\x7d") (o := '{') rfl rfl rfl
  lines {s o ds} hs ho hds := by
    have hopens : Text.brackets s.toList = ['{'] := by
      simp only [List.mem_cons, List.not_mem_nil, or_false] at hs
      rcases hs with rfl | rfl <;> rfl
    have hself : Neutral (optional " " (o.map Doc.nest)) := by
      cases o with
      | none => exact neutral_nil
      | some d => exact (neutral_text rfl).append (ho d rfl).nest
    rw [List.append_assoc _ _ [Piece.line 0], List.append_assoc (text _)]
    exact (hself.append (neutral_lines fun d hd => (hds d hd).1)).between (o := '{') rfl hopens rfl

end Neutral

end Doc

/-! ### Simple trees -/

/-- A name without blanks or brackets. -/
def isSimpleName (s : String) : Bool := !s.toList.isEmpty && s.toList.all fun c => !isBlank c && !Text.isBracket c

theorem brackets_of_isSimpleName {s : String} (h : isSimpleName s = true) :
    Text.brackets s.toList = [] := by
  simp only [isSimpleName, Bool.and_eq_true, List.all_eq_true, Bool.not_eq_true'] at h
  exact List.filter_eq_nil_iff.mpr fun c hc => by simp [(h.2 c hc).2]

/-- Whether a layer has simple names, no quoted literal, and is not derived from another one. -/
def Kind.isSimple {α : Type} (k : Kind α) : Bool :=
  !k.tag.isDerived && k.names.all isSimpleName &&
    match k with
    | .literal v => v.isUnquoted
    | _ => true

namespace Node

/-- Whether all layers of a tree are simple. -/
def isSimple (n : Node) : Bool := n.kind.isSimple && n.kind.slots.attach.all fun ⟨c, _⟩ => c.isSimple
termination_by n.weight
decreasing_by exact weight_lt_of_mem_slots ‹_›

theorem isSimple_iff {n : Node} : n.isSimple = true ↔ n.kind.isSimple = true ∧ ∀ c ∈ n.kind.slots, c.isSimple = true := by
  rw [isSimple, Bool.and_eq_true, List.all_eq_true]
  simp

end Node

/-- A computation that gives something with the property `P`. -/
def Succeeds {α : Type} (x : Except PrintError α) (P : α → Prop) : Prop := ∃ a, x = .ok a ∧ P a

theorem Kind.isSimple_name {α : Type} {k : Kind α} {name : String} (h : k.isSimple = true) (hname : name ∈ k.names) :
    Text.brackets name.toList = [] := by
  simp only [Kind.isSimple, Bool.and_eq_true, List.all_eq_true] at h
  exact brackets_of_isSimpleName (h.1.2 name hname)

namespace Node
open Doc

theorem throughout_of_isSimple {n : Node} (h : n.isSimple = true) :
    n.Throughout (Kind.Writes true Neutral fun _ => True) := by
  induction n using slots_induction with
  | step n ih =>
    obtain ⟨hk, hslots⟩ := isSimple_iff.mp h
    refine .node ⟨fun name hname => neutral_text (Kind.isSimple_name hk hname), ?_, ?_, fun _ _ _ _ => trivial, ?_⟩
      fun c hc => ih c hc (hslots c hc)
    · intro v hv
      rw [hv] at hk
      have hvalue : v.isUnquoted = true := (Bool.and_eq_true_iff.mp hk).2
      rw [Neutral, Doc.brackets, List.flatMap_singleton]
      exact Text.neutral_brackets.mpr (Constant.neutral_render hvalue)
    · intro pid stats _ d ds hd hds
      exact hd.append (compositional_neutral.flatMap fun s hs => neutral_nil.append (hds s hs).1)
    · intro _ flag hflag
      rw [hflag] at hk
      cases hk

/-- What is printed for a simple tree closes all brackets it opens. -/
theorem neutral_doc {n : Node} (h : n.isSimple = true) (role : Role) : Succeeds (n.doc role) Neutral := by
  have hdoc := doc_ensures compositional_neutral (throughout_of_isSimple h) role
  unfold Ensures at hdoc
  split at hdoc
  · next d heq => exact ⟨d, heq, hdoc⟩
  · cases hdoc

end Node

end Reprint
