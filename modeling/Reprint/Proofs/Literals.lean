import Mathlib
import Reprint.Proofs.Doubles
import Reprint.Proofs.Slots
/-!
Values of literals. A literal may hold nothing, null, a truth value, a number, a string or a character (`Supported`), and
`Denotes` says which constant each of them stands for. Numbers of documents that were read from a text are doubles or fit
a word, so that each of them is a value. Main statements: every literal of a document that was read has numbers of this
kind only (`read_narrow`), and then it has a constant exactly if it is supported (`constant?_isSome_iff`), the one that
it stands for (`constant?_denotes`).
-/

namespace Reprint

namespace Json

/-! ### Members by their keys -/

theorem lookup_insertMember (key k : String) (v : Json) (ms : List (String × Json)) :
    (insertMember k v ms).lookup key = if key = k then some v else ms.lookup key := by
  induction ms with
  | nil => grind [insertMember]
  | cons m ms ih =>
    unfold insertMember
    grind

theorem lookup_foldl_insertMember (key : String) (ms acc : List (String × Json)) :
    (ms.foldl (fun ms m => insertMember m.1 m.2 ms) acc).lookup key = (ms.reverse.lookup key).or (acc.lookup key) := by
  induction ms generalizing acc with
  | nil => rfl
  | cons m ms ih =>
    rw [List.foldl_cons, ih, lookup_insertMember, List.reverse_cons, List.lookup_append]
    grind

theorem lookup_map_sorted (key : String) (ms : List (String × Json)) :
    (ms.map fun m => (m.1, m.2.sorted)).lookup key = (ms.lookup key).map sorted := by
  induction ms with
  | nil => rfl
  | cons m ms ih => grind

/-- In the normal form of an object a key has the last of its values. -/
theorem get?_sorted (key : String) (ms : List (String × Json)) :
    (Json.object ms).sorted.get? key = (ms.reverse.lookup key).map sorted := by
  rw [sorted, get?, lookup_foldl_insertMember, ← List.map_reverse, lookup_map_sorted]
  simp

theorem sorted_eq_string_iff {v : Json} {s : String} : v.sorted = .string s ↔ v = .string s := by
  cases v <;> simp [sorted]

end Json

namespace Document
open Build

/-- The values that literals may have. -/
def Supported : Option Json → Prop
  | some (.array _) => False
  | some (.object members) => ∃ c : Char, ∃ s : String, members.reverse.lookup "char" = some (.string s) ∧ s.toList = [c]
  | _ => True

/-- Which constant a value stands for. No value is the unit. Integers from 2 ^ 63 on become doubles, and an object with
one character under `char` is that character; of several values under this key the last one counts. -/
inductive Denotes : Option Json → Constant → Prop where
  | unit : Denotes none .unit
  | null : Denotes (some .null) .null
  | bool {b : Bool} : Denotes (some (.bool b)) (.bool b)
  | int {n : Int} : n < 2 ^ 63 → Denotes (some (.number (.int n))) (.int n)
  | word {n : Int} {x : Binary64} : 2 ^ 63 ≤ n → x.Nearest n → Denotes (some (.number (.int n))) (.double x)
  | double {x : Binary64} : Denotes (some (.number (.double x))) (.double x)
  | str {s : String} : Denotes (some (.string s)) (.str s)
  | char {members : List (String × Json)} {s : String} {c : Char} :
      members.reverse.lookup "char" = some (.string s) → s.toList = [c] → Denotes (some (.object members)) (.char c)

/-- Integers of one word that are no integer constants have a nearest double. -/
theorem constant?_word {n : Int} (h : n ≤ Json.maxWord) (hn : ¬ n ≤ maxInt) :
    ∃ x, constant? (some (.number (.int n))) = some (.double x) ∧ x.Nearest n := by
  have hmax : maxInt = 2 ^ 63 - 1 := rfl
  have hword : (Json.maxWord : Int) = 2 ^ 64 - 1 := rfl
  obtain ⟨k, rfl⟩ := Int.eq_ofNat_of_zero_le (show 0 ≤ n by omega)
  obtain ⟨x, hx, hnearest⟩ := Binary64.ofRatio?_nearest (n := k) (by omega) (by omega)
  refine ⟨x, ?_, by simpa using hnearest⟩
  rw [constant?, if_neg hn, Int.toNat_natCast, hx, Option.map_some]

/-- What is under `char` in the normal form of an object is the last of the values under this key. -/
theorem constant?_object {ms : List (String × Json)} {c : Constant} : constant? (some (.object ms)) = some c ↔
    ∃ s a, ms.reverse.lookup "char" = some (.string s) ∧ s.toList = [a] ∧ c = .char a := by
  simp only [constant?, Json.get?_sorted]
  cases hchar : ms.reverse.lookup "char" with
  | none => simp
  | some w =>
    rw [Option.map_some]
    split
    · next s hs =>
      obtain rfl := Json.sorted_eq_string_iff.mp (Option.some.inj hs)
      split
      · next a ha => simp [ha, eq_comm]
      · next hnot => simpa using fun a ha => absurd ha (hnot a)
    · next hnot =>
      refine ⟨nofun, ?_⟩
      rintro ⟨s, a, hs, -⟩
      exact absurd (congrArg some (Json.sorted_eq_string_iff.mpr (Option.some.inj hs))) (hnot s)

section Constants
variable {v : Option Json} (h : ∀ n, v = some (.number (.int n)) → n ≤ Json.maxWord)
include h

theorem constant?_isSome_iff : (constant? v).isSome ↔ Supported v := by
  rcases v with _ | ⟨_ | b | (n | x) | s | items | ms⟩
  case some.number.int =>
    simp only [Supported, iff_true]
    by_cases hn : n ≤ maxInt
    · rw [constant?, if_pos hn]
      rfl
    · obtain ⟨x, hx, -⟩ := constant?_word (h n rfl) hn
      rw [hx]
      rfl
  case some.object =>
    simp only [Option.isSome_iff_exists, constant?_object, Supported]
    grind
  case some.array => simp [constant?, Supported, Json.sorted, Json.get?]
  all_goals simp [constant?, Supported]

/-- A value that has a constant stands for it. -/
theorem constant?_denotes {c : Constant} (hc : constant? v = some c) : Denotes v c := by
  rcases v with _ | ⟨_ | b | (n | x) | s | items | ms⟩
  case some.number.int =>
    have hmax : maxInt = 2 ^ 63 - 1 := rfl
    by_cases hn : n ≤ maxInt
    · rw [constant?, if_pos hn] at hc
      cases hc
      exact .int (by omega)
    · obtain ⟨x, hx, hnearest⟩ := constant?_word (h n rfl) hn
      cases hx.symm.trans hc
      exact .word (by omega) hnearest
  case some.object =>
    obtain ⟨s, a, hs, ha, rfl⟩ := constant?_object.mp hc
    exact .char hs ha
  case some.array => simp [constant?, Json.sorted, Json.get?] at hc
  all_goals
    cases hc
    constructor

end Constants
end Document

/-! ### Documents that were read -/

namespace Json

/-- Every integer in a value fits a word. -/
inductive Narrow : Json → Prop where
  | null : Narrow .null
  | bool {b : Bool} : Narrow (.bool b)
  | int {n : Int} : n ≤ maxWord → Narrow (.number (.int n))
  | double {x : Binary64} : Narrow (.number (.double x))
  | string {s : String} : Narrow (.string s)
  | array {items : List Json} : (∀ v ∈ items, Narrow v) → Narrow (.array items)
  | object {members : List (String × Json)} : (∀ m ∈ members, Narrow m.2) → Narrow (.object members)

theorem exists_of_mem_mapM {α β : Type} {f : α → Option β} {l : List α} {vs : List β} (h : l.mapM f = some vs) {v : β}
    (hv : v ∈ vs) : ∃ x ∈ l, f x = some v := by
  induction l generalizing vs with
  | nil =>
    cases h
    cases hv
  | cons x l ih =>
    simp only [List.mapM_cons, Option.bind_eq_bind, Option.pure_def, Option.bind_eq_some_iff, Option.some.injEq] at h
    obtain ⟨w, hw, ws, hws, rfl⟩ := h
    rcases List.mem_cons.mp hv with rfl | hv
    · exact ⟨x, List.mem_cons_self .., hw⟩
    · obtain ⟨y, hy, hfy⟩ := ih hws hv
      exact ⟨y, List.mem_cons_of_mem _ hy, hfy⟩

theorem takeDigits_le {t : List Char} {n : Nat} (h : n ≤ maxWord) : (takeDigits n t).1 ≤ maxWord := by
  induction t generalizing n with
  | nil => exact h
  | cons c t ih =>
    rw [takeDigits]
    dsimp only
    split
    · next hle => exact ih hle
    · exact h

theorem numeral_narrow {num : Numeral} {x : Number} (h : num.value? = some x) : Narrow (.number x) := by
  have hle := takeDigits_le (t := num.whole) (Nat.zero_le maxWord)
  unfold Numeral.value? at h
  generalize takeDigits 0 num.whole = taken at h hle
  obtain ⟨whole, k⟩ := taken
  dsimp only at h hle
  split at h
  · unfold ofSignificand? at h
    split at h
    · split at h
      · obtain ⟨y, -, rfl⟩ := Option.map_eq_some_iff.mp h
        exact .double
      · cases h
        exact .int (by omega)
    · cases h
      exact .int (by omega)
  · obtain ⟨y, -, rfl⟩ := Option.map_eq_some_iff.mp h
    exact .double

theorem value_narrow : ∀ {depth : Nat} {r : Raw} {v : Json}, r.value? depth = some v → v.Narrow
  | _, .null, _, h => by
    rw [Raw.value?] at h
    cases h
    exact .null
  | _, .bool _, _, h => by
    rw [Raw.value?] at h
    cases h
    exact .bool
  | _, .number _, _, h => by
    rw [Raw.value?] at h
    obtain ⟨x, hx, rfl⟩ := Option.map_eq_some_iff.mp h
    exact numeral_narrow hx
  | _, .string _, _, h => by
    rw [Raw.value?] at h
    obtain ⟨s, -, rfl⟩ := Option.map_eq_some_iff.mp h
    exact .string
  | 0, .array _, _, h | 0, .object _, _, h => nomatch h
  | depth + 1, .array items, _, h => by
    obtain ⟨vs, hvs, rfl⟩ := Option.map_eq_some_iff.mp h
    refine .array fun v hv => ?_
    obtain ⟨r, -, hr⟩ := exists_of_mem_mapM hvs hv
    exact value_narrow hr
  | depth + 1, .object members, _, h => by
    obtain ⟨ms, hms, rfl⟩ := Option.map_eq_some_iff.mp h
    refine .object fun m hm => ?_
    obtain ⟨r, -, hr⟩ := exists_of_mem_mapM hms hm
    simp only [Option.bind_eq_bind, Option.pure_def, Option.bind_eq_some_iff, Option.some.injEq] at hr
    obtain ⟨k, -, v, hv, rfl⟩ := hr
    exact value_narrow hv

end Json

namespace Document
open Build

/-- Every integer that a document node holds as a value fits a word. -/
inductive NodeDoc.Narrow : NodeDoc → Prop where
  | ref {t : String} : Narrow (.ref t)
  | node {f : Fields NodeDoc} : (∀ v, f.value = some v → v.Narrow) → (∀ e ∈ f.nodes, Narrow e) → Narrow (.node f)

section Reading
variable {read : Json → Option NodeDoc}

def AllNarrow (l : List NodeDoc) : Prop := ∀ e ∈ l, e.Narrow

theorem allNarrow_append {a b : List NodeDoc} : AllNarrow (a ++ b) ↔ AllNarrow a ∧ AllNarrow b :=
  List.forall_mem_append

/-- Fields that were read from values without wide integers. -/
structure Fields.Narrow (f : Fields NodeDoc) : Prop where
  value : ∀ v, f.value = some v → v.Narrow
  nodes : AllNarrow f.nodes

theorem narrow_optional? (hread : ∀ v d, v.Narrow → read v = some d → d.Narrow) {v : Json} (hv : v.Narrow)
    {o : Option NodeDoc} (h : optional? read v = some o) : AllNarrow o.toList := by
  unfold optional? at h
  split at h
  · cases h
    simp [AllNarrow]
  · obtain ⟨d, hd, rfl⟩ := Option.map_eq_some_iff.mp h
    simpa [AllNarrow] using hread _ d hv hd

theorem narrow_list? (hread : ∀ v d, v.Narrow → read v = some d → d.Narrow) {v : Json} (hv : v.Narrow)
    {l : List NodeDoc} (h : list? read v = some l) : AllNarrow l := by
  unfold list? at h
  split at h
  · next items =>
    cases hv with
    | array hitems =>
      intro e he
      obtain ⟨w, hw, hd⟩ := Json.exists_of_mem_mapM h he
      exact hread w e (hitems w hw) hd
  · cases h

theorem narrow_lists? (hread : ∀ v d, v.Narrow → read v = some d → d.Narrow) {v : Json} (hv : v.Narrow)
    {ls : List (List NodeDoc)} (h : list? (list? read) v = some ls) : AllNarrow ls.flatten := by
  unfold list? at h
  split at h
  · next items =>
    cases hv with
    | array hitems =>
      intro e he
      obtain ⟨l, hl, he⟩ := List.mem_flatten.mp he
      obtain ⟨w, hw, hd⟩ := Json.exists_of_mem_mapM h hl
      exact narrow_list? hread (hitems w hw) hd e he
  · cases h

theorem narrow_set? (hread : ∀ v d, v.Narrow → read v = some d → d.Narrow) {v : Json} (hv : v.Narrow)
    {f g : Fields NodeDoc} (hf : f.Narrow) {key : String} (h : f.set? read key v = some g) : g.Narrow := by
  have hnode : ∀ {o}, optional? read v = some o → AllNarrow o.toList := narrow_optional? hread hv
  have hlist : ∀ {l}, list? read v = some l → AllNarrow l := narrow_list? hread hv
  have hlists : ∀ {ls}, list? (list? read) v = some ls → AllNarrow ls.flatten := narrow_lists? hread hv
  obtain ⟨hvalue, hnodes⟩ := hf
  unfold Fields.set? at h
  dsimp only at h
  split at h
  all_goals simp only [Option.bind_eq_bind, Option.pure_def, Option.bind_eq_some_iff, Option.some.injEq] at h
  case h_17 =>
    subst h
    exact ⟨fun w hw => by cases hw; exact hv, hnodes⟩
  case h_34 =>
    subst h
    exact ⟨hvalue, hnodes⟩
  -- Any other field is put among the others, and brings in nodes that were read or none at all.
  all_goals
    obtain ⟨a, ha, rfl⟩ := h
    refine ⟨hvalue, ?_⟩
    simp only [Fields.nodes, Fields.groups, List.flatten_cons, List.flatten_nil, allNarrow_append] at hnodes ⊢
    first
      | exact hnodes
      | simp only [hnodes, hnode ha, and_self]
      | simp only [hnodes, hlist ha, and_self]
      | simp only [hnodes, hlists ha, and_self]

theorem narrow_foldlM (hread : ∀ v d, v.Narrow → read v = some d → d.Narrow) {members : List (String × Json)}
    (hmembers : ∀ m ∈ members, m.2.Narrow) {f g : Fields NodeDoc} (hf : f.Narrow)
    (h : members.foldlM (fun f (m : String × Json) => f.set? read m.1 m.2) f = some g) : g.Narrow := by
  induction members generalizing f with
  | nil =>
    cases h
    exact hf
  | cons m members ih =>
    rw [List.foldlM_cons, Option.bind_eq_bind, Option.bind_eq_some_iff] at h
    obtain ⟨e, he, h⟩ := h
    have hm := narrow_set? hread (hmembers m (List.mem_cons_self ..)) hf he
    exact ih (fun m' hm' => hmembers m' (List.mem_cons_of_mem _ hm')) hm h

theorem narrow_empty : ({} : Fields NodeDoc).Narrow := ⟨nofun, nofun⟩

theorem narrow_ofMembers? (hread : ∀ v d, v.Narrow → read v = some d → d.Narrow) {members : List (String × Json)}
    (hv : (Json.object members).Narrow) {f : Fields NodeDoc} (h : Fields.ofMembers? read members = some f) : f.Narrow := by
  cases hv with
  | object hmembers =>
    unfold Fields.ofMembers? at h
    split at h
    · exact narrow_foldlM hread hmembers narrow_empty h
    · cases h

theorem narrow_ofItems? (hread : ∀ v d, v.Narrow → read v = some d → d.Narrow) {items : List Json}
    (hv : (Json.array items).Narrow) {f : Fields NodeDoc} (h : Fields.ofItems? read items = some f) : f.Narrow := by
  cases hv with
  | array hitems =>
    unfold Fields.ofItems? at h
    split at h
    · exact narrow_foldlM hread (fun m hm => hitems m.2 (List.of_mem_zip hm).2) narrow_empty h
    · cases h

end Reading

theorem ofJson_narrow {depth : Nat} {v : Json} {d : NodeDoc} (hv : v.Narrow) (h : NodeDoc.ofJson? depth v = some d) :
    d.Narrow := by
  induction depth generalizing v d with
  | zero => cases h
  | succ depth ih =>
    have hread : ∀ v d, v.Narrow → NodeDoc.ofJson? depth v = some d → d.Narrow := fun v d => ih
    cases v with
    | object members =>
      rw [NodeDoc.ofJson?] at h
      split at h
      · cases h
        exact .ref
      · obtain ⟨f, hf, rfl⟩ := Option.map_eq_some_iff.mp h
        have := narrow_ofMembers? hread hv hf
        exact .node this.value this.nodes
    | array items =>
      rw [NodeDoc.ofJson?] at h
      obtain ⟨f, hf, rfl⟩ := Option.map_eq_some_iff.mp h
      have := narrow_ofItems? hread hv hf
      exact .node this.value this.nodes
    | null | bool | number | string => cases h

theorem read_narrow {text : Text} {d : Document} (h : read? text = some d) : d.root.Narrow := by
  unfold read? at h
  simp only [Option.bind_eq_bind, Option.pure_def, Option.bind_eq_some_iff, Option.some.injEq] at h
  obtain ⟨raw, -, ⟨file, root⟩, -, _, -, _, -, v, hv, _, hroot, rfl⟩ := h
  exact ofJson_narrow (Json.value_narrow hv) hroot

theorem NodeDoc.Narrow.int_le {f : Fields NodeDoc} (h : (NodeDoc.node f).Narrow) {n : Int}
    (hn : f.value = some (.number (.int n))) : n ≤ Json.maxWord := by
  cases h with
  | node hvalue _ =>
    have := hvalue _ hn
    cases this with
    | int hle => exact hle

theorem NodeDoc.Narrow.of_mem_below {f : Fields NodeDoc} (h : (NodeDoc.node f).Narrow) {tag : Tag} :
    ∀ e ∈ f.below tag, e.Narrow := by
  cases h with
  | node _ hnodes => exact fun e he => hnodes e (Fields.mem_nodes_of_mem_below he)

end Document

end Reprint
