import Mathlib
import Reprint.Proofs.Code
import Reprint.Proofs.Cuts
/-!
Literals as they are written. Between quotes a character is written as itself or as an escape, and no character is
written as the beginning of another, so the characters can be told apart again. Which characters are shown by their code
does not matter for this. Main statement: literals other than doubles that are written alike are the same, and a quoted
one stays on its line and ends at its second quote.
-/

namespace Reprint

/-! ### Hexadecimal digits -/

theorem digitChar_injective {m n : Nat} (hm : m < 16) (hn : n < 16) (h : Nat.digitChar m = Nat.digitChar n) : m = n := by
  have hall : ∀ m < 16, ∀ n < 16, Nat.digitChar m = Nat.digitChar n → m = n := by decide
  exact hall m hm n hn h

theorem toDigits_ne_nil (n : Nat) : Nat.toDigits 16 n ≠ [] := by
  rw [Nat.toDigits_eq_if (by decide)]
  split
  · exact List.cons_ne_nil _ _
  · exact List.append_ne_nil_of_right_ne_nil _ (List.cons_ne_nil _ _)

theorem toDigits_injective {m n : Nat} (h : Nat.toDigits 16 m = Nat.toDigits 16 n) : m = n := by
  induction m using Nat.strongRecOn generalizing n with
  | ind m ih =>
    have hlen : ∀ {k : Nat} {x y : Char}, Nat.toDigits 16 k ++ [x] ≠ [y] := fun {k _ _} heq =>
      toDigits_ne_nil k (List.append_eq_singleton_iff.mp heq |>.elim (·.1) fun hr => absurd hr.2 (List.cons_ne_nil _ _))
    rw [Nat.toDigits_eq_if (n := m) (by decide), Nat.toDigits_eq_if (n := n) (by decide)] at h
    split at h
    · next hm =>
      split at h
      · next hn => exact digitChar_injective hm hn (List.cons.inj h).1
      · exact absurd h.symm hlen
    · next hm =>
      split at h
      · exact absurd h hlen
      · obtain ⟨hfront, hlast⟩ := List.append_inj' h rfl
        have hdiv := ih (m / 16) (by omega) hfront
        have hmod := digitChar_injective (Nat.mod_lt m (by decide)) (Nat.mod_lt n (by decide)) (List.cons.inj hlast).1
        omega

theorem mem_toDigits {n : Nat} {c : Char} (h : c ∈ Nat.toDigits 16 n) : ∃ d < 16, c = Nat.digitChar d := by
  induction n using Nat.strongRecOn with
  | ind n ih =>
    rw [Nat.toDigits_eq_if (by decide)] at h
    split at h
    · next hlt => exact ⟨n, hlt, List.mem_singleton.mp h⟩
    · rcases List.mem_append.mp h with h | h
      · exact ih (n / 16) (by omega) h
      · exact ⟨n % 16, Nat.mod_lt n (by decide), List.mem_singleton.mp h⟩

theorem not_mem_toDigits {c : Char} (h : ∀ d < 16, Nat.digitChar d ≠ c) (n : Nat) : c ∉ Nat.toDigits 16 n := fun hmem => by
  obtain ⟨d, hd, heq⟩ := mem_toDigits hmem
  exact h d hd heq.symm

/-! ### Characters between quotes -/

namespace Quoted
variable {quote c d x : Char} {a b s t : Text}

/-- One of the two quotes. -/
def IsQuote (c : Char) : Prop := c = '\'' ∨ c = '"'

/-- A letter that stands for a character when a backslash is in front of it. -/
def Abbreviates (quote x c : Char) : Prop := shortName? c = some x ∨ x = quote ∧ c = quote

theorem mem_of_shortName? (h : shortName? c = some x) : x ∈ ['0', 't', 'r', 'n', '\\'] := by
  unfold shortName? at h
  split at h <;> cases h <;> decide

theorem shortName?_injective (hc : shortName? c = some x) (hd : shortName? d = some x) : c = d := by
  unfold shortName? at hc hd
  split at hc <;> cases hc <;> split at hd <;> first | rfl | cases hd

theorem ne_of_shortName?_eq_none (h : shortName? c = none) : c ≠ '\\' ∧ c ≠ '\n' ∧ c ≠ '\r' := by
  refine ⟨?_, ?_, ?_⟩ <;> rintro rfl <;> cases h

theorem IsQuote.not_mem (hquote : IsQuote quote) : quote ∉ ['0', 't', 'r', 'n', '\\'] := by
  rcases hquote with rfl | rfl <;> decide

theorem Abbreviates.mem (hquote : IsQuote quote) (h : Abbreviates quote x c) :
    x ∈ ['0', 't', 'r', 'n', '\\', '\'', '"'] := by
  rcases h with h | ⟨rfl, -⟩
  · exact List.mem_append_left ['\'', '"'] (mem_of_shortName? h)
  · rcases hquote with rfl | rfl <;> decide

/-- A letter stands for one character only. -/
theorem Abbreviates.unique (hquote : IsQuote quote) (hc : Abbreviates quote x c) (hd : Abbreviates quote x d) : c = d := by
  rcases hc with hc | ⟨rfl, rfl⟩
  · rcases hd with hd | ⟨rfl, rfl⟩
    · exact shortName?_injective hc hd
    · exact absurd (mem_of_shortName? hc) hquote.not_mem
  · rcases hd with hd | ⟨-, rfl⟩
    · exact absurd (mem_of_shortName? hd) hquote.not_mem
    · rfl

/-- The ways to write a character between two `quote`s: as itself, by a letter, or by its code. -/
inductive Spelt (quote : Char) : Char → Text → Prop where
  | plain {c : Char} : shortName? c = none → c ≠ quote → Spelt quote c [c]
  | letter {x c : Char} : Abbreviates quote x c → Spelt quote c ['\\', x]
  | code {c : Char} : Spelt quote c (codeEscape c)

theorem codeEscape_injective (h : codeEscape c ++ s = codeEscape d ++ t) : c = d ∧ s = t := by
  have hbrace : ∀ n, '}' ∉ Nat.toDigits 16 n := not_mem_toDigits (by decide)
  have hdigits : Nat.toDigits 16 c.toNat ++ '}' :: s = Nat.toDigits 16 d.toNat ++ '}' :: t := by
    simpa [codeEscape] using h
  rcases append_cons_cases hdigits with ⟨hcode, -, hrest⟩ | ⟨m, hcode, -⟩ | ⟨m, hcode, -⟩
  · exact ⟨Char.toNat_inj.mp (toDigits_injective hcode), hrest⟩
  · exact absurd (hcode ▸ List.mem_append_right _ (List.mem_cons_self ..)) (hbrace d.toNat)
  · exact absurd (hcode ▸ List.mem_append_right _ (List.mem_cons_self ..)) (hbrace c.toNat)

/-- No character is written as the beginning of another. -/
theorem Spelt.injective (hquote : IsQuote quote) (hc : Spelt quote c a) (hd : Spelt quote d b) (h : a ++ s = b ++ t) :
    c = d ∧ s = t := by
  have hletter : ∀ {x c}, Abbreviates quote x c → x ≠ 'u' := fun hx hu => by
    have := hx.mem hquote
    rw [hu] at this
    revert this
    decide
  cases hc with
  | plain hc =>
    have hbackslash := (ne_of_shortName?_eq_none hc).1
    cases hd with
    | plain => exact List.cons.inj h
    | letter => exact absurd (List.cons.inj h).1 hbackslash
    | code => exact absurd (List.cons.inj h).1 hbackslash
  | letter hx =>
    cases hd with
    | plain hd => exact absurd (List.cons.inj h).1.symm (ne_of_shortName?_eq_none hd).1
    | letter hy =>
      obtain ⟨rfl, hrest⟩ := List.cons.inj (List.cons.inj h).2
      exact ⟨hx.unique hquote hy, hrest⟩
    | code => exact absurd (List.cons.inj (List.cons.inj h).2).1 (hletter hx)
  | code =>
    cases hd with
    | plain hd => exact absurd (List.cons.inj h).1.symm (ne_of_shortName?_eq_none hd).1
    | letter hy => exact absurd (List.cons.inj (List.cons.inj h).2).1.symm (hletter hy)
    | code => exact codeEscape_injective h

theorem Spelt.ne_nil (h : Spelt quote c a) : a ≠ [] := by
  cases h <;> exact List.cons_ne_nil _ _

/-- Texts that are written alike are the same. -/
theorem flatMap_injective (hquote : IsQuote quote) {f : Char → Text} (hf : ∀ c, Spelt quote c (f c)) {u v : Text}
    (h : u.flatMap f = v.flatMap f) : u = v := by
  induction u generalizing v with
  | nil =>
    cases v with
    | nil => rfl
    | cons d v => exact absurd (List.append_eq_nil_iff.mp h.symm).1 (hf d).ne_nil
  | cons c u ih =>
    cases v with
    | nil => exact absurd (List.append_eq_nil_iff.mp h).1 (hf c).ne_nil
    | cons d v =>
      obtain ⟨rfl, hrest⟩ := (hf c).injective hquote (hf d) h
      rw [ih hrest]

/-! ### Where a literal ends -/

/-- The characters of a text that are not behind a backslash of their own. -/
def unescaped : Text → Text
  | [] => []
  | '\\' :: _ :: t => unescaped t
  | c :: t => c :: unescaped t

theorem unescaped_append (h : '\\' ∉ a) : unescaped (a ++ t) = a ++ unescaped t := by
  induction a with
  | nil => rfl
  | cons c a ih =>
    obtain ⟨hc, ha⟩ := List.ne_and_not_mem_of_not_mem_cons h
    rw [List.cons_append, unescaped, ih ha, List.cons_append]
    rintro x rest rfl
    exact absurd rfl hc

/-- What is written for a character leaves no quote and no backslash without an escape, and stays on its line. -/
theorem Spelt.unescaped (hquote : IsQuote quote) (h : Spelt quote c a) :
    ∃ p, (∀ t, unescaped (a ++ t) = p ++ Quoted.unescaped t) ∧ quote ∉ p ∧ '\\' ∉ p := by
  cases h with
  | plain hc hne =>
    have hbackslash := (ne_of_shortName?_eq_none hc).1.symm
    exact ⟨[c], fun t => unescaped_append (by simp [hbackslash]), by simp [hne.symm], by simp [hbackslash]⟩
  | letter => exact ⟨[], fun t => rfl, List.not_mem_nil, List.not_mem_nil⟩
  | code =>
    have hdigit : quote ∉ Nat.toDigits 16 c.toNat := by
      rcases hquote with rfl | rfl <;> exact not_mem_toDigits (by decide) _
    have hbrace : quote ≠ '{' ∧ quote ≠ '}' := by rcases hquote with rfl | rfl <;> decide
    have hbackslash : '\\' ∉ Nat.toDigits 16 c.toNat := not_mem_toDigits (by decide) _
    have hp : quote ∉ '{' :: Nat.toDigits 16 c.toNat ++ ['}'] ∧ '\\' ∉ '{' :: Nat.toDigits 16 c.toNat ++ ['}'] := by
      simp [hbrace, hdigit, hbackslash]
    refine ⟨_, fun t => ?_, hp⟩
    rw [← unescaped_append hp.2]
    rfl

theorem Spelt.inline (hquote : IsQuote quote) (h : Spelt quote c a) : '\n' ∉ a ∧ '\r' ∉ a := by
  cases h with
  | plain hc =>
    obtain ⟨-, hfeed, hreturn⟩ := ne_of_shortName?_eq_none hc
    simp [hfeed.symm, hreturn.symm]
  | letter hx =>
    have hfeed := ne_of_mem_of_not_mem (hx.mem hquote) (b := '\n') (by decide)
    have hreturn := ne_of_mem_of_not_mem (hx.mem hquote) (b := '\r') (by decide)
    simp [hfeed.symm, hreturn.symm]
  | code =>
    have hfeed : '\n' ∉ Nat.toDigits 16 c.toNat := not_mem_toDigits (by decide) _
    have hreturn : '\r' ∉ Nat.toDigits 16 c.toNat := not_mem_toDigits (by decide) _
    simp [codeEscape, hfeed, hreturn]

/-- A literal between two `quote`s. It ends at the second one, as no quote and no backslash between them is without an
escape, and stays on one line. -/
structure Delimited (quote : Char) (t : Text) : Prop where
  between : ∃ body, t = quote :: body ++ [quote] ∧ quote ∉ unescaped body ∧ '\\' ∉ unescaped body
  lineFeed : '\n' ∉ t
  carriageReturn : '\r' ∉ t

theorem delimited_flatMap (hquote : IsQuote quote) {f : Char → Text} (hf : ∀ c, Spelt quote c (f c)) (t : Text) :
    Delimited quote (quote :: t.flatMap f ++ [quote]) := by
  have hclean : quote ∉ unescaped (t.flatMap f) ∧ '\\' ∉ unescaped (t.flatMap f) := by
    induction t with
    | nil => exact ⟨List.not_mem_nil, List.not_mem_nil⟩
    | cons c t ih =>
      obtain ⟨p, hp, hquotes, hbackslash⟩ := (hf c).unescaped hquote
      rw [List.flatMap_cons, hp, List.mem_append, List.mem_append]
      exact ⟨not_or.mpr ⟨hquotes, ih.1⟩, not_or.mpr ⟨hbackslash, ih.2⟩⟩
  obtain ⟨hfeed, hreturn⟩ : quote ≠ '\n' ∧ quote ≠ '\r' := by rcases hquote with rfl | rfl <;> decide
  have hbody : ∀ x, (∀ c, x ∉ f c) → x ∉ t.flatMap f := fun x hx hmem => by
    obtain ⟨c, -, hc⟩ := List.mem_flatMap.mp hmem
    exact hx c hc
  refine ⟨⟨_, rfl, hclean⟩, ?_, ?_⟩
  · simp [hfeed.symm, hbody _ fun c => ((hf c).inline hquote).1]
  · simp [hreturn.symm, hbody _ fun c => ((hf c).inline hquote).2]

/-! ### Tables of characters -/

/-- How a character is written between two `quote`s if `shown` are the characters that are shown as themselves. -/
def escapeBy (shown : Char → Bool) (quote c : Char) : Text :=
  match shortName? c with
  | some x => ['\\', x]
  | none => if c = quote then ['\\', c] else if shown c then [c] else codeEscape c

/-- A text between two `quote`s if `shown` are the characters that are shown as themselves. -/
def encloseBy (shown : Char → Bool) (quote : Char) (t : Text) : Text := quote :: t.flatMap (escapeBy shown quote) ++ [quote]

theorem spelt_escapeBy (shown : Char → Bool) (quote c : Char) : Spelt quote c (escapeBy shown quote c) := by
  unfold escapeBy
  split
  · next x hx => exact .letter (.inl hx)
  · next hnone =>
    split
    · next hc => exact .letter (.inr ⟨hc, hc⟩)
    · next hc =>
      split
      · exact .plain hnone hc
      · exact .code

theorem encloseBy_injective (hquote : IsQuote quote) {shown : Char → Bool}
    (h : encloseBy shown quote s = encloseBy shown quote t) : s = t :=
  flatMap_injective hquote (spelt_escapeBy shown quote) (List.append_cancel_right (List.cons.inj h).2)

theorem delimited_encloseBy (hquote : IsQuote quote) (shown : Char → Bool) (t : Text) :
    Delimited quote (encloseBy shown quote t) := delimited_flatMap hquote (spelt_escapeBy shown quote) t

end Quoted

/-! ### Literals -/

namespace Constant
open Quoted

/-- A literal as it is written if `shown` are the characters that are shown as themselves. -/
def renderBy (shown : Char → Bool) : Constant → Text
  | char c => encloseBy shown '\'' [c]
  | str s => encloseBy shown '"' s.toList
  | v => v.render

theorem renderBy_isPrintable (v : Constant) : v.renderBy isPrintable = v.render := by
  cases v <;> rfl

/-- The kind of a constant. -/
def sort : Constant → Nat
  | unit => 0
  | null => 1
  | bool _ => 2
  | int _ | double _ => 3
  | char _ => 4
  | str _ => 5

/-- The kind of the constants that are written with a character in front. -/
def sortOf (c : Char) : Nat :=
  if c = '(' then 0 else if c = 'n' then 1 else if c = 't' ∨ c = 'f' then 2 else if c = '\'' then 4
    else if c = '"' then 5 else 3

theorem sortOf_of_isNumeral {c : Char} (h : Decimal.isNumeral c = true) : sortOf c = 3 := by
  have hne : ∀ d, Decimal.isNumeral d = false → c ≠ d := fun d hd hc => by
    rw [hc, hd] at h
    cases h
  simp [sortOf, hne '(' rfl, hne 'n' rfl, hne 't' rfl, hne 'f' rfl, hne '\'' rfl, hne '"' rfl]

theorem toString_int_ne_nil (n : Int) : (toString n).toList ≠ [] := by
  rw [Int.toString_eq_repr, Int.repr_eq_if]
  split
  · exact fun h => absurd (String.toList_inj.mp (h.trans String.toList_empty.symm)) Nat.repr_ne_empty
  · rw [String.toList_append]
    exact List.cons_ne_nil _ _

/-- The first character of a literal tells its kind. -/
theorem sortOf_head (shown : Char → Bool) {v : Constant} (hv : ∀ x, v ≠ double x) :
    (v.renderBy shown).head?.map sortOf = some v.sort := by
  cases v with
  | unit => rfl
  | null => rfl
  | bool b => cases b <;> rfl
  | int n =>
    obtain ⟨c, rest, htext⟩ := List.exists_cons_of_ne_nil (toString_int_ne_nil n)
    have hc := List.all_eq_true.mp (Decimal.all_isNumeral_toString n) c (htext ▸ List.mem_cons_self ..)
    show ((toString n).toList.head?).map sortOf = some 3
    rw [htext, List.head?_cons, Option.map_some, sortOf_of_isNumeral hc]
  | double x => exact absurd rfl (hv x)
  | char c => rfl
  | str s => rfl

theorem renderBy_injective {shown : Char → Bool} {v w : Constant} (hv : ∀ x, v ≠ double x) (hw : ∀ x, w ≠ double x)
    (h : v.renderBy shown = w.renderBy shown) : v = w := by
  have hsort : v.sort = w.sort := by
    have hhead := congrArg (fun t : Text => t.head?.map sortOf) h
    rwa [sortOf_head shown hv, sortOf_head shown hw, Option.some.injEq] at hhead
  cases v with
  | unit => cases w with
    | unit => rfl
    | _ => cases hsort
  | null => cases w with
    | null => rfl
    | _ => cases hsort
  | bool b => cases w with
    | bool b' => cases b <;> cases b' <;> first | rfl | cases h
    | _ => cases hsort
  | int m => cases w with
    | int n => rw [Int.repr_injective (String.toList_inj.mp h)]
    | double x => exact absurd rfl (hw x)
    | _ => cases hsort
  | double x => exact absurd rfl (hv x)
  | char c => cases w with
    | char d => rw [(List.cons.inj (encloseBy_injective (.inl rfl) h)).1]
    | _ => cases hsort
  | str s => cases w with
    | str t => rw [String.toList_inj.mp (encloseBy_injective (.inr rfl) h)]
    | _ => cases hsort

/-- Literals stay on their line. -/
theorem not_mem_render (v : Constant) : '\n' ∉ v.render := by
  have hnumber : ∀ t : Text, t.all Decimal.isNumeral → '\n' ∉ t := fun t ht hmem =>
    absurd (List.all_eq_true.mp ht _ hmem) (by decide)
  cases v with
  | unit => decide
  | null => decide
  | bool b => cases b <;> decide
  | int n => exact hnumber _ (Decimal.all_isNumeral_toString n)
  | double x => exact hnumber _ (Decimal.all_isNumeral_render _ x)
  | char c => exact (delimited_encloseBy (.inl rfl) isPrintable [c]).lineFeed
  | str s => exact (delimited_encloseBy (.inr rfl) isPrintable s.toList).lineFeed

/-- Literals are told apart by how they are written, doubles aside, whatever characters are shown by their code. Characters
and strings stay on their line, and nothing between their quotes is taken for the second one. -/
theorem written_unambiguous (shown : Char → Bool) :
    renderBy isPrintable = render ∧
      (∀ v w : Constant, (∀ x, v ≠ double x) → (∀ x, w ≠ double x) → v.renderBy shown = w.renderBy shown → v = w) ∧
      (∀ c, Delimited '\'' ((char c).renderBy shown)) ∧ ∀ s, Delimited '"' ((str s).renderBy shown) := by
  refine ⟨funext renderBy_isPrintable, fun v w hv hw => renderBy_injective hv hw, fun c => ?_, fun s => ?_⟩
  · exact delimited_encloseBy (.inl rfl) shown [c]
  · exact delimited_encloseBy (.inr rfl) shown s.toList

/-- A line feed is not written as a backslash with an `n` behind it is. -/
theorem lineFeed_written_apart : (str "\n").render ≠ (str "\\n").render ∧ (str "\\n").render = "\"\\\\n\"".toList ∧
    Delimited '"' (str "\\n").render := by
  obtain ⟨htable, hinjective, -, hstring⟩ := written_unambiguous isPrintable
  rw [htable] at hinjective
  have hdelimited := hstring "\\n"
  rw [htable] at hdelimited
  refine ⟨fun h => ?_, by decide +kernel, hdelimited⟩
  have heq : str "\n" = str "\\n" := hinjective _ _ (fun _ => Constant.noConfusion) (fun _ => Constant.noConfusion) h
  exact absurd (Constant.str.inj heq) (by decide)

end Constant

end Reprint
