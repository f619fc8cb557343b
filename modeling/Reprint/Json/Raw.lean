/-!
JSON as it is written. A text is cut into tokens, and a machine that takes one token at a time puts them
together. Numbers and strings are kept as written: whether a number is too great or a code unit stands
alone is not asked here.
-/

namespace Reprint.Json

/-- A part of a written string: a character, or a UTF-16 code unit given in hexadecimal. -/
inductive Piece where
  | char (c : Char)
  | unit (n : Nat)

/-- A written number. `part` holds the digits after the point, `exponent` its sign and digits. -/
structure Numeral where
  negative : Bool
  whole : List Char
  part : List Char
  exponent : Option (Bool × List Char)

/-- A JSON text, bracket by bracket. -/
inductive Raw where
  | null
  | bool (b : Bool)
  | number (n : Numeral)
  | string (s : List Piece)
  | array (items : List Raw)
  | object (members : List (List Piece × Raw))

/-! ### Tokens -/

inductive Token where
  | openArray
  | closeArray
  | openObject
  | closeObject
  | comma
  | colon
  | null
  | bool (b : Bool)
  | number (n : Numeral)
  | string (s : List Piece)

/-- The value of a hexadecimal digit. -/
def hexDigit? (c : Char) : Option Nat :=
  if '0' ≤ c ∧ c ≤ '9' then some (c.toNat - '0'.toNat)
  else if 'a' ≤ c ∧ c ≤ 'f' then some (c.toNat - 'a'.toNat + 10)
  else if 'A' ≤ c ∧ c ≤ 'F' then some (c.toNat - 'A'.toNat + 10)
  else none

/-- A code unit of four hexadecimal digits. -/
def codeUnit? (a b c d : Char) : Option Nat := do
  return (((← hexDigit? a) * 16 + (← hexDigit? b)) * 16 + (← hexDigit? c)) * 16 + (← hexDigit? d)

/-- The character that a letter after a backslash stands for. -/
def escaped? : Char → Option Char
  | '"' => some '"'
  | '\\' => some '\\'
  | '/' => some '/'
  | 'b' => some '\x08'
  | 'f' => some '\x0c'
  | 'n' => some '\n'
  | 'r' => some '\r'
  | 't' => some '\t'
  | _ => none

/-- The rest of a string after its opening quote, and what follows the closing one. -/
def lexString : List Char → Option (List Piece × List Char)
  | [] => none
  | '"' :: t => some ([], t)
  | '\\' :: 'u' :: a :: b :: c :: d :: t => do
    let n ← codeUnit? a b c d
    let (ps, rest) ← lexString t
    return (.unit n :: ps, rest)
  | '\\' :: e :: t => do
    let c ← escaped? e
    let (ps, rest) ← lexString t
    return (.char c :: ps, rest)
  | c :: t =>
    if c = '\\' ∨ c.toNat < 0x20 then none
    else do
      let (ps, rest) ← lexString t
      return (.char c :: ps, rest)

theorem length_lexString {t : List Char} {ps : List Piece} {rest : List Char}
    (h : lexString t = some (ps, rest)) : rest.length < t.length := by
  fun_induction lexString t generalizing ps rest with
  | case1 => cases h
  | case2 t => simp only [Option.some.injEq, Prod.mk.injEq] at h; simp [← h.2]
  | case3 a b c d t ih =>
    simp only [Option.bind_eq_bind, Option.pure_def, Option.bind_eq_some_iff, Option.some.injEq] at h
    obtain ⟨n, -, ⟨ps', rest'⟩, hs, he⟩ := h
    have := ih hs
    simp only [Prod.mk.injEq] at he
    obtain ⟨-, rfl⟩ := he
    simp only [List.length_cons]; omega
  | case4 e t _ ih =>
    simp only [Option.bind_eq_bind, Option.pure_def, Option.bind_eq_some_iff, Option.some.injEq] at h
    obtain ⟨c, -, ⟨ps', rest'⟩, hs, he⟩ := h
    have := ih hs
    simp only [Prod.mk.injEq] at he
    obtain ⟨-, rfl⟩ := he
    simp only [List.length_cons]; omega
  | case5 => cases h
  | case6 c t _ _ _ _ ih =>
    simp only [Option.bind_eq_bind, Option.pure_def, Option.bind_eq_some_iff, Option.some.injEq] at h
    obtain ⟨⟨ps', rest'⟩, hs, he⟩ := h
    have := ih hs
    simp only [Prod.mk.injEq] at he
    obtain ⟨-, rfl⟩ := he
    simp only [List.length_cons]; omega

/-- Digits before the point: a lone zero, or no zero in front. -/
def isWhole : List Char → Bool
  | [] => false
  | ['0'] => true
  | c :: _ => c != '0'

/-- The exponent of a number, after its `e`. -/
def lexExponent? : List Char → Option (Bool × List Char)
  | [] => none
  | c :: t =>
    let (negative, digits) := if c = '-' then (true, t) else if c = '+' then (false, t) else (false, c :: t)
    if digits.isEmpty ∨ !digits.all Char.isDigit then none else some (negative, digits)

/-- A whole run of number characters read as one number. -/
def lexNumeral? (t : List Char) : Option Numeral := do
  let (negative, t) := match t with
    | '-' :: t => (true, t)
    | t => (false, t)
  let whole := t.takeWhile Char.isDigit
  guard (isWhole whole)
  let t := t.dropWhile Char.isDigit
  let (part, t) ← match t with
    | '.' :: t =>
      let part := t.takeWhile Char.isDigit
      if part.isEmpty then none else some (part, t.dropWhile Char.isDigit)
    | t => some ([], t)
  match t with
  | [] => return { negative, whole, part, exponent := none }
  | c :: t =>
    guard (c = 'e' ∨ c = 'E')
    return { negative, whole, part, exponent := some (← lexExponent? t) }

/-- Characters that numbers are made of. -/
def isNumberChar (c : Char) : Bool :=
  c.isDigit || c == '-' || c == '+' || c == '.' || c == 'e' || c == 'E'

/-- The tokens of a text. -/
def lex (t : List Char) : Option (List Token) :=
  match t with
  | [] => some []
  | ' ' :: t | '\n' :: t | '\t' :: t | '\r' :: t => lex t
  | '[' :: t => (lex t).map (.openArray :: ·)
  | ']' :: t => (lex t).map (.closeArray :: ·)
  | '{' :: t => (lex t).map (.openObject :: ·)
  | '}' :: t => (lex t).map (.closeObject :: ·)
  | ',' :: t => (lex t).map (.comma :: ·)
  | ':' :: t => (lex t).map (.colon :: ·)
  | 'n' :: 'u' :: 'l' :: 'l' :: t => (lex t).map (.null :: ·)
  | 't' :: 'r' :: 'u' :: 'e' :: t => (lex t).map (.bool true :: ·)
  | 'f' :: 'a' :: 'l' :: 's' :: 'e' :: t => (lex t).map (.bool false :: ·)
  | '"' :: t =>
    match _h : lexString t with
    | none => none
    | some (s, rest) => (lex rest).map (.string s :: ·)
  | c :: t =>
    if c = '-' ∨ c.isDigit then
      match lexNumeral? (c :: t.takeWhile isNumberChar) with
      | none => none
      | some n => (lex (t.dropWhile isNumberChar)).map (.number n :: ·)
    else none
termination_by t.length
decreasing_by
  all_goals simp only [List.length_cons]
  all_goals first
    | omega
    | (have lt := length_lexString ‹_›; omega)
    | (have lt := (List.dropWhile_suffix isNumberChar (l := t)).length_le; omega)

/-! ### The machine -/

/-- An open bracket: the values read in it, the last one first, and the key that waits for a value. -/
inductive Frame where
  | array (items : List Raw)
  | object (members : List (List Piece × Raw)) (key : List Piece)

/-- What may come next, inside the brackets of `stack`. -/
inductive State where
  | value (stack : List Frame)
  | firstItem (stack : List Frame)
  | firstKey (stack : List Frame)
  | key (stack : List Frame) (members : List (List Piece × Raw))
  | colon (stack : List Frame) (members : List (List Piece × Raw)) (key : List Piece)
  | after (stack : List Frame) (value : Raw)

/-- A token that begins a value. -/
def begin? (stack : List Frame) : Token → Option State
  | .openArray => some (.firstItem stack)
  | .openObject => some (.firstKey stack)
  | .null => some (.after stack .null)
  | .bool b => some (.after stack (.bool b))
  | .number n => some (.after stack (.number n))
  | .string s => some (.after stack (.string s))
  | _ => none

/-- One token more. -/
def step? : State → Token → Option State
  | .value stack, t => begin? stack t
  | .firstItem stack, .closeArray => some (.after stack (.array []))
  | .firstItem stack, t => begin? (.array [] :: stack) t
  | .firstKey stack, .closeObject => some (.after stack (.object []))
  | .firstKey stack, .string k => some (.colon stack [] k)
  | .key stack ms, .string k => some (.colon stack ms k)
  | .colon stack ms k, .colon => some (.value (.object ms k :: stack))
  | .after (.array items :: stack) v, .comma => some (.value (.array (v :: items) :: stack))
  | .after (.array items :: stack) v, .closeArray => some (.after stack (.array (v :: items).reverse))
  | .after (.object ms k :: stack) v, .comma => some (.key stack ((k, v) :: ms))
  | .after (.object ms k :: stack) v, .closeObject => some (.after stack (.object ((k, v) :: ms).reverse))
  | _, _ => none

/-- The one value that a text holds. -/
def Raw.read? (t : List Char) : Option Raw := do
  match ← (← lex t).foldlM step? (.value []) with
  | .after [] v => some v
  | _ => none

end Reprint.Json
