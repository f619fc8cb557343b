import Reprint.Path
/-!
Patterns for paths. A question mark stands for any character, a star for any text, brackets for one character
of a class, and two stars, as a whole component, for any number of components. Slashes are characters like
others, except to two stars.
-/

namespace Reprint

namespace Pattern

/-- The characters from one to another. -/
structure Range where
  first : Char
  last : Char
deriving DecidableEq

/-- A piece of a pattern. -/
inductive Token where
  | char (c : Char)
  | any
  | star
  /-- Any number of whole components. -/
  | components
  | within (ranges : List Range)
  | except (ranges : List Range)
deriving DecidableEq

/-- The ranges of a class. A hyphen between two characters makes a range of them. -/
def ranges : Text → List Range
  | a :: '-' :: b :: t => { first := a, last := b } :: ranges t
  | a :: t => { first := a, last := a } :: ranges t
  | [] => []

/-- Whether a character is in one of the ranges. -/
def isIn (rs : List Range) (c : Char) : Bool := rs.any fun r => r.first ≤ c && c ≤ r.last

/-- The text up to the next closing bracket, and what follows it. -/
def untilBracket : Text → Option (Text × Text)
  | [] => none
  | ']' :: t => some ([], t)
  | c :: t => (untilBracket t).map fun (body, rest) => (c :: body, rest)

/-- A class behind its opening bracket. Its first character may be a closing bracket. -/
def bracket? : Text → Option (Token × Text)
  | '!' :: c :: t => (untilBracket t).map fun (body, rest) => (.except (ranges (c :: body)), rest)
  | c :: t => if c = '!' then none else (untilBracket t).map fun (body, rest) => (.within (ranges (c :: body)), rest)
  | [] => none

/-- The end of a component behind two stars: a slash, which goes with them, or the end of the pattern. -/
def componentEnd? : Text → Option Text
  | [] => some []
  | '/' :: t => some t
  | _ => none

theorem length_untilBracket {t body rest : Text} (h : untilBracket t = some (body, rest)) :
    rest.length < t.length := by
  fun_induction untilBracket t generalizing body rest with
  | case1 => cases h
  | case2 t => simp only [Option.some.injEq, Prod.mk.injEq] at h; simp [← h.2]
  | case3 c t _ ih =>
    simp only [Option.map_eq_some_iff, Prod.mk.injEq] at h
    obtain ⟨⟨b, r⟩, hr, _, rfl⟩ := h
    have := ih hr
    simp only [List.length_cons]
    omega

theorem length_bracket {t : Text} {token : Token} {rest : Text} (h : bracket? t = some (token, rest)) :
    rest.length < t.length := by
  unfold bracket? at h
  split at h
  · simp only [Option.map_eq_some_iff, Prod.mk.injEq] at h
    obtain ⟨⟨_, _⟩, hr, _, rfl⟩ := h
    have := length_untilBracket hr
    simp only [List.length_cons]; omega
  · split at h
    · cases h
    · simp only [Option.map_eq_some_iff, Prod.mk.injEq] at h
      obtain ⟨⟨_, _⟩, hr, _, rfl⟩ := h
      have := length_untilBracket hr
      simp only [List.length_cons]; omega
  · cases h

theorem length_componentEnd {t rest : Text} (h : componentEnd? t = some rest) : rest.length ≤ t.length := by
  unfold componentEnd? at h
  split at h <;> simp_all

/-- Reads a pattern behind the character `before`. A run of component wildcards counts once, except at the very
beginning, where it may count twice. -/
def readFrom (before : Option Char) (tokens : List Token) (t : Text) : Option (List Token) :=
  match t with
  | [] => some tokens
  | '?' :: t => readFrom (some '?') (tokens ++ [.any]) t
  | '*' :: '*' :: t =>
    if before.any (· != '/') then none
    else
      match _h : componentEnd? t with
      | none => none
      | some rest =>
        let repeated := 1 < tokens.length && tokens.getLast? == some .components
        readFrom (if rest.length < t.length then some '/' else some '*')
          (if repeated then tokens else tokens ++ [.components]) rest
  | '*' :: t => readFrom (some '*') (tokens ++ [.star]) t
  | '[' :: t =>
    match _h : bracket? t with
    | none => none
    | some (token, rest) => readFrom (some ']') (tokens ++ [token]) rest
  | c :: t => readFrom (some c) (tokens ++ [.char c]) t
termination_by t.length
decreasing_by
  · simp
  · have := length_componentEnd ‹_›; simp only [List.length_cons]; omega
  · simp
  · have := length_bracket ‹_›; simp only [List.length_cons]; omega
  · simp

/-- How a comparison ends. `hopeless` means that no longer text can match either. -/
inductive Outcome where
  | found
  | failed
  | hopeless
deriving DecidableEq

/-- Tries to go on with `rest` behind every character of a text at which it may, and at its end. -/
def sweep (rest : Text → Outcome) (mayStop : Char → Bool) : Text → Outcome
  | [] => rest []
  | c :: t =>
    if mayStop c then
      match rest t with
      | .failed => sweep rest mayStop t
      | o => o
    else sweep rest mayStop t

/-- Takes one character that satisfies `p`. -/
def step (p : Char → Bool) (rest : Text → Outcome) : Text → Outcome
  | [] => .hopeless
  | c :: t => if p c then rest t else .failed

/-- Takes nothing or some characters. -/
def skip (rest : Text → Outcome) (mayStop : Char → Bool) (t : Text) : Outcome :=
  match rest t with
  | .failed => sweep rest mayStop t
  | o => o

/-- Compares a text with the tokens of a pattern. -/
def compare : List Token → Text → Outcome
  | [], [] => .found
  | [], _ :: _ => .failed
  | .char c :: ts, t => step (· == c) (compare ts) t
  | .any :: ts, t => step (fun _ => true) (compare ts) t
  | .within rs :: ts, t => step (isIn rs) (compare ts) t
  | .except rs :: ts, t => step (!isIn rs ·) (compare ts) t
  | .star :: ts, t => skip (compare ts) (fun _ => true) t
  | .components :: ts, t => skip (compare ts) (· == '/') t

end Pattern

/-- A pattern for paths. -/
structure Pattern where
  tokens : List Pattern.Token
deriving DecidableEq

namespace Pattern

/-- Reads a pattern. More than two stars in a row, two stars inside a component and an unclosed bracket are
refused. -/
def read? (t : Text) : Option Pattern := (readFrom none [] t).map fun tokens => { tokens }

/-- Whether a text matches a pattern. -/
def isMatch (p : Pattern) (t : Text) : Bool := compare p.tokens t == .found

end Pattern

end Reprint
