import Minterm.Json.Basic

/-! Splitting a JSON text into brackets, colons, commas and the values that contain no other value. -/

namespace Minterm.Json

inductive Lexeme where
  /-- One of `\x7b \x7d [ ] : ,`. -/
  | mark (c : Char)
  /-- `null`, a Boolean, a number or a string. -/
  | atom (value : Json)
  deriving Inhabited, Repr

def isBlank (c : Char) : Bool := c == ' ' || c == '\t' || c == '\n' || c == '\r'

def isMark (c : Char) : Bool := ['{', '}', '[', ']', ':', ','].contains c

/-! ### Strings -/

def hexDigit? (c : Char) : Option Nat :=
  if c.isDigit then some (c.toNat - '0'.toNat)
  else if 'a' ≤ c ∧ c ≤ 'f' then some (c.toNat - 'a'.toNat + 10)
  else if 'A' ≤ c ∧ c ≤ 'F' then some (c.toNat - 'A'.toNat + 10)
  else none

/-- A code unit of four hexadecimal digits, and what follows it. -/
def codeUnit? : List Char → Option (Nat × List Char)
  | a :: b :: c :: d :: rest => do
    let a ← hexDigit? a
    let b ← hexDigit? b
    let c ← hexDigit? c
    let d ← hexDigit? d
    return (((16 * a + b) * 16 + c) * 16 + d, rest)
  | _ => none

def isHighSurrogate (n : Nat) : Bool := 0xd800 ≤ n && n < 0xdc00

def isLowSurrogate (n : Nat) : Bool := 0xdc00 ≤ n && n < 0xe000

/-- The escapes of one letter. -/
def shortEscape? : Char → Option Char
  | '"' => some '"'
  | '\\' => some '\\'
  | '/' => some '/'
  | 'b' => some '\x08'
  | 'f' => some '\x0c'
  | 'n' => some '\n'
  | 'r' => some '\r'
  | 't' => some '\t'
  | _ => none

/-- The character with the given surrogates. -/
def ofSurrogates (high low : Nat) : Char := Char.ofNat (0x10000 + (high - 0xd800) * 0x400 + (low - 0xdc00))

/-- The character of a high surrogate and the escaped low surrogate that has to follow it. -/
def surrogatePair? (high : Nat) : List Char → Option (Char × List Char)
  | '\\' :: 'u' :: rest =>
    match codeUnit? rest with
    | some (low, rest) => if isLowSurrogate low then some (ofSurrogates high low, rest) else none
    | none => none
  | _ => none

/-- The character of an escape by code unit whose `u` has been read, and what follows it. Surrogates are
    valid in pairs only. -/
def unicodeEscape? (cs : List Char) : Option (Char × List Char) :=
  match codeUnit? cs with
  | some (n, rest) =>
    if isHighSurrogate n then surrogatePair? n rest
    else if isLowSurrogate n then none
    else some (Char.ofNat n, rest)
  | none => none

/-- The character of an escape whose backslash has been read, and what follows it. -/
def escape? : List Char → Option (Char × List Char)
  | [] => none
  | c :: rest => if c == 'u' then unicodeEscape? rest else (shortEscape? c).map fun c => (c, rest)

theorem length_of_codeUnit? {cs rest : List Char} {n : Nat} (h : codeUnit? cs = some (n, rest)) :
    rest.length < cs.length := by
  unfold codeUnit? at h
  split at h
  · simp only [Option.bind_eq_bind, Option.bind_eq_some_iff, Option.pure_def, Option.some.injEq,
      Prod.mk.injEq] at h
    obtain ⟨_, -, _, -, _, -, _, -, -, rfl⟩ := h
    simp only [List.length_cons]
    omega
  · cases h

theorem length_of_surrogatePair? {high : Nat} {cs rest : List Char} {c : Char}
    (h : surrogatePair? high cs = some (c, rest)) : rest.length < cs.length := by
  unfold surrogatePair? at h
  split at h
  · split at h
    · rename_i hunit
      have hlt := length_of_codeUnit? hunit
      split at h
      · simp only [Option.some.injEq, Prod.mk.injEq] at h
        obtain ⟨-, rfl⟩ := h
        simp only [List.length_cons]
        omega
      · cases h
    · cases h
  · cases h

theorem length_of_unicodeEscape? {cs rest : List Char} {c : Char} (h : unicodeEscape? cs = some (c, rest)) :
    rest.length < cs.length := by
  unfold unicodeEscape? at h
  split at h
  · rename_i hunit
    have hlt := length_of_codeUnit? hunit
    split at h
    · have := length_of_surrogatePair? h
      omega
    · split at h
      · cases h
      · simp only [Option.some.injEq, Prod.mk.injEq] at h
        obtain ⟨-, rfl⟩ := h
        exact hlt
  · cases h

theorem length_of_escape? {cs rest : List Char} {c : Char} (h : escape? cs = some (c, rest)) :
    rest.length < cs.length := by
  cases cs with
  | nil => cases h
  | cons d ds =>
    simp only [escape?] at h
    rw [List.length_cons]
    split at h
    · have := length_of_unicodeEscape? h
      omega
    · obtain ⟨x, -, heq⟩ := Option.map_eq_some_iff.mp h
      cases heq
      exact Nat.lt_succ_self _

/-- The characters up to the closing quote, and what follows it. -/
def scanString (cs : List Char) : Option (List Char × List Char) :=
  match cs with
  | [] => none
  | '"' :: rest => some ([], rest)
  | '\\' :: rest =>
    match _h : escape? rest with
    | none => none
    | some (c, rest') => (scanString rest').map fun (s, after) => (c :: s, after)
  | c :: rest =>
    if c.toNat < 0x20 then none
    else (scanString rest).map fun (s, after) => (c :: s, after)
termination_by cs.length
decreasing_by
  · have := length_of_escape? _h
    simp only [List.length_cons]
    omega
  · simp

/-! ### Numbers -/

def isNumberChar (c : Char) : Bool := c.isDigit || ['+', '-', '.', 'e', 'E'].contains c

/-- No digit or a zero in front, unless the number is zero. -/
def isIntegerPart (cs : List Char) : Bool :=
  match cs with
  | [] => false
  | '0' :: rest => rest.isEmpty
  | _ => true

/-- Digits, and at least one. -/
def isDigits (cs : List Char) : Bool := !cs.isEmpty && cs.all Char.isDigit

/-- Nothing, or `e` with an optional sign and digits. -/
def isExponent : List Char → Bool
  | [] => true
  | e :: rest =>
    (e == 'e' || e == 'E') &&
      match rest with
      | '+' :: digits | '-' :: digits => isDigits digits
      | digits => isDigits digits

/-- Nothing or a point with digits, then an exponent. -/
def isFraction : List Char → Bool
  | '.' :: rest => !(rest.takeWhile Char.isDigit).isEmpty && isExponent (rest.dropWhile Char.isDigit)
  | rest => isExponent rest

def isNumber (cs : List Char) : Bool :=
  let unsigned := match cs with
    | '-' :: rest => rest
    | _ => cs
  isIntegerPart (unsigned.takeWhile Char.isDigit) && isFraction (unsigned.dropWhile Char.isDigit)

/-! ### Lexemes -/

def word? (cs : List Char) : Option Json :=
  if cs = "null".toList then some .null
  else if cs = "true".toList then some (.bool true)
  else if cs = "false".toList then some (.bool false)
  else none

/-- The lexeme that begins with `c`, and what follows it. -/
def lexeme? (c : Char) (cs : List Char) : Option (Lexeme × List Char) :=
  if isMark c then some (.mark c, cs)
  else if c == '"' then (scanString cs).map fun (s, rest) => (.atom (.string (String.ofList s)), rest)
  else if isNumberChar c then
    let number := c :: cs.takeWhile isNumberChar
    if isNumber number then some (.atom (.number (String.ofList number)), cs.dropWhile isNumberChar) else none
  else (word? (c :: cs.takeWhile Char.isAlpha)).map fun value => (.atom value, cs.dropWhile Char.isAlpha)

theorem length_of_scanString {cs s rest : List Char} (h : scanString cs = some (s, rest)) :
    rest.length < cs.length := by
  fun_induction scanString cs generalizing s rest with
  | case1 => cases h
  | case2 =>
    cases h
    exact Nat.lt_succ_self _
  | case3 => cases h
  | case4 _ c after hesc ih =>
    have hlt := length_of_escape? hesc
    obtain ⟨⟨s', r⟩, hs, heq⟩ := Option.map_eq_some_iff.mp h
    cases heq
    have := ih hs
    simp only [List.length_cons]
    omega
  | case5 => cases h
  | case6 c after _ _ _ ih =>
    obtain ⟨⟨s', r⟩, hs, heq⟩ := Option.map_eq_some_iff.mp h
    cases heq
    have := ih hs
    rw [List.length_cons]
    omega

theorem length_of_lexeme? {c : Char} {cs rest : List Char} {l : Lexeme} (h : lexeme? c cs = some (l, rest)) :
    rest.length ≤ cs.length := by
  unfold lexeme? at h
  split at h
  · cases h
    exact Nat.le_refl _
  · split at h
    · obtain ⟨⟨s, r⟩, hs, heq⟩ := Option.map_eq_some_iff.mp h
      cases heq
      exact Nat.le_of_lt (length_of_scanString hs)
    · split at h
      · dsimp only at h
        split at h
        · cases h
          exact (List.dropWhile_sublist _).length_le
        · cases h
      · obtain ⟨v, -, heq⟩ := Option.map_eq_some_iff.mp h
        cases heq
        exact (List.dropWhile_sublist _).length_le

/-- The lexemes of a text, if it consists of them. -/
def lexemes (cs : List Char) : Option (List Lexeme) :=
  match cs with
  | [] => some []
  | c :: rest =>
    if isBlank c then lexemes rest
    else
      match _h : lexeme? c rest with
      | some (l, rest') => (lexemes rest').map (l :: ·)
      | none => none
termination_by cs.length
decreasing_by
  · simp
  · have := length_of_lexeme? _h
    simp only [List.length_cons]
    omega

end Minterm.Json
