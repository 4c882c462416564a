import ShenRc.KL.Value

/-! # The KLambda reader

`read_form` over the rest of a C string, that is, the bytes before its terminator. The reader calls
itself for every item of a list, and a list may have any number of items, so the recursion is on a
fuel; every call takes a character, and `rcReadEscaped` starts with more fuel than there are
characters. Allocation does not fail here.

The C library's `strtod` is a parameter: `Libc`, with what the reader and the writer of KL rely on in
`Libc.Conforms`. -/

namespace ShenRc.KL

open Numeral

/-! ### Characters and numerals -/

/-- `isspace` in the C locale. -/
def isSpace (c : UInt8) : Bool := c == 32 || (9 ≤ c && c ≤ 13)

def whitespace (p : Text) : Text := p.dropWhile isSpace

/-- A character that does not end a token. -/
def isTokenChar (c : UInt8) : Bool := !isSpace c && c != 40 && c != 41 && c != 34

def dropSign : Text → Text
  | 43 :: r => r
  | 45 :: r => r
  | p => p

/-- The digits after a decimal point, if one is next. -/
def fraction : Text → Text × Text
  | 46 :: r => (r.takeWhile isDigit, r.dropWhile isDigit)
  | p => ([], p)

/-- Nothing, or an exponent and then nothing. -/
def exponentEnd : Text → Bool
  | [] => true
  | c :: r =>
    (c == 101 || c == 69) && !((dropSign r).takeWhile isDigit).isEmpty
      && ((dropSign r).dropWhile isDigit).isEmpty

def decimalToken (p : Text) : Bool :=
  let p := dropSign p
  let f := fraction (p.dropWhile isDigit)
  !((p.takeWhile isDigit).isEmpty && f.1.isEmpty) && exponentEnd f.2

/-- What `strtod` returns: the value, how many characters it took, and whether it set `ERANGE`. -/
structure Strtod where
  value : Double
  taken : Nat
  erange : Bool

/-- The floating-point conversions of the C library. -/
structure Libc where
  formatG17 : Double → Text
  strtod : Text → Strtod

/-- What `strtoll` returns: the value, clipped to the type, how many characters it took, and whether
it set `ERANGE`. -/
structure Strtoll where
  value : {k : Int // IsInt64 k}
  taken : Nat
  erange : Bool

/-- `strtoll` in base ten, on a text that does not start with a space. -/
def strtoll (p : Text) : Strtoll :=
  let digits := (dropSign p).takeWhile isDigit
  let taken := p.length - (dropSign p).length + digits.length
  let k : Int := if p.head? = some 45 then -decimalValue digits else decimalValue digits
  if digits.isEmpty then ⟨⟨0, by decide⟩, 0, false⟩
  else if h : IsInt64 k then ⟨⟨k, h⟩, taken, false⟩
  else if k < 0 then ⟨⟨-2 ^ 63, by decide⟩, taken, true⟩
  else ⟨⟨2 ^ 63 - 1, by decide⟩, taken, true⟩

/-! ### Strings -/

def hexDigit (c : UInt8) : Option UInt8 :=
  if 48 ≤ c && c ≤ 57 then some (c - 48)
  else if 97 ≤ c && c ≤ 102 then some (c - 97 + 10)
  else if 65 ≤ c && c ≤ 70 then some (c - 65 + 10)
  else none

/-- The text up to the closing quote, and the text after it; a backslash takes the next character
with it. -/
def stringEnd : Text → Option (Text × Text)
  | [] => none
  | 34 :: r => some ([], r)
  | 92 :: c :: r => (stringEnd r).map fun p => (92 :: c :: p.1, p.2)
  | c :: r => (stringEnd r).map fun p => (c :: p.1, p.2)

/-- The bytes the text of a string denotes. -/
def unescape : Text → Option Text
  | [] => some []
  | [92] => some [34]
  | 92 :: 120 :: a :: b :: r => do
    let hi ← hexDigit a
    let lo ← hexDigit b
    let s ← unescape r
    some ((hi * 16 + lo) :: s)
  | 92 :: c :: r => do
    let byte ← match c with
      | 110 => some 10
      | 114 => some 13
      | 116 => some 9
      | 98 => some 8
      | 102 => some 12
      | 92 => some 92
      | 34 => some 34
      | _ => none
    let s ← unescape r
    some (byte :: s)
  | c :: r => (unescape r).map (c :: ·)

/-! ### Forms -/

inductive Read where
  | eof
  | error (message : Text)
  | form (value : Value) (rest : Text)

/-- `escaped_string` on the text after the opening quote. -/
def escapedString (p : Text) (result : Text → Text → Read) : Read :=
  match stringEnd p with
  | none => .error (ascii "KLambda escaped reader: unclosed string")
  | some (text, rest) =>
    match unescape text with
    | none => .error (ascii "KLambda escaped reader: invalid byte escape")
    | some bytes => result bytes rest

/-- A quoted symbol. -/
def quotedSymbol (name rest : Text) : Read :=
  if 0 ∈ name then .error (ascii "KLambda escaped reader: symbol contains zero byte")
  else .form (.symbol name) rest

/-- A string that is not escaped. -/
def rawString (p : Text) : Read :=
  match p.dropWhile (· != 34) with
  | [] => .error (ascii "KLambda reader: unclosed string")
  | _ :: rest => .form (.string (p.takeWhile (· != 34))) rest

/-- A token: a number, or else a symbol. -/
def tokenValue (libc : Libc) (token rest : Text) : Read :=
  let number := libc.strtod token
  if decimalToken token && number.taken != 0 && number.taken == token.length then
    if number.erange && (number.value.isZero || !number.value.isFinite) then
      .error (ascii "KLambda reader: number out of range: " ++ token)
    else
      let integer := strtoll token
      if !integer.erange && integer.taken != 0 && integer.taken == token.length then
        .form (.number (.exact integer.value)) rest
      else .form (.number (.real number.value)) rest
  else .form (.symbol token) rest

mutual

def readForm (libc : Libc) (escaped : Bool) : Nat → Nat → Text → Read
  | 0, _, _ => .error (ascii "KLambda reader: out of fuel")
  | fuel + 1, depth, p =>
    match whitespace p with
    | [] => .eof
    | c :: r =>
      if 2048 < depth then .error (ascii "KLambda reader: nesting exceeds 2048")
      else if c = 41 then .error (ascii "KLambda reader: unexpected ')'")
      else if c = 40 then readItems libc escaped fuel (depth + 1) r []
      else if escaped && (c :: r).take 5 == [35, 115, 121, 109, 34] then
        escapedString (r.drop 4) quotedSymbol
      else if c = 34 then
        if escaped then escapedString r fun bytes rest => .form (.string bytes) rest
        else rawString r
      else
        tokenValue libc ((c :: r).takeWhile isTokenChar) ((c :: r).dropWhile isTokenChar)

/-- The items of a list up to its closing parenthesis; `items` holds those already read, the last
first. -/
def readItems (libc : Libc) (escaped : Bool) : Nat → Nat → Text → List Value → Read
  | 0, _, _, _ => .error (ascii "KLambda reader: out of fuel")
  | fuel + 1, depth, p, items =>
    match whitespace p with
    | [] => .error (ascii "KLambda reader: unclosed list")
    | c :: r =>
      if c = 41 then .form (items.foldl (fun result item => .pair item result) .nil) r
      else
        match readForm libc escaped fuel depth (c :: r) with
        | .form item rest => readItems libc escaped fuel depth rest (item :: items)
        | result => result

end

def rcRead (libc : Libc) (source : Text) : Read :=
  readForm libc false (2 * source.length + 1) 0 source

/-- **One form of an escaped source.** -/
def rcReadEscaped (libc : Libc) (source : Text) : Read :=
  readForm libc true (2 * source.length + 1) 0 source

end ShenRc.KL
