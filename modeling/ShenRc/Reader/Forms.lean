import ShenRc.KL.Read
import ShenRc.Ledger.Outstanding

/-! # The reader with its allocations

`read_form` once more, with what `KL.Read` leaves out: every request for memory may be refused, the
values that have been read are references to be released, and an error leaves a cursor behind. The
cursor is the rest of the string, the bytes before its terminator. What a token or a string denotes is
taken from `KL.Read`.

The reader calls itself for every item of a list, so the recursion is on a fuel, and a call that runs
out of it has no result. -/

namespace ShenRc.Reader

open Numeral KL

/-- The state of a context, as far as the reader goes: `refuse k` is the error of the `k`-th request to
the runtime or the allocator if it is refused, and the ledger has the references that were handed
out. -/
structure World where
  refuse : ℕ → Option Text
  tick : ℕ := 0
  error : Option Text := none
  ledger : Ledger := {}

/-- A value and the reference to it. -/
abbrev Item := Value × ℕ

namespace World

variable (w : World)

/-- `rc_error`. -/
def fail (message : Text) : World := { w with error := some message }

def release (item : Item) : World := { w with ledger := w.ledger.release item.2 }

/-- Release items from the first on. -/
def releaseAll (items : List Item) : World := items.foldl release w

/-- `rc_nil`. The reference is to no object, and is counted like the others. -/
def nil : Item × World := ((.nil, w.ledger.issued), { w with ledger := w.ledger.issue })

/-- A constructor of the runtime: the new value, or the runtime's error. -/
def make (v : Value) : Option Item × World :=
  match w.refuse w.tick with
  | none => (some (v, w.ledger.issued), { w with tick := w.tick + 1, ledger := w.ledger.issue })
  | some message => (none, { w with tick := w.tick + 1, error := some message })

/-- A request to the allocator, with the caller's error. -/
def malloc (message : Text) : Bool × World :=
  match w.refuse w.tick with
  | none => (true, { w with tick := w.tick + 1 })
  | some _ => (false, { w with tick := w.tick + 1, error := some message })

end World

/-- What a call returns, the cursor and the state it leaves. -/
structure Result where
  value : Option Item
  cursor : Text
  world : World

/-- `rc_error` at a cursor. -/
def fail (w : World) (message : String) (cursor : Text) : Result :=
  ⟨none, cursor, w.fail (ascii message)⟩

/-- `escaped_string` on the text after the opening quote. -/
def escapedString (p : Text) (w : World) : Result :=
  match stringEnd p with
  | none => fail w "KLambda escaped reader: unclosed string" p
  | some (text, rest) =>
    match w.malloc (ascii "KLambda escaped reader: out of memory") with
    | (false, w) => ⟨none, p, w⟩
    | (true, w) =>
      match unescape text with
      | none => fail w "KLambda escaped reader: invalid byte escape" rest
      | some bytes => ⟨(w.make (.string bytes)).1, rest, (w.make (.string bytes)).2⟩

/-- The bytes of a string. -/
def textOf : Value → Text
  | .string s => s
  | _ => []

/-- A quoted symbol, on the text after the opening quote. -/
def quotedSymbol (p : Text) (w : World) : Result :=
  let r := escapedString p w
  match r.value with
  | none => r
  | some text =>
    if 0 ∈ textOf text.1 then
      { fail r.world "KLambda escaped reader: symbol contains zero byte" r.cursor with
        world := (r.world.fail (ascii "KLambda escaped reader: symbol contains zero byte")).release
          text }
    else
      let made := r.world.make (.symbol (textOf text.1))
      ⟨made.1, r.cursor, made.2.release text⟩

/-- A string that is not escaped, on the text after the opening quote. -/
def rawString (p : Text) (w : World) : Result :=
  match p.dropWhile (· != 34) with
  | [] => fail w "KLambda reader: unclosed string" []
  | _ :: rest =>
    let made := w.make (.string (p.takeWhile (· != 34)))
    ⟨made.1, rest, made.2⟩

/-- A token: a number, or else a symbol. -/
def token (libc : Libc) (p : Text) (w : World) : Result :=
  let rest := p.dropWhile isTokenChar
  match w.malloc (ascii "KLambda reader: out of memory") with
  | (false, w) => ⟨none, rest, w⟩
  | (true, w) =>
    match tokenValue libc (p.takeWhile isTokenChar) rest with
    | .form value _ => ⟨(w.make value).1, rest, (w.make value).2⟩
    | .error message => ⟨none, rest, w.fail message⟩
    | .eof => ⟨none, rest, w⟩

/-- Room for one more item in an array that starts with `first` slots: its new capacity. -/
def grow (first : ℕ) (large full : String) (item : Item) (count capacity : ℕ) (w : World) :
    Option ℕ × World :=
  if count = capacity then
    if 1152921504606846975 < capacity then (none, (w.release item).fail (ascii large))
    else
      match w.malloc (ascii full) with
      | (true, w) => (some (if capacity = 0 then first else capacity * 2), w)
      | (false, w) => (none, w.release item)
  else (some capacity, w)

/-- Room for one more item of a list. -/
def growItems : Item → ℕ → ℕ → World → Option ℕ × World :=
  grow 16 "KLambda reader: list too large" "KLambda reader: out of memory"

/-- The end of a list: the items, the last first, are put in front of the result one by one. -/
def consItems : List Item → Item → World → Option Item × World
  | [], result, w => (some result, w)
  | item :: items, result, w =>
    let made := w.make (.pair item.1 result.1)
    let w := (made.2.release item).release result
    match made.1 with
    | some next => consItems items next w
    | none => (none, w.releaseAll items)

mutual

/-- `read_form`. -/
def readForm (libc : Libc) (escaped : Bool) : ℕ → ℕ → Text → World → Option Result
  | 0, _, _, _ => none
  | fuel + 1, depth, p, w =>
    match whitespace p with
    | [] => some ⟨none, [], w⟩
    | c :: r =>
      if 2048 < depth then some (fail w "KLambda reader: nesting exceeds 2048" (c :: r))
      else if c = 41 then some (fail w "KLambda reader: unexpected ')'" (c :: r))
      else if c = 40 then readItems libc escaped fuel (depth + 1) r [] 0 w
      else if escaped && (c :: r).take 5 == [35, 115, 121, 109, 34] then
        some (quotedSymbol (r.drop 4) w)
      else if c = 34 then some (if escaped then escapedString r w else rawString r w)
      else some (token libc (c :: r) w)

/-- The items of a list up to its closing parenthesis; `items` holds those already read, the last
first. -/
def readItems (libc : Libc) (escaped : Bool) :
    ℕ → ℕ → Text → List Item → ℕ → World → Option Result
  | 0, _, _, _, _, _ => none
  | fuel + 1, depth, p, items, capacity, w =>
    match whitespace p with
    | [] =>
      some { fail w "KLambda reader: unclosed list" [] with
        world := (w.fail (ascii "KLambda reader: unclosed list")).releaseAll items }
    | c :: r =>
      if c = 41 then
        let made := consItems items w.nil.1 w.nil.2
        some ⟨made.1, r, made.2⟩
      else
        (readForm libc escaped fuel depth (c :: r) w).bind fun read =>
          match read.value with
          | none => some ⟨none, read.cursor, read.world.releaseAll items⟩
          | some item =>
            match growItems item items.length capacity read.world with
            | (some capacity, w) =>
              readItems libc escaped fuel depth read.cursor (item :: items) capacity w
            | (none, w) => some ⟨none, read.cursor, w.releaseAll items⟩

end

/-- The start of `rc_read` and `rc_read_escaped`; a null source is `none`, and then there is no cursor
to leave. -/
def readSource (libc : Libc) (escaped : Bool) (message : String) (source : Option Text) (w : World) :
    Option Result :=
  match source with
  | none => some (fail w message [])
  | some p => readForm libc escaped (2 * p.length + 1) 0 p w

def rcRead (libc : Libc) (source : Option Text) (w : World) : Option Result :=
  readSource libc false "KLambda reader: null source" source w

def rcReadEscaped (libc : Libc) (source : Option Text) (w : World) : Option Result :=
  readSource libc true "KLambda escaped reader: null source" source w

end ShenRc.Reader
