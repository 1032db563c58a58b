import TreeMarkup.Json.Numeral

/-!
JSON documents as written: numerals, escapes and repeated names are kept. Reading a document checks the
grammar and nothing else; what the document means is a second step.
-/

namespace TreeMarkup.Json

inductive Piece where
  | char (c : Char)
  | unit (u : Nat)
deriving DecidableEq, Repr

abbrev Quoted := List Piece

inductive Document where
  | null
  | bool (value : Bool)
  | number (numeral : Numeral)
  | string (text : Quoted)
  | array (items : List Document)
  | object (members : List (Quoted × Document))

inductive Fault where
  | unfinished
  | unexpected
  | trailing
  | control
  | escape
  | numeral
  | depth
  | range
  | surrogate
  | shape
deriving DecidableEq, Repr

def Fault.message : Fault → String
  | .unfinished => "the text ends too early"
  | .unexpected => "unexpected character"
  | .trailing => "characters after the value"
  | .control => "control character in a string"
  | .escape => "invalid escape"
  | .numeral => "invalid number"
  | .depth => "values are nested too deeply"
  | .range => "number out of range"
  | .surrogate => "unpaired surrogate"
  | .shape => "value of the wrong shape"

structure Stop where
  fault : Fault
  rest : List Char

namespace Document

abbrev Read (α : Type) := Except Stop (α × List Char)

def isBlank (c : Char) : Bool :=
  c == ' ' || c == '\t' || c == '\n' || c == '\r'

def skipBlank (cs : List Char) : List Char :=
  cs.dropWhile isBlank

def stop {α : Type} (fault : Fault) (rest : List Char) : Except Stop α :=
  .error ⟨if rest.isEmpty then .unfinished else fault, rest⟩

def word (value : Document) : List Char → List Char → Read Document
  | [], cs => .ok (value, cs)
  | w :: ws, c :: cs => if w = c then word value ws cs else stop .unexpected (c :: cs)
  | _ :: _, [] => stop .unexpected []

def hexValue (c : Char) : Option Nat :=
  if '0' ≤ c ∧ c ≤ '9' then some (c.toNat - '0'.toNat)
  else if 'a' ≤ c ∧ c ≤ 'f' then some (c.toNat - 'a'.toNat + 10)
  else if 'A' ≤ c ∧ c ≤ 'F' then some (c.toNat - 'A'.toNat + 10)
  else none

def unitValue (a b c d : Char) : Option Nat := do
  some ((((← hexValue a) * 16 + (← hexValue b)) * 16 + (← hexValue c)) * 16 + (← hexValue d))

def escapeOf : Char → Option Char
  | '"' => some '"'
  | '\\' => some '\\'
  | '/' => some '/'
  | 'b' => some '\x08'
  | 'f' => some '\x0c'
  | 'n' => some '\n'
  | 'r' => some '\r'
  | 't' => some '\t'
  | _ => none

def quoted (done : Quoted) : List Char → Read Quoted
  | [] => stop .unexpected []
  | '"' :: rest => .ok (done.reverse, rest)
  | '\\' :: 'u' :: a :: b :: c :: d :: rest =>
    match unitValue a b c d with
    | some u => quoted (.unit u :: done) rest
    | none => stop .escape (a :: b :: c :: d :: rest)
  | '\\' :: e :: rest =>
    match escapeOf e with
    | some c => quoted (.char c :: done) rest
    | none => stop .escape (e :: rest)
  | c :: rest =>
    if c = '\\' ∨ c.toNat < 0x20 then stop .control (c :: rest) else quoted (.char c :: done) rest

def digitsOf (cs : List Char) : List Char × List Char :=
  (cs.takeWhile Char.isDigit, cs.dropWhile Char.isDigit)

def someDigits (cs : List Char) : Read (List Char) :=
  let (ds, rest) := digitsOf cs
  if ds.isEmpty then stop .numeral rest else .ok (ds, rest)

def wholePart : List Char → Read (List Char)
  | '0' :: rest =>
    if (digitsOf rest).1.isEmpty then .ok (['0'], rest) else stop .numeral rest
  | cs => someDigits cs

def fractionPart : List Char → Read (Option (List Char))
  | '.' :: rest => (someDigits rest).map fun (ds, rest) => (some ds, rest)
  | cs => .ok (none, cs)

def natValue (ds : List Char) : Nat :=
  ds.foldl (fun n d => 10 * n + Numeral.digit d) 0

def exponentPart : List Char → Read (Option Int)
  | [] => .ok (none, [])
  | e :: cs =>
    if e = 'e' ∨ e = 'E' then
      let (negative, cs) := match cs with
        | '+' :: rest => (false, rest)
        | '-' :: rest => (true, rest)
        | cs => (false, cs)
      (someDigits cs).map fun (ds, rest) =>
        (some (if negative then -(natValue ds : Int) else natValue ds), rest)
    else .ok (none, e :: cs)

def numeral (cs : List Char) : Except Stop (Numeral × List Char) := do
  let (negative, cs) := match cs with
    | '-' :: rest => (true, rest)
    | cs => (false, cs)
  let (whole, cs) ← wholePart cs
  let (fraction, cs) ← fractionPart cs
  let (exponent, cs) ← exponentPart cs
  return (⟨negative, whole, fraction, exponent⟩, cs)

def scalar : List Char → Read Document
  | 'n' :: cs => word .null ['u', 'l', 'l'] cs
  | 't' :: cs => word (.bool true) ['r', 'u', 'e'] cs
  | 'f' :: cs => word (.bool false) ['a', 'l', 's', 'e'] cs
  | '"' :: cs => (quoted [] cs).map fun (s, rest) => (.string s, rest)
  | c :: cs =>
    if c = '-' ∨ c.isDigit then (numeral (c :: cs)).map fun (n, rest) => (.number n, rest)
    else stop .unexpected (c :: cs)
  | [] => stop .unexpected []

def name : List Char → Read Quoted
  | '"' :: cs =>
    match quoted [] cs with
    | .error e => .error e
    | .ok (name, rest) =>
      match skipBlank rest with
      | ':' :: rest => .ok (name, skipBlank rest)
      | rest => stop .unexpected rest
  | cs => stop .unexpected cs

mutual

/-- Reads one value at the start of the text. Any two steps of `fuel` take a character. -/
def value : Nat → List Char → Read Document
  | 0, cs => stop .unexpected cs
  | fuel + 1, '[' :: cs =>
    match skipBlank cs with
    | ']' :: rest => .ok (.array [], rest)
    | rest => items fuel [] rest
  | fuel + 1, '\x7b' :: cs =>
    match skipBlank cs with
    | '\x7d' :: rest => .ok (.object [], rest)
    | rest => members fuel [] rest
  | _ + 1, cs => scalar cs

def items : Nat → List Document → List Char → Read Document
  | 0, _, cs => stop .unexpected cs
  | fuel + 1, done, cs =>
    match value fuel cs with
    | .error e => .error e
    | .ok (item, rest) =>
      match skipBlank rest with
      | ',' :: rest => items fuel (item :: done) (skipBlank rest)
      | ']' :: rest => .ok (.array (item :: done).reverse, rest)
      | rest => stop .unexpected rest

def members : Nat → List (Quoted × Document) → List Char → Read Document
  | 0, _, cs => stop .unexpected cs
  | fuel + 1, done, cs =>
    match name cs with
    | .error e => .error e
    | .ok (name, rest) =>
      match value fuel rest with
      | .error e => .error e
      | .ok (item, rest) =>
        match skipBlank rest with
        | ',' :: rest => members fuel ((name, item) :: done) (skipBlank rest)
        | '\x7d' :: rest => .ok (.object ((name, item) :: done).reverse, rest)
        | rest => stop .unexpected rest

end

def ofChars (cs : List Char) : Except Stop Document :=
  match value (2 * cs.length + 2) (skipBlank cs) with
  | .error e => .error e
  | .ok (document, rest) =>
    match skipBlank rest with
    | [] => .ok document
    | rest => .error ⟨.trailing, rest⟩

end Document
end TreeMarkup.Json
