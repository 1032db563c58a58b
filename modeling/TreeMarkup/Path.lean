/-!
Locations in a tree. A path is a list of steps, read from the root; its text joins keys with `.` and
writes indices in brackets, as in `children[1].title`. Reading accepts non-empty keys free of `.`, `[`
and `]`, each followed by any number of indices.
-/

namespace TreeMarkup

inductive Step where
  | key (name : String)
  | index (i : Nat)
deriving DecidableEq, Repr

abbrev Path := List Step

def maxIndex : Nat := 65535

inductive PathFault where
  | emptyPath
  | emptyKey
  | indexFirst
  | unterminated
  | notAnIndex
  | outOfRange
  | unbalanced
  | afterIndex
  | trailingDot
  | tooManyItems
deriving DecidableEq, Repr

inductive PathError where
  | delimiter (key : String)
  | emptyKey (parent : Path)
  | invalid (path : String) (fault : PathFault)
deriving DecidableEq, Repr

namespace Path

def child (path : Path) (key : String) : Path := path ++ [.key key]
def index (path : Path) (i : Nat) : Path := path ++ [.index i]

def indexChars (i : Nat) : List Char :=
  '[' :: (Nat.toDigits 10 i ++ [']'])

def tailChars : Path → List Char
  | [] => []
  | .key name :: rest => '.' :: (name.toList ++ tailChars rest)
  | .index i :: rest => indexChars i ++ tailChars rest

def chars : Path → List Char
  | .key name :: rest => name.toList ++ tailChars rest
  | path => tailChars path

def text (path : Path) : String :=
  String.ofList (chars path)

end Path

namespace PathFault

def message : PathFault → String
  | .emptyPath => "empty path"
  | .emptyKey => "empty key segment"
  | .indexFirst => "index must follow a key"
  | .unterminated => "unterminated `[`"
  | .notAnIndex => "array index must be a non-negative integer"
  | .outOfRange => "array index out of range"
  | .unbalanced => "unbalanced `]`"
  | .afterIndex => "expected `.` or `[` after an index"
  | .trailingDot => "trailing `.`"
  | .tooManyItems => "array holds more than " ++ Nat.repr (maxIndex + 1) ++ " items"

end PathFault

namespace PathError

def message : PathError → String
  | .delimiter key => "Key `" ++ key ++ "` contains a reserved path delimiter (one of `.`, `[`, `]`)"
  | .emptyKey parent => "Empty key under `" ++ Path.text parent ++ "`"
  | .invalid path fault => "Invalid path `" ++ path ++ "`: " ++ fault.message

end PathError

namespace Path

def isDelimiter (c : Char) : Bool :=
  c == '.' || c == '[' || c == ']'

def checkKey (key : String) (parent : Path) : Except PathError Unit :=
  if key.isEmpty then .error (.emptyKey parent)
  else if key.toList.any isDelimiter then .error (.delimiter key)
  else .ok ()

def isBounded (path : Path) : Bool :=
  path.all fun
    | .key _ => true
    | .index i => i ≤ maxIndex

/-- Where reading stands: before a key, inside one, inside brackets, or behind them. Characters read
so far are held last first. -/
inductive Place where
  | beforeKey
  | inKey (read : List Char)
  | inIndex (read : List Char)
  | afterIndex

def indexOf (digits : List Char) : Except PathFault Nat :=
  if digits.isEmpty || !digits.all Char.isDigit then .error .notAnIndex
  else
    let i := digits.foldl (fun n d => 10 * n + (d.toNat - '0'.toNat)) 0
    if i ≤ maxIndex then .ok i else .error .outOfRange

def steps : Place → List Char → Except PathFault Path
  | .beforeKey, [] => .error .trailingDot
  | .beforeKey, c :: cs =>
    if c = '.' then .error .emptyKey
    else if c = '[' then .error .indexFirst
    else if c = ']' then .error .unbalanced
    else steps (.inKey [c]) cs
  | .inKey read, [] => .ok [.key (String.ofList read.reverse)]
  | .inKey read, c :: cs =>
    if c = '.' then (steps .beforeKey cs).map (.key (String.ofList read.reverse) :: ·)
    else if c = '[' then (steps (.inIndex []) cs).map (.key (String.ofList read.reverse) :: ·)
    else if c = ']' then .error .unbalanced
    else steps (.inKey (c :: read)) cs
  | .inIndex _, [] => .error .unterminated
  | .inIndex read, c :: cs =>
    if c = ']' then
      match indexOf read.reverse with
      | .error fault => .error fault
      | .ok i => (steps .afterIndex cs).map (.index i :: ·)
    else steps (.inIndex (c :: read)) cs
  | .afterIndex, [] => .ok []
  | .afterIndex, c :: cs =>
    if c = '.' then steps .beforeKey cs
    else if c = '[' then steps (.inIndex []) cs
    else if c = ']' then .error .unbalanced
    else .error .afterIndex

def parse (text : String) : Except PathError Path :=
  match if text.isEmpty then .error .emptyPath else steps .beforeKey text.toList with
  | .error fault => .error (.invalid text fault)
  | .ok path => .ok path

end Path
end TreeMarkup
