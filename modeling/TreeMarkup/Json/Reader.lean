import TreeMarkup.Fields.Index
import TreeMarkup.Json.Document

namespace TreeMarkup.Json

structure ReadError where
  fault : Fault
  line : Nat
  column : Nat
deriving DecidableEq, Repr

namespace ReadError

def message (e : ReadError) : String :=
  e.fault.message ++ " at line " ++ Nat.repr e.line ++ " column " ++ Nat.repr e.column

def locate (fault : Fault) (text : List Char) (left : Nat) : ReadError :=
  let before := text.take (text.length - left)
  ⟨fault, before.count '\n' + 1, (before.reverse.takeWhile (· ≠ '\n')).length⟩

end ReadError

def isHigh (u : Nat) : Bool := 0xD800 ≤ u && u < 0xDC00
def isLow (u : Nat) : Bool := 0xDC00 ≤ u && u < 0xE000

def Quoted.chars? : Quoted → Option (List Char)
  | [] => some []
  | .char c :: rest => (chars? rest).map (c :: ·)
  | .unit u :: .unit v :: rest =>
    if isHigh u && isLow v then
      (chars? rest).map (Char.ofNat (0x10000 + (u - 0xD800) * 0x400 + (v - 0xDC00)) :: ·)
    else if isHigh u || isLow u then none
    else (chars? (.unit v :: rest)).map (Char.ofNat u :: ·)
  | .unit u :: rest =>
    if isHigh u || isLow u then none else (chars? rest).map (Char.ofNat u :: ·)

def Quoted.text? (q : Quoted) : Except Fault String :=
  match chars? q with
  | some cs => .ok (String.ofList cs)
  | none => .error .surrogate

namespace Document

def maxDepth : Nat := 127

mutual

def valueWithin (room : Nat) : Document → Except Fault Json
  | .null => .ok .null
  | .bool b => .ok (.bool b)
  | .number n =>
    match n.number? with
    | some n => .ok (.number n)
    | none => .error .range
  | .string s => (Quoted.text? s).map .string
  | .array items =>
    if room = 0 then .error .depth else (itemsWithin (room - 1) #[] items).map .array
  | .object members =>
    if room = 0 then .error .depth
    else (membersWithin (room - 1) #[] members).map fun ms => .object (Fields.ofList ms.toList)

def itemsWithin (room : Nat) (done : Array Json) : List Document → Except Fault (Array Json)
  | [] => .ok done
  | item :: rest =>
    match valueWithin room item with
    | .error e => .error e
    | .ok value => itemsWithin room (done.push value) rest

def membersWithin (room : Nat) (done : Array (String × Json)) :
    List (Quoted × Document) → Except Fault (Array (String × Json))
  | [] => .ok done
  | (name, item) :: rest =>
    match Quoted.text? name with
    | .error e => .error e
    | .ok name =>
      match valueWithin room item with
      | .error e => .error e
      | .ok value => membersWithin room (done.push (name, value)) rest

end

def value? (document : Document) : Except Fault Json :=
  valueWithin maxDepth document

def readAs {α : Type} (meaning : Document → Except Fault α) (text : String) : Except ReadError α :=
  let cs := text.toList
  match ofChars cs with
  | .error e => .error (ReadError.locate e.fault cs e.rest.length)
  | .ok document =>
    match meaning document with
    | .error fault => .error (ReadError.locate fault cs 0)
    | .ok value => .ok value

end Document

def read (text : String) : Except ReadError Json :=
  Document.readAs Document.value? text

end TreeMarkup.Json
