import TreeMarkup.Binary64
import TreeMarkup.Fields

namespace TreeMarkup

inductive Number where
  | whole (value : Int)
  | float (value : Binary64)
deriving DecidableEq, Repr, Inhabited

inductive Json where
  | null
  | bool (value : Bool)
  | number (value : Number)
  | string (value : String)
  | array (items : Array Json)
  | object (members : List (String × Json))
deriving BEq, Inhabited

namespace Number

def same : Number → Number → Bool
  | .whole m, .whole n => m == n
  | .float x, .float y => x.sameValue y
  | _, _ => false

end Number

namespace Json

abbrev Members := Fields Json

def string? : Json → Option String
  | .string s => some s
  | _ => none

def members? : Json → Option Members
  | .object ms => some ms
  | _ => none

@[inline] def members : Json → Members
  | .object ms => ms
  | _ => []

@[inline] def items : Json → Array Json
  | .array xs => xs
  | _ => #[]

def kind : Json → String
  | .null => "null"
  | .bool _ => "a boolean"
  | .number _ => "a number"
  | .string _ => "a string"
  | .array _ => "an array"
  | .object _ => "an object"

mutual

def same : Json → Json → Bool
  | .null, .null => true
  | .bool a, .bool b => a == b
  | .number a, .number b => a.same b
  | .string a, .string b => a == b
  | .array ⟨xs⟩, .array ys => xs.length == ys.size && sameItems xs ys.toList
  | .object ms, .object ns => ms.length == ns.length && sameMembers ms ns
  | _, _ => false

def sameItems : List Json → List Json → Bool
  | x :: xs, y :: ys => same x y && sameItems xs ys
  | _, _ => true

def sameMembers : List (String × Json) → Members → Bool
  | (name, value) :: rest, ns =>
    (match Fields.get? ns name with
      | some other => same value other
      | none => false) && sameMembers rest ns
  | [], _ => true

end

end Json
end TreeMarkup
