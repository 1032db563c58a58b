import TreeMarkup.Fields.Index
import TreeMarkup.Json
import TreeMarkup.Path

/-!
Trees and their flat form, which lists every leaf under the text of its path. Leaves are scalars and
empty containers.
-/

namespace TreeMarkup

abbrev FlatTree := Fields Json

namespace FlatTree

mutual

def fault? (path : Path) : Json → Option PathError
  | .object members => memberFault? path members
  | .array ⟨items⟩ =>
    if maxIndex + 1 < items.length then some (.invalid (Path.text path) .tooManyItems)
    else itemFault? path 0 items
  | _ => none

def memberFault? (path : Path) : List (String × Json) → Option PathError
  | [] => none
  | (key, value) :: rest =>
    match Path.checkKey key path with
    | .error e => some e
    | .ok () =>
      match fault? (path.child key) value with
      | some e => some e
      | none => memberFault? path rest

def itemFault? (path : Path) (i : Nat) : List Json → Option PathError
  | [] => none
  | item :: rest =>
    match fault? (path.index i) item with
    | some e => some e
    | none => itemFault? path (i + 1) rest

end

mutual

def pushLeaves (path : Path) (leaves : Array (Path × Json)) : Json → Array (Path × Json)
  | .object members =>
    if members.isEmpty then leaves.push (path, .object []) else pushMembers path leaves members
  | .array ⟨items⟩ =>
    if items.isEmpty then leaves.push (path, .array #[]) else pushItems path 0 leaves items
  | leaf => leaves.push (path, leaf)

def pushMembers (path : Path) (leaves : Array (Path × Json)) :
    List (String × Json) → Array (Path × Json)
  | [] => leaves
  | (key, value) :: rest => pushMembers path (pushLeaves (path.child key) leaves value) rest

def pushItems (path : Path) (i : Nat) (leaves : Array (Path × Json)) :
    List Json → Array (Path × Json)
  | [] => leaves
  | item :: rest => pushItems path (i + 1) (pushLeaves (path.index i) leaves item) rest

end

def leaves (tree : Json.Members) : List (Path × Json) :=
  (pushMembers [] #[] tree).toList

def ofTree (tree : Json.Members) : Except PathError FlatTree :=
  match memberFault? [] tree with
  | some e => .error e
  | none => .ok (Fields.ofList ((leaves tree).map fun (path, leaf) => (path.text, leaf)))

def padded (n : Nat) (items : Array Json) : Array Json :=
  items ++ Array.replicate (n - items.size) .null

/-- Writes `value` at a path below `slot`. What stands in the way gives way to the container that the
path asks for, and gaps before an item become `null`. -/
def put (value : Json) : Path → Json → Json
  | [], _ => value
  | .key name :: rest, slot =>
    .object (Fields.alter name (fun old => put value rest (old.getD .null)) slot.members)
  | .index i :: rest, slot =>
    .array ((padded (i + 1) slot.items).modify i (put value rest))

def putAll (tree : Json) : FlatTree → Except PathError Json
  | [] => .ok tree
  | (key, value) :: rest =>
    match Path.parse key with
    | .error e => .error e
    | .ok path =>
      if path.isBounded then putAll (put value path tree) rest
      else .error (.invalid key .outOfRange)

/-- The tree that a flat form describes; where leaves disagree, the later one wins. -/
def toTree (flat : FlatTree) : Except PathError Json.Members :=
  (putAll (.object []) flat).map Json.members

end FlatTree
end TreeMarkup
