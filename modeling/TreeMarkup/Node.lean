import TreeMarkup.Json.Text
import TreeMarkup.Text.Uppercase

/-!
Nodes: the component, attributes and children that a JSON object describes. `_` or `component` names
the component, `$` or `children` holds the children, and every other member is an attribute.
-/

namespace TreeMarkup

/-- The value of an attribute by the form that it is written in. Attributes whose names start with an
uppercase letter stand for components: by name, or as a node of their own. -/
inductive AttributeValue (ν : Type) where
  | string (text : String)
  | number (number : Number)
  | null
  | boolean (value : Bool)
  | reference (component : String)
  | node (node : ν)
  | object (members : List (String × Json))
  | unevaluable
  | unsupported

structure Node where
  component : Option String
  attributes : List (String × AttributeValue Node)
  children : Option (List Node)
  childrenKey : String

abbrev Attribute := String × AttributeValue Node

namespace Node

def componentKeys : List String := ["_", "component"]
def childrenKeys : List String := ["$", "children"]

def isReserved (key : String) : Bool :=
  componentKeys.contains key || childrenKeys.contains key

def isComponentName (name : String) : Bool :=
  match name.toList with
  | [] => false
  | c :: _ => Text.isUppercase c

def firstOf (keys : List String) (members : Json.Members) : Option (String × Json) :=
  keys.findSome? fun key => (Fields.get? members key).map (key, ·)

def componentOf (members : Json.Members) : Option String :=
  (firstOf componentKeys members).bind fun found => found.2.string?

def childrenKeyOf (members : Json.Members) : String :=
  ((firstOf childrenKeys members).map Prod.fst).getD "children"

def plainValue : Json → AttributeValue Node
  | .string text => .string text
  | .number n => .number n
  | .null => .null
  | .bool b => .boolean b
  | .object members => .object members
  | .array _ => .unsupported

def assemble (members : Json.Members) (attributes : List Attribute) (children : Option (List Node)) :
    Node :=
  ⟨componentOf members, attributes, children, childrenKeyOf members⟩

def empty : Node := ⟨none, [], none, "children"⟩

mutual

def ofJson : Json → Node
  | .object members =>
    assemble members (attributesOf members) (childrenAt (childrenKeyOf members) members)
  | _ => empty

def componentValue : Json → AttributeValue Node
  | .string name => .reference name
  | .object members =>
    .node (assemble members (attributesOf members) (childrenAt (childrenKeyOf members) members))
  | _ => .unevaluable

def attributesOf : List (String × Json) → List Attribute
  | [] => []
  | (name, value) :: rest =>
    if isReserved name then attributesOf rest
    else if isComponentName name then (name, componentValue value) :: attributesOf rest
    else (name, plainValue value) :: attributesOf rest

def childrenAt (key : String) : List (String × Json) → Option (List Node)
  | [] => none
  | (name, value) :: rest => if name = key then nodes? value else childrenAt key rest

def nodes? : Json → Option (List Node)
  | .array ⟨items⟩ => some (ofItems items)
  | _ => none

def ofItems : List Json → List Node
  | [] => []
  | item :: rest => ofJson item :: ofItems rest

end

def classify (name : String) (value : Json) : AttributeValue Node :=
  if isComponentName name then componentValue value else plainValue value

def ofMembers (members : Json.Members) : Node :=
  ofJson (.object members)

def mergedAttributes (node : Node) (defaults : Json.Members) : List Attribute :=
  node.attributes ++ (defaults.filter fun d =>
    !isReserved d.1 && !(node.attributes.any fun a => a.1 == d.1)).map fun d =>
      (d.1, classify d.1 d.2)

def childNodes (node : Node) : Option (List Node) :=
  node.children.filter fun nodes => !nodes.isEmpty

end Node
end TreeMarkup
