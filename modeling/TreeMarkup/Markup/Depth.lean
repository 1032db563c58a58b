import TreeMarkup.Markup.Context
import TreeMarkup.Node

namespace TreeMarkup.Json

mutual

def weight : Json → Nat
  | .array ⟨items⟩ => itemsWeight items + 1
  | .object members => membersWeight members + 1
  | _ => 1

def itemsWeight : List Json → Nat
  | [] => 0
  | item :: rest => weight item + itemsWeight rest

def membersWeight : List (String × Json) → Nat
  | [] => 0
  | (_, value) :: rest => weight value + membersWeight rest

end

end TreeMarkup.Json

namespace TreeMarkup.Markup

mutual

def nodeWeight : Node → Nat
  | ⟨_, attributes, children, _⟩ => attributesWeight attributes + childrenWeight children + 1

def attributesWeight : List (String × AttributeValue Node) → Nat
  | [] => 0
  | (_, value) :: rest => valueWeight value + attributesWeight rest

def valueWeight : AttributeValue Node → Nat
  | .node node => nodeWeight node
  | _ => 0

def childrenWeight : Option (List Node) → Nat
  | none => 0
  | some nodes => nodesWeight nodes

def nodesWeight : List Node → Nat
  | [] => 0
  | node :: rest => nodeWeight node + nodesWeight rest

end

def defaultsWeight : FlatRegistry → Nat
  | [] => 0
  | (_, component) :: rest => Json.membersWeight component.defaults + defaultsWeight rest

/-- A depth that suffices whenever any does: nodes that stand inside one another are all different
places in the node or in the defaults of some component, or else they never end. -/
def depthFor (target : Target) (node : Node) : Nat :=
  nodeWeight node + defaultsWeight target.registry + 1

end TreeMarkup.Markup
