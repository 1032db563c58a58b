import TreeMarkup.Event
import TreeMarkup.FlatTree
import TreeMarkup.NameMap

namespace TreeMarkup

abbrev Attributes := Fields Json

structure Rendered where
  component : String
  attributes : Attributes
deriving Inhabited

/-- Anything that renders what it receives. Its defaults are all that markup is made from. -/
structure Component where
  defaults : Attributes
  render : Attributes → Rendered
  renderLog : Log
deriving Inhabited

namespace Component

def host (name : String) (defaults : Attributes) : Component :=
  ⟨defaults, fun attributes => ⟨name, attributes⟩, []⟩

/-- Passes what it receives on to the component that it wraps, together with the ambient attributes that it
does not receive. -/
def adapter (root : String) (inner : Component) (ambient : Attributes) : Component :=
  ⟨inner.defaults, fun attributes => inner.render (Fields.fill attributes ambient),
    .forwarding ambient.length root :: inner.renderLog⟩

@[simp] theorem defaults_host (name : String) (defaults : Attributes) :
    (host name defaults).defaults = defaults := rfl

@[simp] theorem render_host (name : String) (defaults attributes : Attributes) :
    (host name defaults).render attributes = ⟨name, attributes⟩ := rfl

@[simp] theorem defaults_adapter (root : String) (inner : Component) (ambient : Attributes) :
    (adapter root inner ambient).defaults = inner.defaults := rfl

@[simp] theorem render_adapter (root : String) (inner : Component) (ambient attributes : Attributes) :
    (adapter root inner ambient).render attributes =
      inner.render (Fields.fill attributes ambient) := rfl

end Component

inductive Entry where
  | component (component : Component)
  | space (entries : List (String × Entry))
deriving Inhabited

abbrev Registry := NameMap Entry

abbrev FlatRegistry := NameMap Component

inductive RegistryError where
  | invalidName (error : PathError)
  | notAnObject (found : Json)
  | invalidEntry (path : Path) (found : Json)
  | invalidDefaults (path : Path)

namespace RegistryError

def message : RegistryError → String
  | .invalidName e => "Invalid registry path: " ++ e.message
  | .notAnObject found => "Registry manifest must be an object, found " ++ found.text
  | .invalidEntry path found =>
    "Entry `" ++ path.text ++ "` is not a component or namespace: " ++ found.text
  | .invalidDefaults path => "Default attributes of `" ++ path.text ++ "` must be an object"

end RegistryError

namespace Registry

mutual

def flattenEntry (path : Path) (flat : FlatRegistry) : Entry → Except PathError FlatRegistry
  | .component c => .ok (NameMap.insert path.text c flat)
  | .space entries => flattenEntries path flat entries

def flattenEntries (path : Path) (flat : FlatRegistry) :
    List (String × Entry) → Except PathError FlatRegistry
  | [] => .ok flat
  | (name, entry) :: rest =>
    match Path.checkKey name path with
    | .error e => .error e
    | .ok () =>
      match flattenEntry (path.child name) flat entry with
      | .error e => .error e
      | .ok flat => flattenEntries path flat rest

end

def flatten (registry : Registry) : Except RegistryError FlatRegistry :=
  (flattenEntries [] [] registry).mapError .invalidName

end Registry

def FlatRegistry.render (registry : FlatRegistry) (name : String) (attributes : Attributes) :
    Option Rendered :=
  (NameMap.get? registry name).map (·.render attributes)

end TreeMarkup
