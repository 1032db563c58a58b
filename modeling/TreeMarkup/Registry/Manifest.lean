import TreeMarkup.Registry

/-!
Manifests declare a registry in JSON. `true` and `null` declare a component, an object with
`defaultAttributes` declares one with defaults, and any other object opens a space.
-/

namespace TreeMarkup

namespace Registry

def defaultsKey : String := "defaultAttributes"

mutual

def declared (path : Path) : Json → Except RegistryError Entry
  | .null => .ok (.component (.host path.text []))
  | .bool true => .ok (.component (.host path.text []))
  | .object members =>
    match Fields.get? members defaultsKey with
    | some (.object defaults) => .ok (.component (.host path.text defaults))
    | some _ => .error (.invalidDefaults path)
    | none => (declareAll path [] members).map .space
  | other => .error (.invalidEntry path other)

def declareAll (path : Path) (registry : List (String × Entry)) :
    List (String × Json) → Except RegistryError (List (String × Entry))
  | [] => .ok registry
  | (name, value) :: rest =>
    match Path.checkKey name path with
    | .error e => .error (.invalidName e)
    | .ok () =>
      match declared (path.child name) value with
      | .error e => .error e
      | .ok entry => declareAll path (NameMap.insert name entry registry) rest

end

def ofManifest : Json → Except RegistryError Registry
  | .object members => declareAll [] [] members
  | other => .error (.notAnObject other)

end Registry
end TreeMarkup
