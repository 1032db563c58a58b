import TreeMarkup.Alias
import TreeMarkup.Markup.Compiler
import TreeMarkup.Registry.Binding

/-!
From a data tree to markup: the registry is flattened, the root is bound to an adapter, aliases rename
the paths of the tree, and what results is compiled. Input that has no markup is rejected with one
diagnostic.
-/

namespace TreeMarkup.Markup

inductive Rejection where
  | notAnObject
  | unnamedRoot
  | registry (error : RegistryError)
  | aliases (error : PathError)

def Rejection.message : Rejection → String
  | .notAnObject => "The data tree must be an object"
  | .unnamedRoot => "The data tree root must name its component with a string"
  | .registry e => "Unable to flatten the registry: " ++ e.message
  | .aliases e => "Unable to resolve aliases: " ++ e.message

structure Compilation where
  registry : FlatRegistry
  markup : String
  diagnostics : List Diagnostic
  log : Log

namespace Compilation

def isEmpty (c : Compilation) : Bool :=
  c.markup.isEmpty && c.registry.isEmpty

def warnings (c : Compilation) : List Diagnostic :=
  c.diagnostics.filter (·.isWarning)

def errors (c : Compilation) : List Diagnostic :=
  c.diagnostics.filter (·.isError)

def rejected (log : Log) (reason : Rejection) : Compilation :=
  let d := Diagnostic.error .malformedInput reason.message
  ⟨[], "", [d], log ++ [.reported d]⟩

end Compilation

def flatForms (tree : Json.Members) (aliases : Json) : Except PathError (FlatTree × FlatTree) :=
  match FlatTree.ofTree tree with
  | .error e => .error e
  | .ok flat =>
    match aliases with
    | .object table => (FlatTree.ofTree table).map (flat, ·)
    | _ => .ok (flat, [])

def aliasTree (tree : Json.Members) (aliases : Json) : Except PathError (Json.Members × Log) :=
  match flatForms tree aliases with
  | .error e => .error e
  | .ok (flat, table) =>
    (FlatTree.toTree (FlatTree.resolve table flat)).map fun tree =>
      (tree, .resolving flat.length table.length :: FlatTree.resolveLog table flat)

def compileBound (tree : Json.Members) (aliases : Json) (options : Options) (binding : Binding)
    (log : Log) : Option Compilation :=
  match aliasTree tree aliases with
  | .error e => some (.rejected log (.aliases e))
  | .ok (tree, aliasLog) =>
    let root := { Node.ofMembers tree with component := some binding.root }
    (compile ⟨binding.registry, options⟩ root).map fun compiled =>
      ⟨binding.registry, compiled.markup, binding.diagnostics ++ compiled.diagnostics,
        log ++ aliasLog ++ compiled.log⟩

/-- Compiles a tree against a registry. The result is missing only when default attributes refer to
one another without end. -/
def build (tree : Json) (registry : Registry) (aliases : Json) (ambient : Attributes)
    (options : Options) : Option Compilation :=
  match tree with
  | .object members =>
    match Node.componentOf members with
    | none => some (.rejected [] .unnamedRoot)
    | some root =>
      match registry.flatten with
      | .error e => some (.rejected [] (.registry e))
      | .ok flat =>
        let binding := flat.bindRoot root ambient options.rootAdapter
        compileBound members aliases options binding
          (.registryFlattened flat.length :: binding.log)
  | _ => some (.rejected [] .notAnObject)

end TreeMarkup.Markup
