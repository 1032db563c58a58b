import TreeMarkup.Registry

namespace TreeMarkup

structure Binding where
  registry : FlatRegistry
  root : String
  diagnostics : List Diagnostic
  log : Log

namespace Binding

def collision (adapter : String) : Diagnostic :=
  .warning .reservedNameCollision
    ("`" ++ adapter ++ "` is a reserved component name; the registered entry will be overridden")

def collisions (registry : FlatRegistry) (adapter : String) : List Diagnostic :=
  if NameMap.contains registry adapter then [collision adapter] else []

end Binding

/-- Registers an adapter for `root` under the name `adapter`, over any entry there. A root that is not
registered is left for the compiler to report. -/
def FlatRegistry.bindRoot (registry : FlatRegistry) (root : String) (ambient : Attributes)
    (adapter : String) : Binding :=
  match NameMap.get? registry root with
  | none => ⟨registry, root, [], [.rootMissing root]⟩
  | some component =>
    let diagnostics := Binding.collisions registry adapter
    ⟨NameMap.insert adapter (.adapter root component ambient) registry, adapter, diagnostics,
      diagnostics.map .reported ++ [.rootBound root adapter]⟩

end TreeMarkup
