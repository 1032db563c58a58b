import TreeMarkup.Registry

namespace TreeMarkup.Markup

def rootAdapterName : String := "RootAdapter"

structure Options where
  indent : String
  rootAdapter : String
deriving DecidableEq, Repr

def Options.default : Options := ⟨"  ", rootAdapterName⟩

structure Target where
  registry : FlatRegistry
  options : Options

structure Context where
  diagnostics : Array Diagnostic
  log : Array Event

def Context.empty : Context := ⟨#[], #[]⟩

/-- Steps that record what they find; `none` when they were cut off before their end. -/
abbrev CompileM := StateT Context Option

def tell (event : Event) : CompileM Unit :=
  modify fun c => { c with log := c.log.push event }

def report (d : Diagnostic) : CompileM Unit :=
  modify fun c => { c with diagnostics := c.diagnostics.push d, log := c.log.push (.reported d) }

def repeated (text : String) (n : Nat) : String :=
  String.join (List.replicate n text)

def Target.indentation (target : Target) (level : Nat) : String :=
  repeated target.options.indent level

end TreeMarkup.Markup
