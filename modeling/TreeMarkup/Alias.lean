import TreeMarkup.Event
import TreeMarkup.Fields.Index
import TreeMarkup.FlatTree

namespace TreeMarkup.FlatTree

inductive Ruling where
  | keep
  | rename (target : String)
  | ignore (fault : AliasFault)

def ruling (aliases : FlatTree) (path : String) : Ruling :=
  match Fields.get? aliases path with
  | none => .keep
  | some (.string target) =>
    match Path.parse target with
    | .ok _ => .rename target
    | .error e => .ignore (.notAPath e)
  | some other => .ignore (.notAText other)

def target (aliases : FlatTree) (path : String) : String :=
  match ruling aliases path with
  | .rename target => target
  | _ => path

def resolve (aliases flat : FlatTree) : FlatTree :=
  Fields.ofList (flat.map fun (path, leaf) => (target aliases path, leaf))

def event? (aliases : FlatTree) (path : String) : Option Event :=
  match ruling aliases path with
  | .keep => none
  | .rename target => some (.aliased path target)
  | .ignore fault => some (.aliasIgnored path fault)

def resolveLog (aliases flat : FlatTree) : Log :=
  flat.filterMap fun (path, _) => event? aliases path

end TreeMarkup.FlatTree
