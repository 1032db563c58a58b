import TreeMarkup.Markup.Context
import TreeMarkup.Markup.Depth
import TreeMarkup.Markup.Tag

/-!
Compiling nodes to markup. A node whose component is not registered, and an attribute that has no
form, leave the empty text, which is left out of what is around it.
-/

namespace TreeMarkup.Markup

def unevaluable (name : String) (path : Path) : Diagnostic :=
  (Diagnostic.warning .unevaluableAttribute
    ("Unable to evaluate element prop `" ++ name ++ "`")).located path.text

def unresolved (component : Option String) (path : Path) : Diagnostic :=
  (Diagnostic.warning .unresolvedComponent
    ("Unable to find definition of `" ++ component.getD "<none>" ++ "`; ignored")).located path.text

abbrev Compiler := Node → Nat → Path → CompileM String

def attributeText (target : Target) (compile : Compiler) (a : Attribute) (level : Nat)
    (path : Path) : CompileM String :=
  let name := a.1
  match a.2 with
  | .reference component =>
    if NameMap.contains target.registry component then return braced name component
    else do
      report (unevaluable name path)
      return ""
  | .unevaluable => do
    report (unevaluable name path)
    return ""
  | .node node => do
    let inner ← compile node (level + 1) (path.child name)
    if inner.isEmpty then return ""
    else return braced name ("\n" ++ inner ++ "\n" ++ target.indentation level)
  | .boolean true => return name
  | .boolean false => return braced name "false"
  | .number n => return braced name (numberLiteral n)
  | .null => return braced name "null"
  | .object members => return braced name (Json.object members).text
  | .string text => return quoted name text
  | .unsupported => return ""

def resolved? (target : Target) (node : Node) : Option (String × Component) :=
  node.component.bind fun name => (NameMap.get? target.registry name).map (name, ·)

def childTexts (compile : Compiler) (level : Nat) (path : Path) : Nat → List Node → CompileM (List String)
  | _, [] => return []
  | i, child :: rest => do
    let text ← compile child level (path.index i)
    let texts ← childTexts compile level path (i + 1) rest
    return text :: texts

def attributeTexts (target : Target) (compile : Compiler) (level : Nat) (path : Path) :
    List Attribute → CompileM (List String)
  | [] => return []
  | a :: rest => do
    let text ← attributeText target compile a level path
    let texts ← attributeTexts target compile level path rest
    return text :: texts

/-- The markup of a node at `level`; empty when its component is not registered. Each step of the
first argument goes one node deeper. -/
def compileWithin (target : Target) : Nat → Compiler
  | 0, _, _, _ => failure
  | depth + 1, node, level, path =>
    match resolved? target node with
    | none => do
      report (unresolved node.component path)
      return ""
    | some (name, component) => do
      tell (.compiling name level)
      let attributes ← attributeTexts target (compileWithin target depth) (level + 1) path
        (node.mergedAttributes component.defaults)
      let children ← match node.childNodes with
        | none => pure none
        | some nodes => do
          let texts ← childTexts (compileWithin target depth) (level + 1)
            (path.child node.childrenKey) 0 nodes
          pure (some (shown texts))
      let indent := target.indentation level
      return openingText indent (target.indentation (level + 1)) name (shown attributes)
        ++ closingText indent name children

def compileNode (target : Target) : Compiler := fun node level path =>
  compileWithin target (depthFor target node) node level path

def serializeAttribute (target : Target) (a : Attribute) (level : Nat) (path : Path) :
    CompileM String :=
  attributeText target (compileNode target) a level path

structure Compiled where
  markup : String
  diagnostics : List Diagnostic
  log : Log

def compile (target : Target) (node : Node) : Option Compiled :=
  (compileNode target node 0 []).run Context.empty |>.map fun (markup, context) =>
    ⟨markup, context.diagnostics.toList, context.log.toList⟩

end TreeMarkup.Markup
