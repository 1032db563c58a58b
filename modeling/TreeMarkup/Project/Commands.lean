import TreeMarkup.Json.Text
import TreeMarkup.Markup.Build
import TreeMarkup.Project.Ambient
import TreeMarkup.Project.Arguments
import TreeMarkup.Project.Config
import TreeMarkup.Project.Session
import TreeMarkup.Registry.Manifest

namespace TreeMarkup.Project

open Session

def configName : String := "marionette.config.json"

def requireObject (context name : String) : RunM Json.Members := do
  match ← loadObject name with
  | .ok members => return members
  | .error e => fail (context :: e.causes)

def orFail {ε α : Type} (causes : ε → List String) : Except ε α → RunM α
  | .ok a => return a
  | .error e => fail (causes e)

namespace Flatten

def run (input : String) (unflatten : Bool) : RunM Unit := do
  let name ← locate input
  let members ← requireObject ("Failed to read " ++ name) name
  let output ← orFail (fun (e : PathError) => [e.message])
    (if unflatten then FlatTree.toTree members else FlatTree.ofTree members)
  print (Json.object output).prettyText

end Flatten

namespace Init

def config : Config := { Config.default with aliases := some "aliases.json" }

def exampleRegistry : Json :=
  .object [("Page", .bool true), ("Text", .null),
    ("Button", .object [(Registry.defaultsKey, .object [("kind", .string "primary")])])]

def exampleTree : Json :=
  .object [("_", .string "Page"), ("heading", .string "Welcome"),
    ("$", .array #[
      .object [("_", .string "Text"), ("value", .string "Hello from data")],
      .object [("_", .string "Button"), ("label", .string "Continue")]])]

def exampleAliases : Json := .object [("heading", .string "title")]

def examples : List (String × Json) :=
  [("registry.json", exampleRegistry), ("tree.json", exampleTree), ("aliases.json", exampleAliases)]

def create (name : String) (content : Json) : RunM Unit := do
  writeFile (← locate name) content.prettyText
  print ("  ✓ Created " ++ name)

def createExample (force : Bool) (name : String) (content : Json) : RunM Unit := do
  let taken := (← get).directory.contains (← locate name)
  if taken && !force then print ("  • Kept existing " ++ name) else create name content

def run (force : Bool) : RunM Unit := do
  let taken := (← get).directory.contains (← locate configName)
  if taken && !force then
    print ("⚠️ " ++ configName ++ " already exists")
    print "Use --force to overwrite"
  else
    print "📝 Initializing Marionette project..."
    create configName config.toJson
    examples.forM fun (name, content) => createExample force name content
    print ""
    print "Run marionette compile tree.json --registry registry.json to compile the example"

end Init

namespace Compile

def loadConfig : RunM Config := do
  let name ← locate configName
  if (← get).directory.contains name then
    let text ← orFail (fun (e : OsError) => [e.message]) (← readFile name)
    orFail (fun (e : Json.ReadError) => [e.message]) (Config.read text)
  else return Config.default

def loadTree (name : String) : RunM Json := do
  let text ← orFail (fun (e : OsError) => ["Failed to read tree " ++ name, e.message])
    (← readFile name)
  orFail (fun (e : Json.ReadError) => ["Invalid JSON in " ++ name, e.message]) (Json.read text)

def manifestCauses : RegistryError → List String
  | .invalidName e => [RegistryError.message (.invalidName e), e.message]
  | e => [e.message]

def loadRegistry (name : String) : RunM Registry := do
  let members ← requireObject ("Failed to read registry " ++ name) (← locate name)
  orFail manifestCauses (Registry.ofManifest (.object members))

def loadAliases (asked configured : Option String) : RunM Json := do
  match asked <|> configured with
  | none => return .object []
  | some name =>
    let name ← locate name
    return .object (← requireObject ("Failed to read aliases " ++ name) name)

def safeChar (c : Char) : String :=
  let n := c.toNat
  if n = 0x1b then "\\x1b"
  else if n = 0x07 then "\\x07"
  else if n = 0x08 then "\\x08"
  else if n = 0x0c then "\\x0c"
  else if n = 0x7f then "\\x7f"
  else if 0x80 ≤ n ∧ n ≤ 0x9f then
    "\\u\x7b" ++ String.ofList (Nat.toDigits 16 n) ++ "\x7d"
  else c.toString

def safeText (text : String) : String :=
  String.join (text.toList.map safeChar)

def logLine? (verbose : Bool) (event : Event) : Option String :=
  if event.level = .debug ∧ verbose = false then none
  else
    let span := if verbose then "build_markup: " else ""
    let kind := match event.diagnostic? with
      | some d => " kind=" ++ d.kind.title
      | none => ""
    some (event.level.word ++ " " ++ span ++ safeText event.message ++ kind)

def printLog (verbose : Bool) (log : Log) : RunM Unit :=
  (log.filterMap (logLine? verbose)).forM printError

def label : Severity → String
  | .error => "error:"
  | .warning => "warning:"
  | .info => "info:"

def report (c : Markup.Compilation) : RunM Unit := do
  c.diagnostics.forM fun d => printError (label d.severity ++ " " ++ d.display)
  let warnings := c.warnings.length
  if 0 < warnings then printError ("⚠️ " ++ Nat.repr warnings ++ " warning(s)")

def writeText (c : Markup.Compilation) (out : Option String) : RunM Unit := do
  match out with
  | some name =>
    writeFileWithFolders name c.markup
    print ("  ✓ " ++ name)
  | none => print c.markup
  report c

def document (c : Markup.Compilation) : Json :=
  .object [("markup", .string c.markup),
    ("components", .array ((NameMap.names c.registry).map Json.string).toArray),
    ("diagnostics", .array (c.diagnostics.map Diagnostic.toJson).toArray)]

def writeJson (c : Markup.Compilation) (out : Option String) : RunM Unit :=
  let text := (document c).prettyText
  match out with
  | some name => writeFileWithFolders name text
  | none => print text

def deliver (c : Markup.Compilation) (format : String) (out : Option String) : RunM Unit :=
  match format with
  | "text" => writeText c out
  | "json" => writeJson c out
  | other => fail ["Unknown format: " ++ other]

def prepare (tree registry : String) (request : CompileRequest) : RunM Markup.Compilation := do
  let config ← loadConfig
  let options := { config.options with indent := request.indent.getD config.indent }
  let tree ← loadTree (← locate tree)
  let registry ← loadRegistry registry
  let aliases ← loadAliases request.aliases config.aliases
  let ambient ← orFail (fun (e : AmbientError) => [e.message]) (readAmbients request.ambient)
  match Markup.build tree registry aliases ambient options with
  | none => overflow
  | some compilation => return compilation

def run (verbose : Bool) (tree registry : String) (request : CompileRequest) : RunM Unit := do
  let compilation ← prepare tree registry request
  printLog verbose compilation.log
  deliver compilation (request.format.getD "text") (← request.out.mapM locate)
  if compilation.markup.isEmpty then fail ["Nothing was compiled"]

end Compile

structure Outcome where
  code : Nat
  stdout : String
  stderr : String
  directory : Directory
deriving DecidableEq, Repr

def Command.run (verbose : Bool) : Command → RunM Unit
  | .init force => Init.run force
  | .compile tree registry request => Compile.run verbose tree registry request
  | .flatten input unflatten => Flatten.run input unflatten

def versionText : String := "marionette 0.1.0\n"

def usageText : String :=
  "Usage: marionette [-v] init [-f]\n" ++
  "       marionette [-v] compile TREE -r REGISTRY [-a ALIASES] [--ambient KEY=VALUE]...\n" ++
  "                          [-f text|json] [-o OUT] [--indent INDENT]\n" ++
  "       marionette [-v] flatten INPUT [-u]\n"

/-- The code a shell gives for an aborted process. What the process says as it dies is left out. -/
def abortCode : Nat := 134

def run (cwd : String) (directory : Directory) (args : List String) : Outcome :=
  match Invocation.read args with
  | .error .usage => ⟨2, "", usageText, directory⟩
  | .error .help => ⟨0, usageText, "", directory⟩
  | .error .version => ⟨0, versionText, "", directory⟩
  | .ok ⟨verbose, command⟩ =>
    match (command.run verbose).run (start cwd directory) with
    | (.ok (), s) => ⟨0, s.stdout, s.stderr, s.directory⟩
    | (.error (.failed causes), s) =>
      ⟨1, s.stdout, s.stderr ++ "\nError: " ++ ": ".intercalate causes ++ "\n\n", s.directory⟩
    | (.error .overflowed, s) => ⟨abortCode, s.stdout, s.stderr, s.directory⟩

end TreeMarkup.Project
