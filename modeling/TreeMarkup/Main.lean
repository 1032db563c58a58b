import TreeMarkup.Project.Commands

namespace TreeMarkup.Project

def Command.fileNames : Command → List String
  | .init _ => configName :: Init.examples.map Prod.fst
  | .compile tree registry request =>
    [configName, tree, registry] ++ request.aliases.toList ++ request.out.toList
  | .flatten input _ => [input]

def Directory.around (cwd : String) (files : List (String × String)) : Directory :=
  let d := Directory.ofFiles "" files
  { d with folders := d.folders ++ Directory.above ((parts cwd).filter fun p => !isStill p) }

def configuredAliases (d : Directory) (cwd : String) : Option String :=
  match d.read (join cwd configName) with
  | .error _ => none
  | .ok text =>
    match Config.read text with
    | .error _ => none
    | .ok config => config.aliases

def load (cwd : String) (names : List String) : IO (List (String × String)) := do
  let mut files := []
  for name in names do
    try
      let content ← IO.FS.readFile (join cwd name)
      files := files ++ [(join cwd name, content)]
    catch _ => pure ()
  return files

def loadDirectory (cwd : String) (args : List String) : IO Directory := do
  match Invocation.read args with
  | .error _ => return Directory.around cwd []
  | .ok invocation =>
    let files ← load cwd invocation.command.fileNames
    let aliases := configuredAliases (Directory.around cwd files) cwd
    return Directory.around cwd (files ++ (← load cwd aliases.toList))

def store (before after : Directory) : IO Unit := do
  for (name, content) in Directory.changes before after do
    IO.FS.createDirAll ("/" ++ "/".intercalate (parts name).dropLast)
    IO.FS.writeFile ("/" ++ name) content

end TreeMarkup.Project

open TreeMarkup.Project in
def main (args : List String) : IO UInt32 := do
  let cwd := (← IO.currentDir).toString
  let before ← loadDirectory cwd args
  let outcome := run cwd before args
  store before outcome.directory
  (← IO.getStdout).putStr outcome.stdout
  (← IO.getStderr).putStr outcome.stderr
  return outcome.code.toUInt32
