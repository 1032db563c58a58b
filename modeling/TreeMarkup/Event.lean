import TreeMarkup.Diagnostic
import TreeMarkup.Path

namespace TreeMarkup

inductive AliasFault where
  | notAPath (error : PathError)
  | notAText (target : Json)

def AliasFault.message : AliasFault → String
  | .notAPath e => e.message
  | .notAText target => "expected a path string, found " ++ target.text

inductive Event where
  | registryFlattened (components : Nat)
  | rootMissing (root : String)
  | rootBound (root adapter : String)
  | resolving (paths aliases : Nat)
  | aliased (path target : String)
  | aliasIgnored (path : String) (fault : AliasFault)
  | compiling (name : String) (level : Nat)
  | forwarding (count : Nat) (root : String)
  | reported (diagnostic : Diagnostic)

inductive LogLevel where
  | error
  | warn
  | info
  | debug
deriving DecidableEq, Repr

def LogLevel.word : LogLevel → String
  | .error => "ERROR"
  | .warn => "WARN"
  | .info => "INFO"
  | .debug => "DEBUG"

def Severity.logLevel : Severity → LogLevel
  | .error => .error
  | .warning => .warn
  | .info => .info

namespace Event

def level : Event → LogLevel
  | .aliasIgnored _ _ => .warn
  | .reported d => d.severity.logLevel
  | _ => .debug

def message : Event → String
  | .registryFlattened n => "registry holds " ++ Nat.repr n ++ " components"
  | .rootMissing root => "root `" ++ root ++ "` is not registered; no adapter installed"
  | .rootBound root adapter => "binding root `" ++ root ++ "` as `" ++ adapter ++ "`"
  | .resolving n m =>
    "resolving " ++ Nat.repr n ++ " tree paths against " ++ Nat.repr m ++ " aliases"
  | .aliased path target => "aliasing `" ++ path ++ "` to `" ++ target ++ "`"
  | .aliasIgnored path fault => "Ignoring alias for `" ++ path ++ "`: " ++ fault.message
  | .compiling name level => "compiling `" ++ name ++ "` at level " ++ Nat.repr level
  | .forwarding n root =>
    "forwarding " ++ Nat.repr n ++ " ambient attributes to `" ++ root ++ "`"
  | .reported d => d.display

def diagnostic? : Event → Option Diagnostic
  | .reported d => some d
  | _ => none

end Event

abbrev Log := List Event

def Log.diagnostics (log : Log) : List Diagnostic :=
  log.filterMap Event.diagnostic?

end TreeMarkup
