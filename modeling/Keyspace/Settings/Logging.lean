import Keyspace.SortedMap
import Keyspace.Text.Blank
import Keyspace.Text.Quoted
import Keyspace.Text.Upper

/-!
Which log messages are shown. Settings name a level for everything and levels for single modules, as they
were written; a filter holds the levels themselves. The filter of a target is that of the longest module
whose name the target starts with.
-/
namespace Keyspace

inductive LogLevel where
  | off
  | error
  | warn
  | info
  | debug
  | trace
  deriving DecidableEq

inductive SettingsError where
  /-- The text is not TOML, or not of the right shape. -/
  | malformed
  | noSnapshotTime
  | noHistory
  | emptyModule
  | unknownLevel (name : String)
  /-- Another logger was installed before. -/
  | loggerInstalled
  deriving DecidableEq

namespace LogLevel

def all : List LogLevel := [off, error, warn, info, debug, trace]

def name : LogLevel → String
  | off => "OFF"
  | error => "ERROR"
  | warn => "WARN"
  | info => "INFO"
  | debug => "DEBUG"
  | trace => "TRACE"

/-- The level of a name in upper or lower case. -/
def ofName (s : String) : Except SettingsError LogLevel :=
  match all.find? fun level => level.name == Text.upper s with
  | some level => .ok level
  | none => .error (.unknownLevel s)

def max (a b : LogLevel) : LogLevel := if a.ctorIdx < b.ctorIdx then b else a

end LogLevel

def SettingsError.message : SettingsError → String
  | malformed => "Malformed settings"
  | loggerInstalled => "A logger is already installed"
  | noSnapshotTime => invalid "atomic.snapshot_timeout_ms must be greater than zero"
  | noHistory => invalid "simple.max_history must be greater than zero"
  | emptyModule => invalid "Empty module name in logging.modules"
  | unknownLevel name =>
    invalid ("Invalid log level '" ++ name ++ "', expected one of " ++
      Text.quoteList (LogLevel.all.map LogLevel.name))
where
  invalid (what : String) : String := "Configuration validation error: " ++ what

structure LogSettings where
  /-- The level of modules that are not named. -/
  defaultLevel : String := "info"
  modules : SortedMap String String := .empty
  deriving DecidableEq

/-- The levels that targets are logged at. -/
structure LogFilter where
  default : LogLevel
  modules : List (String × LogLevel)
  deriving DecidableEq

namespace LogFilter

/-- The most detailed level of any target. -/
def maxLevel (f : LogFilter) : LogLevel := (f.modules.map (·.2)).foldl LogLevel.max f.default

/-- Of two modules the one with the longer name; of names of one length the first. -/
def longer (a b : String × LogLevel) : String × LogLevel := if a.1.length < b.1.length then b else a

def level (f : LogFilter) (target : String) : LogLevel :=
  match f.modules.filter fun m => m.1.toList.isPrefixOf target.toList with
  | [] => f.default
  | m :: ms => (ms.foldl longer m).2

end LogFilter

namespace LogSettings

def defaultFilter (s : LogSettings) : Except SettingsError LogLevel := LogLevel.ofName s.defaultLevel

def moduleFilters (s : LogSettings) : Except SettingsError (List (String × LogLevel)) :=
  s.modules.toList.mapM fun (name, level) => do return (name, ← LogLevel.ofName level)

/-- Checks the default level, then the names of modules, then their levels. -/
def validate (s : LogSettings) : Except SettingsError Unit := do
  let _ ← s.defaultFilter
  if s.modules.keys.any Text.allBlank then throw .emptyModule
  let _ ← s.moduleFilters

def filter (s : LogSettings) : Except SettingsError LogFilter := do
  return ⟨← s.defaultFilter, ← s.moduleFilters⟩

/-- Puts a filter to use, unless there is one already. -/
def install (s : LogSettings) (current : Option LogFilter) : Except SettingsError LogFilter := do
  let f ← s.filter
  if current.isSome then throw .loggerInstalled
  return f

end LogSettings

end Keyspace
