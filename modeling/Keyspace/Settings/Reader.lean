import Keyspace.AtomicStore
import Keyspace.Settings.Logging
import Keyspace.Toml.Reader

/-!
The settings of a store and its database, which are read from a TOML document. Every section and every
entry is optional; entries without a meaning are refused.
-/
namespace Keyspace

structure Settings where
  atomic : AtomicConfig := {}
  /-- How many commits the database remembers. -/
  maxHistory : Nat := Database.defaultMaxHistory
  logging : LogSettings := {}
  deriving DecidableEq

namespace Settings

open Json (withDefault string? nat? maxUInt32 maxUInt64 record?)

/-- The entries of a section by name. A section may also be an array of its entries in order, of which
those beyond the last name mean nothing. -/
def entries? (names : List String) : Json → Option (List (Option Json))
  | .array vs => (Json.array (vs.take names.length)).record? names
  | v => v.record? names

def atomicOfJson? (v : Json) : Option AtomicConfig := do
  match ← entries? ["max_retries", "snapshot_timeout_ms"] v with
  | [retries, limit] =>
    let d : AtomicConfig := {}
    return ⟨← withDefault d.maxRetries (nat? maxUInt32) retries,
      ← withDefault d.snapshotLimit (nat? maxUInt64) limit⟩
  | _ => none

def historyOfJson? (v : Json) : Option Nat := do
  match ← entries? ["max_history"] v with
  | [history] => withDefault Database.defaultMaxHistory (nat? maxUInt64) history
  | _ => none

def modulesOfJson? : Json → Option (SortedMap String String)
  | .object ms => do
    return .ofList (← ms.mapM fun (name, v) => do return (name, ← string? v))
  | _ => none

def loggingOfJson? (v : Json) : Option LogSettings := do
  match ← entries? ["default_level", "modules"] v with
  | [level, modules] =>
    let d : LogSettings := {}
    return ⟨← withDefault d.defaultLevel string? level,
      ← withDefault d.modules modulesOfJson? modules⟩
  | _ => none

def ofJson? (v : Json) : Option Settings := do
  match ← entries? ["atomic", "simple", "logging"] v with
  | [atomic, simple, logging] =>
    let d : Settings := {}
    return ⟨← withDefault d.atomic atomicOfJson? atomic,
      ← withDefault d.maxHistory historyOfJson? simple,
      ← withDefault d.logging loggingOfJson? logging⟩
  | _ => none

def validate (s : Settings) : Except SettingsError Unit := do
  if s.atomic.snapshotLimit = 0 then throw .noSnapshotTime
  if s.maxHistory = 0 then throw .noHistory
  s.logging.validate

def parse (text : String) : Except SettingsError Settings := do
  let some s := (Toml.parse text).bind ofJson? | throw .malformed
  s.validate
  return s

end Settings

end Keyspace
