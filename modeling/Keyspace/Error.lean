import Keyspace.RangeSet
import Keyspace.Text.Utf8

/-!
What can go wrong in a store, a transaction or an index. The causes are kept apart; `StoreError.message`
is the one place that words them.
-/
namespace Keyspace

abbrev Entry := Key × Value

def Entry.describe (e : Entry) : String := Key.describe e.1 ++ "=" ++ Hex.encode e.2

/-- Why the work of a transaction has to be done again in a new one. -/
inductive Conflict where
  /-- The transaction stayed open longer than its limit, in milliseconds. -/
  | timedOut (limit : Nat)
  /-- Commits after the transaction's start are no longer remembered. -/
  | historyTruncated (start : Nat)
  /-- A commit after the transaction's start wrote keys that the transaction had read. -/
  | modified (keys : RangeSet)
  /-- A conflict that was asked for. -/
  | injected (reason : String)
  deriving DecidableEq

inductive Lifecycle where
  | databaseStopped
  | atomicStoreStopped
  | configWhileRunning
  deriving DecidableEq

inductive Corruption where
  | truncated (what : String) (needed found : Nat)
  | unterminatedString
  | invalidEscape (byte : Option UInt8)
  | invalidText (fault : Utf8.Fault)
  | invalidBoolean (byte : UInt8)
  | foreignKey (index : String)
  | trailingBytes (count : Nat) (index : String)
  | invalidVersionKey (entry : Entry)
  /-- A corruption that was asked for. -/
  | injected (what : String)
  deriving DecidableEq

inductive StoreError where
  | retry (why : Conflict)
  | lifecycle (why : Lifecycle)
  | unsupported (what : String)
  | invertedRange (low : Key) (high : Bound)
  | invalidCounter (length : Nat)
  | corrupt (why : Corruption)
  | internal (what : String)
  deriving DecidableEq

def describeMillis (ms : Nat) : String :=
  if ms = 0 then "0ns"
  else if ms < 1000 then toString ms ++ "ms"
  else
    let digits := [ms / 100 % 10, ms / 10 % 10, ms % 10].map Hex.digit
    let shown := (digits.reverse.dropWhile (· = '0')).reverse
    let fraction := if shown.isEmpty then "" else "." ++ String.ofList shown
    toString (ms / 1000) ++ fraction ++ "s"

def Conflict.message : Conflict → String
  | timedOut limit => "transaction timed out after " ++ describeMillis limit
  | historyTruncated start =>
    "transaction started at version " ++ toString start ++
      " is older than the retained commit history"
  | modified keys => "keys " ++ keys.describe ++ " were modified by a concurrent transaction"
  | injected reason => reason

def Lifecycle.message : Lifecycle → String
  | databaseStopped => "database is not started"
  | atomicStoreStopped => "atomic store is not started"
  | configWhileRunning => "cannot change configuration after start()"

def describeByte (b : UInt8) : String := "0x" ++ Hex.encode [b]

def Corruption.message : Corruption → String
  | truncated what needed found =>
    "truncated " ++ what ++ ": need " ++ toString needed ++ " bytes, found " ++ toString found
  | unterminatedString => "unterminated string"
  | invalidEscape none => "invalid string escape None"
  | invalidEscape (some b) => "invalid string escape Some(" ++ toString b.toNat ++ ")"
  | invalidText fault => "invalid UTF-8 in string: " ++ fault.message
  | invalidBoolean b => "invalid boolean byte " ++ describeByte b
  | foreignKey index => "key does not belong to " ++ index
  | trailingBytes count index => toString count ++ " trailing bytes in key of " ++ index
  | invalidVersionKey entry => "invalid schema version key " ++ entry.describe
  | injected what => what

namespace StoreError

def message : StoreError → String
  | retry why => "Transaction conflict: " ++ why.message
  | lifecycle why => "Lifecycle error: " ++ why.message
  | unsupported what => "Unsupported operation: " ++ what
  | invertedRange low high =>
    let end_ := match high with
      | .key k => k.describe
      | .top => "-"
    "Invalid argument: key range max " ++ end_ ++ " < min " ++ low.describe
  | invalidCounter length =>
    "Invalid counter value: expected 8 bytes but found " ++ toString length
  | corrupt why => "Corrupt data: " ++ why.message
  | internal what => "Internal error: " ++ what

/-- Whether the failed work may succeed in a new transaction. -/
def isRetryable : StoreError → Bool
  | retry _ => true
  | _ => false

end StoreError

/-- The range between two bounds, which have to be in order. -/
def KeyRange.between (low : Key) (high : Bound) : Except StoreError KeyRange :=
  match between? low high with
  | some r => .ok r
  | none => .error (.invertedRange low high)

end Keyspace
