import Keyspace.Toml.Moment
import Keyspace.Toml.Number
import Keyspace.Toml.Table

/-!
Reading TOML documents. The value of a document is a JSON object: tables are objects, dates and times are
objects with their text as the only member, and numbers that are not integers keep no value.
-/
namespace Keyspace.Toml

def momentValue (text : List Char) : Json := .object [("moment", .string (String.ofList text))]

/-- A value that holds no others. -/
def scalar? (cs : List Char) : Option (Json × List Char) :=
  match cs with
  | 't' :: 'r' :: 'u' :: 'e' :: rest => some (.bool true, rest)
  | 'f' :: 'a' :: 'l' :: 's' :: 'e' :: rest => some (.bool false, rest)
  | _ =>
    match string? cs, moment? cs with
    | some (s, rest), _ => some (.string (String.ofList s), rest)
    | none, some (text, rest) => some (momentValue text, rest)
    | none, none => number? cs

mutual

/-- A value and what follows it; values nest at most `depth` deep. -/
def value? : Nat → Nat → List Char → Option (Json × List Char)
  | 0, _, _ => none
  | fuel + 1, depth, cs =>
    match cs, depth with
    | '[' :: _, 0 => none
    | '\x7b' :: _, 0 => none
    | '[' :: rest, depth + 1 => (items? fuel depth rest).map fun (vs, r) => (.array vs, r)
    | '\x7b' :: rest, depth + 1 =>
      match skipBlank rest with
      | '\x7d' :: rest => some (.object [], rest)
      | rest => (pairs? fuel depth rest []).map fun (es, r) => (.object (membersOf es), r)
    | cs, _ => scalar? cs

/-- The items of an array up to its closing bracket. -/
def items? : Nat → Nat → List Char → Option (List Json × List Char)
  | 0, _, _ => none
  | fuel + 1, depth, cs =>
    match skipLines false cs with
    | ']' :: rest => some ([], rest)
    | cs => do
      let (v, rest) ← value? fuel depth cs
      match skipLines false rest with
      | ',' :: rest => (items? fuel depth rest).map fun (vs, r) => (v :: vs, r)
      | ']' :: rest => some ([v], rest)
      | _ => none

/-- The entries of a table on one line up to its closing brace, added to those before. -/
def pairs? : Nat → Nat → List Char → Entries → Option (Entries × List Char)
  | 0, _, _, _ => none
  | fuel + 1, depth, cs, es => do
    let (key, rest) ← key? cs
    let '=' :: rest := rest | none
    let (v, rest) ← value? fuel depth (skipBlank rest)
    let es ← es.assign key v
    match skipBlank rest with
    | ',' :: rest => pairs? fuel depth rest es
    | '\x7d' :: rest => some (es, rest)
    | _ => none

end

inductive Statement where
  | assign (key : KeyPath) (v : Json)
  | header (key : KeyPath)
  | nextHeader (key : KeyPath)

def statement? (cs : List Char) : Option (Statement × List Char) :=
  match cs with
  | '[' :: '[' :: rest => do
    let (key, ']' :: ']' :: rest) ← key? rest | none
    return (.nextHeader key, rest)
  | '[' :: rest => do
    let (key, ']' :: rest) ← key? rest | none
    return (.header key, rest)
  | _ => do
    let (key, '=' :: rest) ← key? cs | none
    let (v, rest) ← value? (cs.length + 1) depthLimit (skipBlank rest)
    return (.assign key v, rest)

/-- The statements of a document, each on a line of its own. -/
def statements? : Nat → List Char → Option (List Statement)
  | 0, _ => none
  | fuel + 1, cs =>
    match skipBlank cs with
    | [] => some []
    | cs =>
      match afterLine? cs with
      | some rest => statements? fuel rest
      | none => do
        let (s, rest) ← statement? cs
        return s :: (← statements? fuel (← afterLine? rest))

/-- Carries out a statement on the path of the current table and the document so far. -/
def perform (state : List String × Entries) : Statement → Option (List String × Entries)
  | .assign key v => do
    return (state.1, ← state.2.changeAt false (fun _ es => es.assign key v) state.1 .header)
  | .header key => do return (key.parents ++ [key.name], ← state.2.openTable key)
  | .nextHeader key => do return (key.parents ++ [key.name], ← state.2.openNext key)

def afterMark : List Char → List Char
  | '\uFEFF' :: rest => rest
  | cs => cs

def parse (text : String) : Option Json := do
  let cs := afterMark text.toList
  let (_, es) ← (← statements? (cs.length + 1) cs).foldlM perform ([], [])
  return .object (membersOf es)

end Keyspace.Toml
