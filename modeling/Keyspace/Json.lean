import Keyspace.Text.Hex

/-!
JSON values and their two written forms: the compact one on one line, and the indented one with two
spaces a level and every member on a line of its own.
-/
namespace Keyspace

/-- A JSON value. Members keep their order and may share a name. -/
inductive Json where
  | null
  | bool (b : Bool)
  | integer (n : Int)
  /-- A number written with a fraction or an exponent, or minus zero. -/
  | fraction
  | string (s : String)
  /-- A string, or an object with a name, that holds half of a surrogate pair and so stands for no text. -/
  | illFormed
  | array (items : List Json)
  | object (members : List (String × Json))
  deriving Inhabited

namespace Json

def escapeChar (c : Char) : List Char :=
  if c = '"' then ['\\', '"']
  else if c = '\\' then ['\\', '\\']
  else if c = '\x08' then ['\\', 'b']
  else if c = '\x0c' then ['\\', 'f']
  else if c = '\n' then ['\\', 'n']
  else if c = '\r' then ['\\', 'r']
  else if c = '\t' then ['\\', 't']
  else if c.toNat < 32 then
    ['\\', 'u', '0', '0', Hex.digit (c.toNat / 16), Hex.digit (c.toNat % 16)]
  else [c]

def quote (s : String) : List Char := '"' :: s.toList.flatMap escapeChar ++ ['"']

/-- A string that stands for no text. -/
def quoteIllFormed : List Char := ['"', '\\', 'u', 'd', '8', '0', '0', '"']

def decimal (n : Int) : List Char :=
  if n < 0 then '-' :: Nat.toDigits 10 n.natAbs else Nat.toDigits 10 n.natAbs

mutual

def compactChars : Json → List Char
  | null => ['n', 'u', 'l', 'l']
  | bool true => ['t', 'r', 'u', 'e']
  | bool false => ['f', 'a', 'l', 's', 'e']
  | integer n => decimal n
  | fraction => ['-', '0']
  | string s => quote s
  | illFormed => quoteIllFormed
  | array [] => ['[', ']']
  | array (v :: vs) => '[' :: compactChars v ++ compactItems vs
  | object [] => ['{', '}']
  | object ((k, v) :: ms) => '{' :: quote k ++ ':' :: compactChars v ++ compactMembers ms

/-- The items after the first one, and the closing bracket. -/
def compactItems : List Json → List Char
  | [] => [']']
  | v :: vs => ',' :: compactChars v ++ compactItems vs

/-- The members after the first one, and the closing brace. -/
def compactMembers : List (String × Json) → List Char
  | [] => ['}']
  | (k, v) :: ms => ',' :: quote k ++ ':' :: compactChars v ++ compactMembers ms

end

def newline (depth : Nat) : List Char := '\n' :: List.replicate (2 * depth) ' '

mutual

def prettyChars (depth : Nat) : Json → List Char
  | null => ['n', 'u', 'l', 'l']
  | bool true => ['t', 'r', 'u', 'e']
  | bool false => ['f', 'a', 'l', 's', 'e']
  | integer n => decimal n
  | fraction => ['-', '0']
  | string s => quote s
  | illFormed => quoteIllFormed
  | array [] => ['[', ']']
  | array (v :: vs) =>
    '[' :: newline (depth + 1) ++ prettyChars (depth + 1) v ++ prettyItems depth vs
  | object [] => ['{', '}']
  | object ((k, v) :: ms) =>
    '{' :: newline (depth + 1) ++ quote k ++ ':' :: ' ' :: prettyChars (depth + 1) v ++
      prettyMembers depth ms

/-- The items after the first one, and the closing bracket. -/
def prettyItems (depth : Nat) : List Json → List Char
  | [] => newline depth ++ [']']
  | v :: vs => ',' :: newline (depth + 1) ++ prettyChars (depth + 1) v ++ prettyItems depth vs

/-- The members after the first one, and the closing brace. -/
def prettyMembers (depth : Nat) : List (String × Json) → List Char
  | [] => newline depth ++ ['}']
  | (k, v) :: ms =>
    ',' :: newline (depth + 1) ++ quote k ++ ':' :: ' ' :: prettyChars (depth + 1) v ++
      prettyMembers depth ms

end

def compact (v : Json) : String := String.ofList (compactChars v)

end Json

end Keyspace
