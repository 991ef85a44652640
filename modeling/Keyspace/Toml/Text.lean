import Keyspace.Text.Hex

/-!
The smallest parts of TOML documents: blanks, comments and ends of lines, strings, and keys. Reading takes
a part off the front of some characters and returns what follows it.
-/
namespace Keyspace.Toml

/-! ## Lines -/

def isBlank (c : Char) : Bool := c == ' ' || c == '\t'

def skipBlank (cs : List Char) : List Char := cs.dropWhile isBlank

/-- Whether a character may stand for itself in strings and comments. -/
def isPlain (c : Char) : Bool := c == '\t' || (32 ≤ c.toNat && c.toNat != 127)

def afterBreak? : List Char → Option (List Char)
  | '\n' :: rest => some rest
  | '\r' :: '\n' :: rest => some rest
  | _ => none

/-- What follows the end of a line, which may hold blanks and a comment before it. -/
def afterLine? (cs : List Char) : Option (List Char) :=
  let rest := match skipBlank cs with
    | '#' :: comment => comment.dropWhile isPlain
    | rest => rest
  if rest.isEmpty then some [] else afterBreak? rest

/-- What follows blanks, line breaks and comments. -/
def skipLines (inComment : Bool) : List Char → List Char
  | [] => []
  | c :: rest =>
    if c == '\n' || (c == '\r' && rest.head? == some '\n') then skipLines false rest
    else if inComment then if isPlain c then skipLines true rest else c :: rest
    else if c == '#' then skipLines true rest
    else if isBlank c then skipLines false rest
    else c :: rest

/-! ## Strings -/

/-- What a backslash and a letter stand for. -/
def escaped? (c : Char) : Option Char :=
  if c = 'b' then some '\x08'
  else if c = 't' then some '\t'
  else if c = 'n' then some '\n'
  else if c = 'f' then some '\x0c'
  else if c = 'r' then some '\r'
  else if c = '"' then some '"'
  else if c = '\\' then some '\\'
  else none

/-- The character with a number in hexadecimal digits. -/
def numbered? (digits : List Char) : Option Char := do
  let n ← digits.foldlM (fun n c => (Hex.digitValue? c).map (16 * n + ·)) 0
  if n.isValidChar then some (Char.ofNat n) else none

/-- Puts a character in front of what was read. -/
def andThen (c : Char) (r : Option (List Char × List Char)) : Option (List Char × List Char) :=
  r.map fun (s, rest) => (c :: s, rest)

/-- The end of a string of several lines after a first quote: of up to five quotes in a row the last
three close the string and the others belong to it. -/
def closing? (quote : Char) (cs : List Char) : Option (List Char × List Char) :=
  let quotes := (cs.take 4).takeWhile (· == quote)
  if quotes.length < 2 then none
  else some (List.replicate (quotes.length - 2) quote, cs.drop quotes.length)

/-- Whether what follows a backslash is the end of a line. -/
def continuesLine (cs : List Char) : Bool := (afterBreak? (skipBlank cs)).isSome

/-- The rest of a quoted string with escapes after its opening, and what follows it. After a backslash at
the end of a line all blanks and line breaks are trimmed. -/
def quoted (manyLines trimming : Bool) : List Char → Option (List Char × List Char)
  | [] => none
  | '\\' :: 'u' :: a :: b :: c :: d :: rest => do
    andThen (← numbered? [a, b, c, d]) (quoted manyLines false rest)
  | '\\' :: 'U' :: a :: b :: c :: d :: e :: f :: g :: h :: rest => do
    andThen (← numbered? [a, b, c, d, e, f, g, h]) (quoted manyLines false rest)
  | '\\' :: c :: rest =>
    if manyLines && continuesLine (c :: rest) then quoted manyLines true rest
    else do andThen (← escaped? c) (quoted manyLines false rest)
  | c :: rest =>
    if trimming && (isBlank c || c == '\n' || (c == '\r' && rest.head? == some '\n')) then
      quoted manyLines true rest
    else if c == '"' then
      if manyLines then (closing? '"' rest).or (andThen c (quoted manyLines false rest))
      else some ([], rest)
    else if manyLines && c == '\r' && rest.head? == some '\n' then quoted manyLines false rest
    else if c != '\\' && (isPlain c || (manyLines && c == '\n')) then
      andThen c (quoted manyLines false rest)
    else none

def literalQuote : Char := '\x27'

/-- The rest of a literal string, which has no escapes, and what follows it. -/
def literal (manyLines : Bool) : List Char → Option (List Char × List Char)
  | [] => none
  | c :: rest =>
    if c == literalQuote then
      if manyLines then (closing? literalQuote rest).or (andThen c (literal manyLines rest))
      else some ([], rest)
    else if manyLines && c == '\r' && rest.head? == some '\n' then literal manyLines rest
    else if isPlain c || (manyLines && c == '\n') then andThen c (literal manyLines rest)
    else none

def lineString? : List Char → Option (List Char × List Char)
  | [] => none
  | c :: rest =>
    if c == '"' then quoted false false rest
    else if c == literalQuote then literal false rest
    else none

/-- A string; a line break right after the opening of a string of several lines does not count. -/
def string? (cs : List Char) : Option (List Char × List Char) :=
  let body := (afterBreak? (cs.drop 3)).getD (cs.drop 3)
  if ['"', '"', '"'].isPrefixOf cs then quoted true false body
  else if [literalQuote, literalQuote, literalQuote].isPrefixOf cs then literal true body
  else lineString? cs

/-! ## Keys -/

/-- A dotted key: the tables that it leads through, and the name in the last one. -/
structure KeyPath where
  parents : List String
  name : String

def isBare (c : Char) : Bool := c.isAlphanum || c == '-' || c == '_'

def keyPart? (cs : List Char) : Option (String × List Char) :=
  (match cs.span isBare with
    | ([], _) => lineString? cs
    | bare => some bare).map fun (s, rest) => (String.ofList s, rest)

/-- A key of at most so many parts, with blanks around each of them. -/
def keyPath? : Nat → List Char → Option (KeyPath × List Char)
  | 0, _ => none
  | parts + 1, cs => do
    let (name, rest) ← keyPart? (skipBlank cs)
    match skipBlank rest with
    | '.' :: rest =>
      let (path, rest) ← keyPath? parts rest
      return (⟨name :: path.parents, path.name⟩, rest)
    | rest => return (⟨[], name⟩, rest)

/-- How many parts a key may have, and how deep values may nest. -/
def depthLimit : Nat := 79

def key? (cs : List Char) : Option (KeyPath × List Char) := keyPath? depthLimit cs

end Keyspace.Toml
