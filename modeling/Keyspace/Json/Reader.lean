import Keyspace.Json

/-!
Reading JSON texts. The grammar is the strict one: no comments, no trailing commas, no leading zeros or
plus signs, and no bare control characters in strings.
-/
namespace Keyspace.Json

def isBlank (c : Char) : Bool := c == ' ' || c == '\n' || c == '\t' || c == '\r'

/-- The characters from the first one that is not blank. -/
def skipBlank (cs : List Char) : List Char := cs.dropWhile isBlank

def afterWord (word cs : List Char) : Option (List Char) :=
  if word.isPrefixOf cs then some (cs.drop word.length) else none

def hex4? (a b c d : Char) : Option Nat := do
  let a ← Hex.digitValue? a
  let b ← Hex.digitValue? b
  let c ← Hex.digitValue? c
  let d ← Hex.digitValue? d
  return 4096 * a + 256 * b + 16 * c + d

/-- The character behind a backslash and a letter other than `u`. -/
def escaped? (c : Char) : Option Char :=
  if c = '"' then some '"'
  else if c = '\\' then some '\\'
  else if c = '/' then some '/'
  else if c = 'b' then some '\x08'
  else if c = 'f' then some '\x0c'
  else if c = 'n' then some '\n'
  else if c = 'r' then some '\r'
  else if c = 't' then some '\t'
  else none

/-- Puts a character in front of a text. -/
def andThen (c : Char) (r : Option (Option (List Char) × List Char)) :
    Option (Option (List Char) × List Char) :=
  r.map fun (s, rest) => (s.map (c :: ·), rest)

/-- Whether a number is the first half of a surrogate pair. -/
def isHighHalf (n : Nat) : Bool := 0xD800 ≤ n && n < 0xDC00

def isLowHalf (n : Nat) : Bool := 0xDC00 ≤ n && n < 0xE000

/-- The rest of a string after its opening quote, if it stands for a text, and what follows the closing
one. Half of a surrogate pair on its own stands for no text. -/
def stringBody : List Char → Option (Option (List Char) × List Char)
  | [] => none
  | '"' :: rest => some (some [], rest)
  | '\\' :: 'u' :: a :: b :: c :: d :: '\\' :: 'u' :: e :: f :: g :: h :: rest =>
    match hex4? a b c d, hex4? e f g h with
    | some n, some m =>
      if isHighHalf n && isLowHalf m then
        andThen (Char.ofNat (0x10000 + 1024 * (n - 0xD800) + (m - 0xDC00))) (stringBody rest)
      else if isHighHalf n || isLowHalf n then
        (stringBody ('\\' :: 'u' :: e :: f :: g :: h :: rest)).map fun (_, r) => (none, r)
      else andThen (Char.ofNat n) (stringBody ('\\' :: 'u' :: e :: f :: g :: h :: rest))
    | _, _ => none
  | '\\' :: 'u' :: a :: b :: c :: d :: rest =>
    match hex4? a b c d with
    | none => none
    | some n =>
      if isHighHalf n || isLowHalf n then (stringBody rest).map fun (_, r) => (none, r)
      else andThen (Char.ofNat n) (stringBody rest)
  | '\\' :: c :: rest =>
    match escaped? c with
    | none => none
    | some c => andThen c (stringBody rest)
  | c :: rest => if c.toNat < 32 || c == '\\' then none else andThen c (stringBody rest)

/-- The digits at the front, and what follows them. -/
def digits (cs : List Char) : List Char × List Char := cs.span Char.isDigit

/-- What follows the fraction of a number, and whether there is one. -/
def fractionPart : List Char → Option (Bool × List Char)
  | '.' :: cs =>
    match digits cs with
    | ([], _) => none
    | (_, rest) => some (true, rest)
  | cs => some (false, cs)

/-- What follows a sign, if there is one. -/
def afterSign : List Char → List Char
  | '+' :: cs => cs
  | '-' :: cs => cs
  | cs => cs

/-- What follows the exponent of a number, and whether there is one. -/
def exponentPart : List Char → Option (Bool × List Char)
  | c :: cs =>
    if c = 'e' ∨ c = 'E' then
      match digits (afterSign cs) with
      | ([], _) => none
      | (_, rest) => some (true, rest)
    else some (false, c :: cs)
  | [] => some (false, [])

def unsigned (negative : Bool) (cs : List Char) : Option (Json × List Char) :=
  match digits cs with
  | ([], _) => none
  | (ds, rest) =>
    if ds.length > 1 ∧ ds.head? = some '0' then none
    else do
      let (hasFraction, rest) ← fractionPart rest
      let (hasExponent, rest) ← exponentPart rest
      let n := Nat.ofDigitChars 10 ds 0
      if hasFraction || hasExponent || (negative && n == 0) then return (fraction, rest)
      return (integer (if negative then -n else n), rest)

def number : List Char → Option (Json × List Char)
  | '-' :: cs => unsigned true cs
  | cs => unsigned false cs

/-- A string, or what stands for none. -/
def ofText : Option (List Char) → Json
  | some s => string (String.ofList s)
  | none => illFormed

/-- An object, or what stands for none. -/
def ofMembers : Option (List (String × Json)) → Json
  | some ms => object ms
  | none => illFormed

mutual

/-- A value at the front of some characters, and what follows it; values nest at most `fuel` deep. -/
def value : Nat → List Char → Option (Json × List Char)
  | 0, _ => none
  | fuel + 1, cs =>
    match skipBlank cs with
    | [] => none
    | c :: rest =>
      if c = '"' then (stringBody rest).map fun (s, r) => (ofText s, r)
      else if c = '[' then
        match skipBlank rest with
        | ']' :: r => some (array [], r)
        | _ => (items fuel rest).map fun (vs, r) => (array vs, r)
      else if c = '{' then
        match skipBlank rest with
        | '}' :: r => some (object [], r)
        | _ => (members fuel rest).map fun (ms, r) => (ofMembers ms, r)
      else if c = 'n' then (afterWord ['u', 'l', 'l'] rest).map fun r => (null, r)
      else if c = 't' then (afterWord ['r', 'u', 'e'] rest).map fun r => (bool true, r)
      else if c = 'f' then (afterWord ['a', 'l', 's', 'e'] rest).map fun r => (bool false, r)
      else number (c :: rest)

def items : Nat → List Char → Option (List Json × List Char)
  | 0, _ => none
  | fuel + 1, cs => do
    let (v, rest) ← value fuel cs
    match skipBlank rest with
    | ']' :: r => some ([v], r)
    | ',' :: r => (items fuel r).map fun (vs, r) => (v :: vs, r)
    | _ => none

/-- The members of an object up to its closing brace, if all their names are texts. -/
def members : Nat → List Char → Option (Option (List (String × Json)) × List Char)
  | 0, _ => none
  | fuel + 1, cs =>
    match skipBlank cs with
    | '"' :: rest => do
      let (k, rest) ← stringBody rest
      match skipBlank rest with
      | ':' :: rest => do
        let (v, rest) ← value fuel rest
        let m := k.map fun k => (String.ofList k, v)
        match skipBlank rest with
        | '}' :: r => some (m.map ([·]), r)
        | ',' :: r => (members fuel r).map fun (ms, r) => (do return (← m) :: (← ms), r)
        | _ => none
      | _ => none
    | _ => none

end

def parseChars (cs : List Char) : Option Json := do
  let (v, rest) ← value (cs.length + 1) cs
  if (skipBlank rest).isEmpty then some v else none

def parse (text : String) : Option Json := parseChars text.toList

end Keyspace.Json
