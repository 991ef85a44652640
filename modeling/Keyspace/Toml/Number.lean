import Keyspace.Json.Decode

/-!
Numbers in TOML documents. Underscores may separate the digits of a number. Integers have 64 bits with the
sign, and those written without a sign may be in hexadecimal, octal or binary digits. Other numbers keep no
value, but one that is too great for 64-bit floating point is refused. One that is too far below zero is
not: it counts as minus infinity, which a document may also name.
-/
namespace Keyspace.Toml

/-- More digits of a number; an underscore needs a digit on both sides. -/
def moreDigits (isDigit : Char → Bool) : List Char → Option (List Char × List Char)
  | [] => some ([], [])
  | '_' :: c :: rest =>
    if isDigit c then (moreDigits isDigit rest).map fun (ds, r) => (c :: ds, r) else none
  | c :: rest =>
    if isDigit c then (moreDigits isDigit rest).map fun (ds, r) => (c :: ds, r)
    else if c == '_' then none
    else some ([], c :: rest)

/-- The digits of a number, of which there is at least one. -/
def digits? (isDigit : Char → Bool) : List Char → Option (List Char × List Char)
  | [] => none
  | c :: rest =>
    if isDigit c then (moreDigits isDigit rest).map fun (ds, r) => (c :: ds, r) else none

def isDigitOf (base : Nat) (c : Char) : Bool := (Hex.digitValue? c).any (· < base)

def ofDigits (base : Nat) (ds : List Char) : Nat :=
  ds.foldl (fun n c => base * n + (Hex.digitValue? c).getD 0) 0

/-- An integer that has 64 bits. -/
def integer? (n : Int) : Option Json := do
  let _ ← (Json.integer n).int64?
  return .integer n

/-- The digits before a point, an exponent or the end; a zero stands alone. -/
def wholeDigits? : List Char → Option (List Char × List Char)
  | '0' :: rest => some (['0'], rest)
  | cs => digits? Char.isDigit cs

/-- A number in the digits of a base. -/
def based? (base : Nat) (cs : List Char) : Option (Json × List Char) := do
  let (ds, rest) ← digits? (isDigitOf base) cs
  return (← integer? (ofDigits base ds), rest)

/-- What follows a sign, and whether it is a minus. -/
def sign : List Char → Bool × List Char
  | '-' :: rest => (true, rest)
  | '+' :: rest => (false, rest)
  | cs => (false, cs)

/-- The exponent of a number, zero where none is written, and what follows it. -/
def exponent? : List Char → Option (Int × List Char)
  | c :: rest =>
    if c == 'e' || c == 'E' then do
      let (negative, rest) := sign rest
      let (ds, rest) ← digits? Char.isDigit rest
      let n := ofDigits 10 ds
      return (if negative then -n else n, rest)
    else some (0, c :: rest)
  | [] => some (0, [])

/-- The least number that rounds to infinity: the middle between the greatest number of 53 bits below
the 1024th power of two and that power, where the tie goes up. -/
def overflowBound : Nat := Nat.pow 2 1024 - Nat.pow 2 970

/-- Whether digits times a power of ten reach the overflow bound, which has 309 digits. The count of the
digits before the point settles all numbers but those with 309 of them. -/
def overflows (ds : List Char) (exponent : Int) : Bool :=
  let shown := ds.dropWhile (· == '0')
  let magnitude := shown.length + exponent
  if shown.isEmpty || magnitude < 309 then false
  else if 309 < magnitude then true
  else overflowBound * Nat.pow 10 (-exponent).toNat ≤ ofDigits 10 shown * Nat.pow 10 exponent.toNat

/-- A number that is not an integer, from its digits and the power of ten they are multiplied with. -/
def fraction? (negative : Bool) (ds : List Char) (exponent : Int) : Option Json :=
  if !negative && overflows ds exponent then none else some .fraction

/-- A number that starts with a digit or a sign. -/
def decimal? (cs : List Char) : Option (Json × List Char) := do
  let (negative, cs) := sign cs
  match cs with
  | 'i' :: 'n' :: 'f' :: rest => return (.fraction, rest)
  | 'n' :: 'a' :: 'n' :: rest => return (.fraction, rest)
  | _ =>
    let (ds, rest) ← wholeDigits? cs
    match rest with
    | '.' :: rest =>
      let (places, rest) ← digits? Char.isDigit rest
      let (exponent, rest) ← exponent? rest
      return (← fraction? negative (ds ++ places) (exponent - places.length), rest)
    | _ =>
      let (exponent, after) ← exponent? rest
      if after.length < rest.length then return (← fraction? negative ds exponent, after)
      let n := ofDigits 10 ds
      return (← integer? (if negative then -n else n), rest)

def number? : List Char → Option (Json × List Char)
  | '0' :: 'x' :: rest => based? 16 rest
  | '0' :: 'o' :: rest => based? 8 rest
  | '0' :: 'b' :: rest => based? 2 rest
  | cs => decimal? cs

end Keyspace.Toml
