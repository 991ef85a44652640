import Keyspace.Json.Decode

/-!
Dates and times in TOML documents. A moment is kept as its text in a uniform spelling: `T` before the time,
no zeros at the end of the fraction of a second and at most nine digits in it, and `Z` for a zero offset
that is written as a letter.
-/
namespace Keyspace.Toml

/-- Whether two characters are the digits of a number from `low` to `high`. -/
def isPair (low high : Nat) (a b : Char) : Bool :=
  let n := Nat.ofDigitChars 10 [a, b] 0
  a.isDigit && b.isDigit && low ≤ n && n ≤ high

def daysOfMonth (year month : Nat) : Nat :=
  if month = 2 then
    if year % 4 = 0 ∧ (year % 100 ≠ 0 ∨ year % 400 = 0) then 29 else 28
  else if month ∈ [4, 6, 9, 11] then 30
  else 31

def date? : List Char → Option (List Char × List Char)
  | y :: y' :: y'' :: y''' :: '-' :: m :: m' :: '-' :: d :: d' :: rest =>
    let year := [y, y', y'', y''']
    let days := daysOfMonth (Nat.ofDigitChars 10 year 0) (Nat.ofDigitChars 10 [m, m'] 0)
    if year.all Char.isDigit && isPair 1 12 m m' && isPair 1 days d d' then
      some (year ++ ['-', m, m', '-', d, d'], rest)
    else none
  | _ => none

/-- The fraction of a second, if there is one. -/
def secondFraction : List Char → List Char × List Char
  | '.' :: cs =>
    match cs.span Char.isDigit with
    | ([], _) => ([], '.' :: cs)
    | (ds, rest) =>
      let shown := ((ds.take 9).reverse.dropWhile (· == '0')).reverse
      (if shown.isEmpty then [] else '.' :: shown, rest)
  | cs => ([], cs)

def time? : List Char → Option (List Char × List Char)
  | h :: h' :: ':' :: m :: m' :: ':' :: s :: s' :: rest =>
    if isPair 0 23 h h' && isPair 0 59 m m' && isPair 0 60 s s' then
      let (fraction, rest) := secondFraction rest
      some ([h, h', ':', m, m', ':', s, s'] ++ fraction, rest)
    else none
  | _ => none

/-- The distance to the zero meridian, if there is one. -/
def offset : List Char → List Char × List Char
  | sign :: h :: h' :: ':' :: m :: m' :: rest =>
    if (sign == '+' || sign == '-') && isPair 0 23 h h' && isPair 0 59 m m' then
      let digits := [h, h', ':', m, m']
      (if digits == ['0', '0', ':', '0', '0'] then '+' :: digits else sign :: digits, rest)
    else zone (sign :: h :: h' :: ':' :: m :: m' :: rest)
  | cs => zone cs
where
  zone : List Char → List Char × List Char
    | c :: rest => if c == 'Z' || c == 'z' then (['Z'], rest) else ([], c :: rest)
    | [] => ([], [])

def moment? (cs : List Char) : Option (List Char × List Char) :=
  match date? cs with
  | none => time? cs
  | some (date, c :: rest) =>
    match time? rest with
    | some (time, rest) =>
      if c == 'T' || c == 't' || c == ' ' then
        let (offset, rest) := offset rest
        some (date ++ 'T' :: time ++ offset, rest)
      else some (date, c :: rest)
    | none => some (date, c :: rest)
  | date => date

end Keyspace.Toml
