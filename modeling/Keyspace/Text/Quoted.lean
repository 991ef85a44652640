import Keyspace.Text.Hex
import Keyspace.Text.Hidden

/-!
Strings as messages quote them: in double quotes, with quotes, backslashes and characters that do not
show by themselves escaped. A hidden character is written with its number in hexadecimal digits.
-/
namespace Keyspace.Text

def quoteChar (c : Char) : List Char :=
  if c = '"' then ['\\', '"']
  else if c = '\\' then ['\\', '\\']
  else if c = '\n' then ['\\', 'n']
  else if c = '\r' then ['\\', 'r']
  else if c = '\t' then ['\\', 't']
  else if c = '\x00' then ['\\', '0']
  else if isHidden c then ['\\', 'u', '{'] ++ Nat.toDigits 16 c.toNat ++ ['}']
  else [c]

def quote (s : String) : String := String.ofList ('"' :: s.toList.flatMap quoteChar ++ ['"'])

def bracketed (items : List String) : String := "[" ++ ", ".intercalate items ++ "]"

def quoteList (strings : List String) : String := bracketed (strings.map quote)

end Keyspace.Text
