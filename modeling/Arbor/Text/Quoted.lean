import Arbor.Text.Unprintable

/-!
Text between double quotes, as values and tokens are shown. Quotes and backslashes are escaped
by a backslash, the common controls have a letter, and unprintable characters are written by
their code.
-/
namespace Arbor.Text

/-- The lower-case hexadecimal digits of `n`. -/
def hex (n : Nat) : String := String.ofList (Nat.toDigits 16 n)

def quotedChar (c : Char) : String :=
  if c = '"' then "\\\""
  else if c = '\\' then "\\\\"
  else if c = '\n' then "\\n"
  else if c = '\r' then "\\r"
  else if c = '\t' then "\\t"
  else if c.toNat = 0 then "\\0"
  else if isUnprintable c then "\\u\x7b" ++ hex c.toNat ++ "\x7d"
  else c.toString

/-- `text` between quotes. -/
def quoted (text : String) : String :=
  "\"" ++ String.join (text.toList.map quotedChar) ++ "\""

end Arbor.Text
