/-
Quoted text.

A quoted text stands between double quotes. A quote, a backslash and four control characters have short escapes. Other
characters are written as they are if they can be printed, and by their number in hexadecimal if not.
-/
import PostQuantum.Text.Printable

namespace PostQuantum.Text

/-- a character as it is written between quotes -/
def escape (c : Char) : String :=
  match c with
  | '"' => "\\\""
  | '\\' => "\\\\"
  | '\n' => "\\n"
  | '\t' => "\\t"
  | '\r' => "\\r"
  | '\x00' => "\\0"
  | c => if isPrintable c then c.toString else "\\u\x7b" ++ String.ofList (Nat.toDigits 16 c.toNat) ++ "\x7d"

def quoted (s : String) : String :=
  "\"" ++ String.join (s.toList.map escape) ++ "\""

end PostQuantum.Text
