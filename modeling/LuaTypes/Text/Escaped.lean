import LuaTypes.Text.DefaultIgnorable
import LuaTypes.Text.GraphemeExtend

/-!
# Text on one line

How a listing shows the text of a token: in double quotes, on one line, with every character that
would not be seen as itself written as an escape.
-/

namespace LuaTypes.Text

/-- Whether a character is a halfwidth sound mark: it extends the letter before it, but takes a
column of its own. -/
def isHalfwidthMark (c : Char) : Bool := c = '\uff9e' || c = '\uff9f'

/-- Whether a character is seen as itself wherever it stands. -/
def isVisible (c : Char) : Bool :=
  isPrintable c && !isDefaultIgnorable c && (!isGraphemeExtend c || isHalfwidthMark c)

/-- The escape of a character by its code point, in lower-case hexadecimal digits. -/
def codeEscape (c : Char) : List Char :=
  ['\\', 'u', '\x7b'] ++ Nat.toDigits 16 c.toNat ++ ['\x7d']

/-- A character as it stands between the quotes. -/
def escapeChar (c : Char) : List Char :=
  match c with
  | '\x00' => ['\\', '0']
  | '\t' => ['\\', 't']
  | '\r' => ['\\', 'r']
  | '\n' => ['\\', 'n']
  | '\\' => ['\\', '\\']
  | '"' => ['\\', '"']
  | c => if isVisible c then [c] else codeEscape c

/-- A text in double quotes, on one line. -/
def quoted (text : String) : String :=
  "\"" ++ String.ofList (text.toList.flatMap escapeChar) ++ "\""

end LuaTypes.Text
