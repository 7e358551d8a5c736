/-!
# Delimited string literals

A string literal of Lua stands between two equal quotes, or between long brackets of one level. Its
value is what stands between the delimiters, escapes left as written; only a newline directly after
a long bracket is not part of it.
-/

namespace LuaTypes.Text

/-- The long bracket of a level that ends a literal. -/
def closingBracket (level : Nat) : List Char := ']' :: (List.replicate level '=' ++ [']'])

/-- The long bracket of a level that begins a literal. -/
def openingBracket (level : Nat) : List Char := '[' :: (List.replicate level '=' ++ ['['])

/-- A text without one newline at its beginning. -/
def dropNewline : List Char → List Char
  | '\n' :: rest => rest
  | text => text

/-- What stands before a quote that ends the text. -/
def beforeQuote (quote : Char) (rest : List Char) : Option (List Char) :=
  if rest.getLast? = some quote then some rest.dropLast else none

/-- What stands between long brackets, given what follows the first character. -/
def withinBrackets (rest : List Char) : Option (List Char) :=
  let level := (rest.takeWhile (· = '=')).length
  match rest.dropWhile (· = '=') with
  | '[' :: body => ((closingBracket level).isSuffixOf? body).map dropNewline
  | _ => none

/-- The value of a string literal; a text that is no delimited literal has none. -/
def undelimit : List Char → Option (List Char)
  | '"' :: rest => beforeQuote '"' rest
  | '\'' :: rest => beforeQuote '\'' rest
  | '[' :: rest => withinBrackets rest
  | _ => none

/-- The value of a string literal given as a string. -/
def undelimited (text : String) : Option String := (undelimit text.toList).map String.ofList

end LuaTypes.Text
