/-!
# Quoted strings of conventions documents

A string stands between double quotes, with escapes, or between single quotes, as it is; between
three quotes of either sort it may run over several lines. Each reader takes what follows the
opening quotes and gives the value with what follows the closing ones.
-/

namespace LuaTypes.Conventions

/-- Whether a character may stand in a string or a comment: controls other than the tab may not. -/
def isPlain (c : Char) : Bool := c = '\t' || (0x20 ≤ c.toNat && c.toNat ≠ 0x7F)

/-- Whether a character is a blank within a line. -/
def isSpace (c : Char) : Bool := c = ' ' || c = '\t'

/-- What follows a line break, if the text begins with one. -/
def afterNewline? : List Char → Option (List Char)
  | '\n' :: rest => some rest
  | '\r' :: '\n' :: rest => some rest
  | _ => none

/-- The value of a hexadecimal digit. -/
def hexDigit? (c : Char) : Option Nat :=
  if c.isDigit then some (c.toNat - '0'.toNat)
  else if 'a' ≤ c && c ≤ 'f' then some (c.toNat - 'a'.toNat + 10)
  else if 'A' ≤ c && c ≤ 'F' then some (c.toNat - 'A'.toNat + 10)
  else none

/-- The number with these hexadecimal digits. -/
def hexNumber? (digits : List Char) : Option Nat :=
  digits.foldlM (fun number c => (hexDigit? c).map (16 * number + ·)) 0

/-- The character whose code point has these hexadecimal digits. -/
def codePoint? (digits : List Char) : Option Char :=
  (hexNumber? digits).bind fun number =>
    if h : number.isValidChar then some (Char.ofNatAux number h) else none

/-- The character that a backslash and a letter stand for. -/
def escape? : Char → Option Char
  | 'b' => some '\x08'
  | 't' => some '\t'
  | 'n' => some '\n'
  | 'f' => some '\x0c'
  | 'r' => some '\r'
  | '"' => some '"'
  | '\\' => some '\\'
  | _ => none

/-- How far a string runs. -/
inductive Span where
  | oneLine
  | manyLines
  deriving DecidableEq, Repr

/-- The end of a string, given what follows a quote in it: the quotes that still belong to the
value, and what follows the string. A string of many lines ends with three quotes, before which one
or two belong to the value. -/
def closing? (span : Span) (quote : Char) (rest : List Char) :
    Option (List Char × List Char) :=
  match span with
  | .oneLine => some ([], rest)
  | .manyLines =>
    if rest.take 4 = [quote, quote, quote, quote] then some ([quote, quote], rest.drop 4)
    else if rest.take 3 = [quote, quote, quote] then some ([quote], rest.drop 3)
    else if rest.take 2 = [quote, quote] then some ([], rest.drop 2)
    else none

/-- A value with one more character in front. -/
def withFront (c : Char) : Option (List Char × List Char) → Option (List Char × List Char) :=
  Option.map fun (value, rest) => (c :: value, rest)

/-- The value of a string in double quotes. After a backslash at the end of a line, `trimming`,
blanks and line breaks are skipped. -/
def escapedBody (span : Span) (trimming : Bool) : List Char → Option (List Char × List Char)
  | [] => none
  | '"' :: rest =>
    match closing? span '"' rest with
    | some stop => some stop
    | none => withFront '"' (escapedBody span false rest)
  | '\\' :: 'u' :: a :: b :: c :: d :: rest =>
    (codePoint? [a, b, c, d]).bind fun char => withFront char (escapedBody span false rest)
  | '\\' :: 'U' :: a :: b :: c :: d :: e :: f :: g :: h :: rest =>
    (codePoint? [a, b, c, d, e, f, g, h]).bind fun char =>
      withFront char (escapedBody span false rest)
  | '\\' :: c :: rest =>
    match escape? c with
    | some char => withFront char (escapedBody span false rest)
    | none =>
      if span = .manyLines && (afterNewline? ((c :: rest).dropWhile isSpace)).isSome then
        escapedBody span true rest
      else none
  | '\n' :: rest =>
    if span = .oneLine then none
    else if trimming then escapedBody span true rest
    else withFront '\n' (escapedBody span false rest)
  | '\r' :: '\n' :: rest =>
    if span = .oneLine then none
    else if trimming then escapedBody span true rest
    else withFront '\n' (escapedBody span false rest)
  | c :: rest =>
    if trimming && isSpace c then escapedBody span true rest
    else if c ≠ '\\' && isPlain c then withFront c (escapedBody span false rest)
    else none

/-- The value of a string in single quotes. -/
def literalBody (span : Span) : List Char → Option (List Char × List Char)
  | [] => none
  | '\'' :: rest =>
    match closing? span '\'' rest with
    | some stop => some stop
    | none => withFront '\'' (literalBody span rest)
  | '\n' :: rest => if span = .oneLine then none else withFront '\n' (literalBody span rest)
  | '\r' :: '\n' :: rest =>
    if span = .oneLine then none else withFront '\n' (literalBody span rest)
  | c :: rest => if isPlain c then withFront c (literalBody span rest) else none

/-- A text without one line break at its beginning. -/
def dropNewline (text : List Char) : List Char := (afterNewline? text).getD text

/-- A string with what follows it. -/
def quotedString? : List Char → Option (List Char × List Char)
  | '"' :: '"' :: '"' :: rest => escapedBody .manyLines false (dropNewline rest)
  | '"' :: rest => escapedBody .oneLine false rest
  | '\'' :: '\'' :: '\'' :: rest => literalBody .manyLines (dropNewline rest)
  | '\'' :: rest => literalBody .oneLine rest
  | _ => none

end LuaTypes.Conventions
