import LuaTypes.Conventions.Quoted

/-!
# Conventions documents

A conventions document is a sequence of lines: blank, a comment, or a key with a list of strings. A
list may run over several lines, with comments, and may end in a comma. Nothing else can be read as
conventions, so no other value has to be understood.
-/

namespace LuaTypes.Conventions

/-- A key with its list of strings. -/
structure Entry where
  key : List Char
  values : List (List Char)
  deriving DecidableEq, Repr

/-- What follows the end of a line, if nothing but blanks and a comment stand before it. -/
def lineEnd? (text : List Char) : Option (List Char) :=
  let rest :=
    match text.dropWhile isSpace with
    | '#' :: comment => comment.dropWhile isPlain
    | rest => rest
  if rest.isEmpty then some [] else afterNewline? rest

/-- A text without the blanks, line breaks and comments that it begins with. -/
def dropFiller (comment : Bool) : List Char → List Char
  | [] => []
  | '\n' :: rest => dropFiller false rest
  | '\r' :: '\n' :: rest => dropFiller false rest
  | c :: rest =>
    if comment then if isPlain c then dropFiller true rest else c :: rest
    else if isSpace c then dropFiller false rest
    else if c = '#' then dropFiller true rest
    else c :: rest

/-- The strings of a list up to its end, with what follows it. The budget is the number of strings
that may be read. -/
def listItems? : Nat → List Char → Option (List (List Char) × List Char)
  | 0, _ => none
  | budget + 1, text =>
    match dropFiller false text with
    | ']' :: rest => some ([], rest)
    | text => do
      let (value, rest) ← quotedString? text
      match dropFiller false rest with
      | ']' :: rest => return ([value], rest)
      | ',' :: rest =>
        let (values, rest) ← listItems? budget rest
        return (value :: values, rest)
      | _ => none

/-- A list of strings with what follows it. -/
def stringList? : List Char → Option (List (List Char) × List Char)
  | '[' :: rest => listItems? rest.length rest
  | _ => none

/-- Whether a character may stand in a key without quotes. -/
def isBare (c : Char) : Bool := c.isAlphanum || c = '-' || c = '_'

/-- A key with what follows it. -/
def key? : List Char → Option (List Char × List Char)
  | '"' :: rest => escapedBody .oneLine false rest
  | '\'' :: rest => literalBody .oneLine rest
  | text =>
    let key := text.takeWhile isBare
    if key.isEmpty then none else some (key, text.dropWhile isBare)

/-- A key with its list and what follows their line. -/
def entry? (text : List Char) : Option (Entry × List Char) := do
  let (key, rest) ← key? (text.dropWhile isSpace)
  match rest.dropWhile isSpace with
  | '=' :: rest =>
    let (values, rest) ← stringList? (rest.dropWhile isSpace)
    let rest ← lineEnd? rest
    return (⟨key, values⟩, rest)
  | _ => none

/-- The entries of a document. The budget is the number of lines that may be read. -/
def entriesWithin? : Nat → List Char → Option (List Entry)
  | _, [] => some []
  | 0, _ => none
  | budget + 1, text =>
    match lineEnd? text with
    | some rest => entriesWithin? budget rest
    | none => do
      let (entry, rest) ← entry? text
      let entries ← entriesWithin? budget rest
      return entry :: entries

/-- The entries of a document; a byte order mark may come first. -/
def entries? (text : List Char) : Option (List Entry) :=
  let text :=
    match text with
    | '\ufeff' :: rest => rest
    | text => text
  entriesWithin? text.length text

end LuaTypes.Conventions
