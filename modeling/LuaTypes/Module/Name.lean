import LuaTypes.Text.Blank

/-!
# Names of modules

Two ways lead to the name of a module, a list of segments joined by slashes without an extension.
`nameOfFile` takes the path of a file; `nameOfRequest` takes what a program writes to require a
module, which may be such a path or a dotted name. `expand` puts a name into a pattern.
-/

namespace LuaTypes.Module

/-- Segments joined by slashes. -/
def joined (segments : List (List Char)) : List Char := ['/'].intercalate segments

/-- A backslash separates like a slash. -/
def slash (c : Char) : Char := if c = '\\' then '/' else c

/-! ### Names of files -/

/-- A segment without its extension: what stands before the last dot, unless that is nothing. -/
def stem (segment : List Char) : List Char :=
  let front := (segment.reverse.dropWhile (· ≠ '.')).tail.reverse
  if front.isEmpty then segment else front

/-- Segments, the last of them without its extension; a step to the parent has none. -/
def stemLast : List (List Char) → List (List Char)
  | [] => []
  | [segment] => [if segment = ['.', '.'] then segment else stem segment]
  | segment :: rest => segment :: stemLast rest

/-- Whether a segment names something: it is not empty and no step to the same or the parent
directory. -/
def isProper (segment : List Char) : Bool :=
  segment ≠ [] && segment ≠ ['.'] && segment ≠ ['.', '.']

/-- The segments of a path that are not empty and no step to the same directory. -/
def steps (path : List Char) : List (List Char) :=
  (path.splitOn '/').filter fun segment => segment ≠ [] && segment ≠ ['.']

/-- The name of the module in the file with this path. -/
def nameOfFile (path : List Char) : List Char :=
  (joined ((stemLast (steps path)).filter isProper)).map slash

/-! ### Names in programs -/

/-- A path without the steps to the same directory that it begins with. -/
def dropHere : List Char → List Char
  | '.' :: '/' :: rest => dropHere rest
  | path => path

/-- The extension of source files. -/
def extension : List Char := ['.', 'l', 'u', 'a']

/-- A path without one extension of source files at its end. -/
def dropExtension (path : List Char) : List Char := (extension.isSuffixOf? path).getD path

/-- A dotted name as a path; a text with a slash is a path already, and its dots are part of it. -/
def undotted (path : List Char) : List Char :=
  if '/' ∈ path then path else path.map fun c => if c = '.' then '/' else c

/-- A path without the slashes at its beginning and at its end. -/
def dropSlashes (path : List Char) : List Char :=
  ((path.dropWhile (· = '/')).reverse.dropWhile (· = '/')).reverse

/-- The name of the module that a program asks for; a text of which nothing is left names none. -/
def nameOfRequest (raw : List Char) : Option (List Char) :=
  match dropSlashes (undotted (dropExtension (dropHere ((Text.trim raw).map slash)))) with
  | [] => none
  | name => some name

/-- The name of the module that a program asks for, as strings. -/
def requested (raw : String) : Option String := (nameOfRequest raw.toList).map String.ofList

/-! ### Patterns -/

/-- A pattern with a name in each place of a question mark. -/
def expand (pattern name : List Char) : List Char :=
  pattern.flatMap fun c => if c = '?' then name else [c]

/-- A pattern with a name in each place of a question mark, as strings. -/
def expanded (pattern name : String) : String :=
  String.ofList (expand pattern.toList name.toList)

end LuaTypes.Module
