/-!
# Trees of files

Directories and files as far as reading a file by its path goes: a path is walked from the root, or
from the current directory if it does not begin with a slash, one component after the other.
-/

namespace LuaTypes

/-- A file with its bytes, or a directory with what it holds. -/
inductive FileTree where
  | file (bytes : List UInt8)
  | directory (entries : List (String × FileTree))

/-- Why a file cannot be read as text. -/
inductive ReadError where
  | notFound
  | notDirectory
  | isDirectory
  | nameTooLong
  | nulInPath
  | notText
  deriving DecidableEq, Repr

/-- The wording of a failure to read. -/
def ReadError.message : ReadError → String
  | .notFound => "No such file or directory (os error 2)"
  | .notDirectory => "Not a directory (os error 20)"
  | .isDirectory => "Is a directory (os error 21)"
  | .nameTooLong => "File name too long (os error 36)"
  | .nulInPath => "file name contained an unexpected NUL byte"
  | .notText => "stream did not contain valid UTF-8"

/-- The most bytes that a path may have. -/
def maxPathBytes : Nat := 4095

/-- The most bytes that a component of a path may have. -/
def maxNameBytes : Nat := 255

namespace FileTree

/-- What a directory holds under a name. -/
def child (name : String) : FileTree → Except ReadError FileTree
  | file _ => .error .notDirectory
  | directory entries =>
    if maxNameBytes < name.utf8ByteSize then .error .nameTooLong
    else
      match entries.find? (·.1 = name) with
      | some entry => .ok entry.2
      | none => .error .notFound

/-- Walks a path from the innermost of nested directories; the outermost is its own parent. A
trailing slash leaves an empty component, which only a directory passes. -/
def walk (here : FileTree) (outer : List FileTree) : List String → Except ReadError FileTree
  | [] => .ok here
  | name :: rest =>
    match here with
    | file _ => .error .notDirectory
    | directory _ =>
      if name = "" ∨ name = "." then walk here outer rest
      else if name = ".." then
        match outer with
        | [] => walk here [] rest
        | parent :: outer => walk parent outer rest
      else
        match here.child name with
        | .error e => .error e
        | .ok next => walk next (here :: outer) rest

/-- The bytes of the file at a path. The current directory is given with the directories around it,
from its parent to the root. -/
def read (current : FileTree) (around : List FileTree) (path : String) :
    Except ReadError (List UInt8) :=
  if '\x00' ∈ path.toList then .error .nulInPath
  else if path = "" then .error .notFound
  else if maxPathBytes < path.utf8ByteSize then .error .nameTooLong
  else
    let names := (path.toList.splitOn '/').map String.ofList
    let target :=
      if path.toList.head? = some '/' then walk ((current :: around).getLastD current) [] names
      else walk current around names
    match target with
    | .error e => .error e
    | .ok (directory _) => .error .isDirectory
    | .ok (file bytes) => .ok bytes

end FileTree

/-- The text with this encoding. -/
def textOfBytes (bytes : List UInt8) : Except ReadError String :=
  match String.fromUTF8? ⟨bytes.toArray⟩ with
  | some text => .ok text
  | none => .error .notText

end LuaTypes
