import LuaTypes.Conventions.Basic
import LuaTypes.FileTree

/-!
# Conventions in files

Conventions loaded from a file: first the file has to be read, then its text has to be a conventions
document.
-/

namespace LuaTypes

/-- Why conventions could not be loaded. -/
inductive LoadError where
  | unreadable (path message : String)
  | invalid (message : String)
  deriving DecidableEq, Repr

/-- The wording of a failure. -/
def LoadError.message : LoadError → String
  | .unreadable path message => "failed to read " ++ path ++ ": " ++ message
  | .invalid message => "failed to parse settings: " ++ message

namespace Conventions

/-- Loads conventions from the text of a document. -/
def load (text : String) : Except LoadError Conventions :=
  (ofText text).mapError fun e => .invalid e.message

/-- Loads conventions from the file at a path. -/
def loadFile (current : FileTree) (around : List FileTree) (path : String) :
    Except LoadError Conventions :=
  match (current.read around path).bind textOfBytes with
  | .error e => .error (.unreadable path e.message)
  | .ok text => load text

end Conventions

end LuaTypes
