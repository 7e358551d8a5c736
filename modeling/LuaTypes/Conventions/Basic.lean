import LuaTypes.Conventions.Document

/-!
# Conventions

What cannot be read off a program: which member names build instances, which functions load
modules, and where a module's path may lead. Each convention has a default; a conventions document
replaces those it names.
-/

namespace LuaTypes

/-- The naming conventions of a project. -/
structure Conventions where
  /-- Members whose call gives an instance of the class they belong to. -/
  constructors : List String
  /-- Functions whose call loads a module. -/
  loaders : List String
  /-- Where a module may be found, in order; a question mark stands for its path. -/
  patterns : List String
  deriving DecidableEq, Repr

namespace Conventions

/-- The conventions that hold unless others are set. -/
def standard : Conventions where
  constructors := ["new", "get"]
  loaders := ["require"]
  patterns := ["?", "?/init"]

instance : Inhabited Conventions := ⟨standard⟩

/-- Whether the call of a member with this name gives an instance of its class. -/
def isConstructor (conventions : Conventions) (name : String) : Bool :=
  conventions.constructors.contains name

/-- Whether the call of a function with this name loads a module. -/
def isLoader (conventions : Conventions) (name : String) : Bool :=
  conventions.loaders.contains name

/-- The patterns to try; where none are set, a module's path leads to itself. -/
def candidates (conventions : Conventions) : List String :=
  if conventions.patterns.isEmpty then ["?"] else conventions.patterns

/-! ### Reading -/

/-- Why a text is no conventions document. -/
inductive DocumentError where
  /-- The text is not made of keys with lists of strings. -/
  | malformed
  | unknownKey (key : String)
  | duplicateKey (key : String)
  deriving DecidableEq, Repr

/-- The wording of a refusal. -/
def DocumentError.message : DocumentError → String
  | .malformed => "expected keys with lists of strings"
  | .unknownKey key => "unknown key " ++ key
  | .duplicateKey key => "key set twice: " ++ key

/-- Conventions with one convention set anew. -/
def set? (conventions : Conventions) (key : String) (values : List String) : Option Conventions :=
  match key with
  | "constructor-names" => some { conventions with constructors := values }
  | "require-functions" => some { conventions with loaders := values }
  | "module-patterns" => some { conventions with patterns := values }
  | _ => none

/-- Conventions with the entries of a document set; `seen` holds the keys set before. -/
def setAll (conventions : Conventions) (seen : List (List Char)) :
    List Entry → Except DocumentError Conventions
  | [] => .ok conventions
  | entry :: rest =>
    let key := String.ofList entry.key
    if entry.key ∈ seen then .error (.duplicateKey key)
    else
      match conventions.set? key (entry.values.map String.ofList) with
      | none => .error (.unknownKey key)
      | some conventions => conventions.setAll (entry.key :: seen) rest

/-- The conventions that a document makes of the standard ones. -/
def ofText (text : String) : Except DocumentError Conventions :=
  match entries? text.toList with
  | none => .error .malformed
  | some entries => standard.setAll [] entries

end Conventions

end LuaTypes
