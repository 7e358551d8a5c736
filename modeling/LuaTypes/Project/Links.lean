import LuaTypes.Project.Basic

/-!
# Links

Answers given beforehand for single names, calls and modules of a project, before its own look-up
is asked. Parts of files are given by number, counted in the order of the nodes of a file.
-/

namespace LuaTypes

/-- The part of a file with a number. -/
structure Part where
  file : FileNumber
  number : Nat
  deriving DecidableEq, Repr

/-- What a name is linked to. -/
inductive Link where
  | initializer (part : Part)
  | function (part : Part)
  | annotated (ty : Ty)
  | nothing

/-- Answers given beforehand. -/
structure Links where
  /-- By the name. -/
  names : List (String × Link)
  /-- By the text of the callee. -/
  calls : List (String × Part)
  /-- By the path, alone or after the number of the asking file and a colon. -/
  modules : List (String × Option FileNumber)

/-- No answers are given beforehand. -/
def Links.empty : Links := ⟨[], [], []⟩

namespace Codebase

/-- The expression with a number. -/
def expr? (codebase : Codebase) (part : Part) : Reading (Option (Filed Expr)) :=
  (hitAt Node.expr? part.number (codebase.nodes part.file)).map fun e =>
    e.map fun e => ⟨part.file, e⟩

/-- The function body with a number. -/
def body? (codebase : Codebase) (part : Part) : Reading (Option (Filed Node)) :=
  (hitAt (Node.ofKind? .funcBody) part.number (codebase.nodes part.file)).map fun body =>
    body.map fun body => ⟨part.file, body⟩

/-- What a link leads to. -/
def follow (codebase : Codebase) : Link → Reading (Option Binding)
  | .initializer part => (codebase.expr? part).map fun e => e.map .initializer
  | .function part => (codebase.body? part).map fun body => body.map .function
  | .annotated ty => return some (.annotated ty)
  | .nothing => return none

/-- The value given for a key. -/
def given? {α : Type} (answers : List (String × α)) (key : String) : Option α :=
  (answers.find? (·.1 = key)).map (·.2)

/-- A codebase with answers given beforehand. Each link is followed once, and what it leads to is
given for every use. -/
def withLinks (codebase : Codebase) (links : Links) : Codebase :=
  let bindings := links.names.map fun (name, link) => (name, codebase.follow link)
  let bodies := links.calls.map fun (callee, part) => (callee, codebase.body? part)
  { codebase with
    moduleFile := fun path origin =>
      match given? links.modules (toString origin ++ ":" ++ path) with
      | some file => return file
      | none =>
        match given? links.modules path with
        | some file => return file
        | none => codebase.moduleFile path origin
    bindingOf := fun name =>
      match (Name.name? name.value).bind (given? bindings) with
      | some binding => binding
      | none => codebase.bindingOf name
    calledBody := fun call => do
      match (← Call.callee call.value).bind fun callee => given? bodies callee.text with
      | some body => body
      | none => codebase.calledBody call }

end Codebase

end LuaTypes
