import LuaTypes.Conventions.Basic
import LuaTypes.Filed
import LuaTypes.Tree.Expression
import LuaTypes.Ty.Basic

/-!
# Codebases

Inference looks nothing up on its own. Trees, the files of modules and what names refer to come
from a codebase, whose answers may hold any node of any of its files; reading a foreign kind is
their only failure.
-/

namespace LuaTypes

/-- What a name refers to. -/
inductive Binding where
  /-- A variable that begins with the value of an expression. -/
  | initializer (e : Filed Expr)
  /-- A function with a body. -/
  | function (body : Filed Node)
  /-- A type that is known beforehand. -/
  | annotated (ty : Ty)

/-- What inference asks for. -/
structure Codebase where
  /-- The trees of the files, by number. -/
  files : List Tree
  conventions : Conventions
  /-- The file of a module's path, as seen from a file. -/
  moduleFile : String → FileNumber → Reading (Option FileNumber)
  /-- The declaration that a name in use refers to. -/
  bindingOf : Filed Node → Reading (Option Binding)
  /-- The function body that a call leads to, found by name. -/
  calledBody : Filed Node → Reading (Option (Filed Node))
  /-- The declared type of the function with a body. -/
  declaredType : Filed Node → Reading (Option Ty)

namespace Codebase

/-- The root of a file. -/
def root? (codebase : Codebase) (file : FileNumber) : Option Node :=
  codebase.files[file]?.bind Node.root?

/-- The nodes of a file, each before those below it. -/
def nodes (codebase : Codebase) (file : FileNumber) : List Node :=
  match codebase.root? file with
  | some root => root.preorder
  | none => []

end Codebase

end LuaTypes
