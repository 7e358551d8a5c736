import LuaTypes.Tree.Expression
import LuaTypes.Ty.Basic

/-!
# Typing rules of operators and literals

A table from the operator token to the operands whose types matter. Metamethods are not looked up.
-/

namespace LuaTypes

/-- How the type of a binary expression is found. -/
inductive BinaryTyping where
  /-- Concatenation gives a string. -/
  | concat
  /-- Comparison gives a truth value. -/
  | relational
  /-- The type of the right operand. -/
  | rightOperand
  /-- The union of both operands' types. -/
  | eitherOperand
  /-- The type of the left operand. -/
  | leftOperand
  | unknown
  deriving DecidableEq, Repr

/-- How the type of a unary expression is found. -/
inductive UnaryTyping where
  /-- The type of the operand. -/
  | operand
  /-- A length is a number. -/
  | number
  | unknown
  deriving DecidableEq, Repr

/-- The result of a rule that looks at no operand. -/
def BinaryTyping.constant? : BinaryTyping → Option Ty
  | .concat => some .string
  | .relational => some .boolean
  | .unknown => some .unknown
  | .rightOperand | .eitherOperand | .leftOperand => none

namespace Kind

/-- The rule of a binary operator. -/
def binaryTyping : Kind → BinaryTyping
  | .concat => .concat
  | .ltEq | .eqEq | .lt | .notEq | .gtEq | .gt => .relational
  | .andKw => .rightOperand
  | .orKw => .eitherOperand
  | .amp | .shl | .pipe | .shr | .tilde | .caret | .plus | .minus | .star | .slash | .doubleSlash
  | .percent => .leftOperand
  | _ => .unknown

/-- The rule of a unary operator. -/
def unaryTyping : Kind → UnaryTyping
  | .minus => .operand
  | .hash => .number
  | _ => .unknown

end Kind

/-- The type of what a literal says. -/
def LiteralSort.ty : LiteralSort → Ty
  | .nil => .nil
  | .boolean _ => .boolean
  | .number => .number
  | .string => .string

/-- The type of a literal, by its token alone. -/
def Literal.ty (node : Node) : Ty :=
  match kind? node with
  | some kind => kind.ty
  | none => .unknown

end LuaTypes
