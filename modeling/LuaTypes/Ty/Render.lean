import LuaTypes.Ty.Basic

/-!
# Types as text

How types are shown: overloads are joined by an ampersand, alternatives by a bar, a class is its
name.
-/

namespace LuaTypes

mutual

/-- A type as text. -/
def Ty.render : Ty → String
  | .unknown => "unknown"
  | .nil => "nil"
  | .boolean => "boolean"
  | .number => "number"
  | .string => "string"
  | .function signatures => " & ".intercalate (renderSignatures signatures)
  | .object name _ => name
  | .union members => "|".intercalate (renderTypes members)

/-- A signature as text. -/
def Signature.render : Signature → String
  | .mk params ret => "fun(" ++ ", ".intercalate (renderTypes params) ++ "): " ++ ret.render

/-- Each type of a list as text. -/
def renderTypes : List Ty → List String
  | [] => []
  | ty :: rest => ty.render :: renderTypes rest

/-- Each signature of a list as text. -/
def renderSignatures : List Signature → List String
  | [] => []
  | signature :: rest => signature.render :: renderSignatures rest

end

end LuaTypes
