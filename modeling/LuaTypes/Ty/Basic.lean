/-!
# Types

An inferred type is a guess at what an expression may evaluate to. Functions carry one signature
per overload, objects their class's name and declared members, unions their members.

Two types mean the same (`Ty.same`) whatever members are known of a class, which is its name, and
whatever the order of a union's members.
-/

namespace LuaTypes

mutual

/-- What an expression may evaluate to. -/
inductive Ty where
  | unknown
  | nil
  | boolean
  | number
  | string
  | function (signatures : List Signature)
  | object (name : String) (members : List Member)
  | union (members : List Ty)

/-- The types of the parameters of a function and of what it returns. -/
inductive Signature where
  | mk (params : List Ty) (ret : Ty)

/-- A declared member of a class. -/
inductive Member where
  | mk (name : String) (ty : Ty)

end

instance : Inhabited Ty := ⟨.unknown⟩

namespace Signature

/-- The types of the parameters. -/
def params : Signature → List Ty
  | mk params _ => params

/-- The type of what is returned. -/
def ret : Signature → Ty
  | mk _ ret => ret

@[simp] theorem params_mk (params : List Ty) (ret : Ty) : (mk params ret).params = params := rfl
@[simp] theorem ret_mk (params : List Ty) (ret : Ty) : (mk params ret).ret = ret := rfl

end Signature

namespace Member

/-- The name of a member. -/
def name : Member → String
  | mk name _ => name

/-- The declared type of a member. -/
def ty : Member → Ty
  | mk _ ty => ty

@[simp] theorem name_mk (name : String) (ty : Ty) : (mk name ty).name = name := rfl
@[simp] theorem ty_mk (name : String) (ty : Ty) : (mk name ty).ty = ty := rfl

end Member

/-! ### Meaning the same -/

mutual

/-- Whether two types mean the same. -/
def Ty.same : Ty → Ty → Bool
  | .unknown, .unknown => true
  | .nil, .nil => true
  | .boolean, .boolean => true
  | .number, .number => true
  | .string, .string => true
  | .function ss, .function ts => sameSignatures ss ts
  | .object name _, .object name' _ => name == name'
  | .union as, .union bs => as.length == bs.length && allFound as bs
  | _, _ => false
termination_by structural a => a

/-- Whether two signatures mean the same. -/
def Signature.same : Signature → Signature → Bool
  | .mk params ret, .mk params' ret' => sameTypes params params' && ret.same ret'
termination_by structural s => s

/-- Whether two lists hold types that mean the same, in the same order. -/
def sameTypes : List Ty → List Ty → Bool
  | [], [] => true
  | a :: as, b :: bs => a.same b && sameTypes as bs
  | _, _ => false
termination_by structural as => as

/-- Whether two lists hold signatures that mean the same, in the same order. -/
def sameSignatures : List Signature → List Signature → Bool
  | [], [] => true
  | s :: ss, t :: ts => s.same t && sameSignatures ss ts
  | _, _ => false
termination_by structural ss => ss

/-- Whether each type of the first list means the same as one of the second. -/
def allFound : List Ty → List Ty → Bool
  | [], _ => true
  | a :: as, bs => bs.any (fun b => a.same b) && allFound as bs
termination_by structural as => as

end

namespace Ty

/-! ### Construction and access -/

/-- A function with one signature. -/
def ofSignature (params : List Ty) (ret : Ty) : Ty := .function [.mk params ret]

/-- A class of which no members are known. -/
def ofClass (name : String) : Ty := .object name []

/-- Members with one of them declared anew: an earlier one of its name gives way. -/
def declare (members : List Member) (name : String) (ty : Ty) : List Member :=
  members.filter (·.name ≠ name) ++ [.mk name ty]

/-- A class with members declared one after the other. -/
def ofMembers (name : String) (members : List (String × Ty)) : Ty :=
  .object name (members.foldl (fun ms m => declare ms m.1 m.2) [])

/-- Whether nothing is known: the bare unknown type, not a union that contains it. -/
def isUnknown : Ty → Bool
  | .unknown => true
  | _ => false

/-- The signatures of a function. -/
def signatures? : Ty → Option (List Signature)
  | .function signatures => some signatures
  | _ => none

/-- The name of a class. -/
def className? : Ty → Option String
  | .object name _ => some name
  | _ => none

/-- The declared type of a member of a class. -/
def member? (name : String) : Ty → Option Ty
  | .object _ members => (members.find? (·.name = name)).map (·.ty)
  | _ => none

/-- A type as a list of alternatives: the members of a union, or the type alone. -/
def alternatives : Ty → List Ty
  | .union members => members
  | ty => [ty]

end Ty

end LuaTypes
