import LuaTypes.Ty.Equality

/-!
# Unions

A union is flat and holds no alternative twice: `gather` takes alternatives one after the other
and keeps the first of those that mean the same, `ofAlternatives` makes a type of what was kept.
Nothing gathered gives the unknown type, a single alternative is itself.

* `Ty.join` is the union of two types, `Ty.joinAll` that of a list.
-/

namespace LuaTypes

/-- Alternatives with one more at the end, unless one of them means the same. -/
def insertNew (kept : List Ty) (ty : Ty) : List Ty :=
  if kept.any (· == ty) then kept else kept ++ [ty]

/-- Alternatives with those of a type added in order. -/
def gather (kept : List Ty) (ty : Ty) : List Ty := ty.alternatives.foldl insertNew kept

namespace Ty

/-- The type with these alternatives. -/
def ofAlternatives : List Ty → Ty
  | [] => .unknown
  | [ty] => ty
  | members => .union members

/-- The union of two types; two that mean the same give the first. -/
def join (a b : Ty) : Ty := if a == b then a else ofAlternatives (gather (gather [] a) b)

/-- The union of a list of types; unknown when the list is empty. -/
def joinAll (tys : List Ty) : Ty := ofAlternatives (tys.foldl gather [])

/-- The number of members of a union. -/
def unionSize? : Ty → Option Nat
  | .union members => some members.length
  | _ => none

/-- Whether a union has a member that means the same as a type. -/
def unionContains? (ty : Ty) : Ty → Option Bool
  | .union members => some (members.any (· == ty))
  | _ => none

end Ty

end LuaTypes
