import LuaTypes.Ty.Join

/-!
# What a call gives

A callee contributes the returns of its signatures and the classes that it may be. The bare unknown
type contributes nothing, so that an overload without a known return does not hide the others.
-/

namespace LuaTypes.Call

/-- What one alternative of the callee's type contributes. -/
def contribution : Ty → List Ty
  | .function signatures => signatures.map (·.ret)
  | ty@(.object ..) => [ty]
  | _ => []

/-- What the callee's type contributes, the bare unknown type left out. -/
def contributions (callee : Ty) : List Ty :=
  (callee.alternatives.flatMap contribution).filter (!·.isUnknown)

/-- The type that the callee's type gives to a call. -/
def direct (callee : Ty) : Ty := Ty.joinAll (contributions callee)

/-- The type of a call that also gives an instance of its owner. -/
def withOwner (ty owner : Ty) : Ty :=
  if ty.isUnknown then owner else if owner.isUnknown then ty else ty.join owner

end LuaTypes.Call
