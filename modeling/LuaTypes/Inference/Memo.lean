import LuaTypes.Inference.Trail
import LuaTypes.Ty.Basic

/-!
# The memo of finished types

Final answers are kept under the expression's key and the reach of the request that found them.
-/

namespace LuaTypes

/-- An expression in the reach in which it was inferred. -/
structure MemoKey where
  expr : Key
  reach : Reach
  deriving DecidableEq, Repr

/-- The types found so far. -/
structure Memo where
  types : Dict MemoKey Ty

namespace Memo

/-- The memo without entries. -/
def empty : Memo := ⟨.empty⟩

/-- The type found for a key. -/
def get? (memo : Memo) (key : MemoKey) : Option Ty := memo.types.get? key

/-- The memo with the type found for a key. -/
def insert (memo : Memo) (key : MemoKey) (ty : Ty) : Memo := ⟨memo.types.insert key ty⟩

/-- The memo without the expressions of a file. What other files found out by way of this one
stays. -/
def invalidate (memo : Memo) (file : FileNumber) : Memo :=
  ⟨memo.types.filterKeys fun key => key.expr.file ≠ file⟩

/-- The number of entries. -/
def size (memo : Memo) : Nat := memo.types.size

/-- Whether there are no entries. -/
def isEmpty (memo : Memo) : Bool := memo.size = 0

@[simp] theorem get?_empty (key : MemoKey) : empty.get? key = none := rfl

theorem get?_insert (memo : Memo) (key key' : MemoKey) (ty : Ty) :
    (memo.insert key ty).get? key' = if key' = key then some ty else memo.get? key' :=
  memo.types.get?_insert key key' ty

theorem get?_invalidate (memo : Memo) (file : FileNumber) (key : MemoKey) :
    (memo.invalidate file).get? key = if key.expr.file = file then none else memo.get? key := by
  rw [invalidate, get?, Dict.get?_filterKeys]
  by_cases h : key.expr.file = file <;> simp [h, get?]

end Memo

end LuaTypes
