import LuaTypes.Filed
import LuaTypes.Tree.Expression
import LuaTypes.Ty.Basic

/-!
# Inquiries

What finding a type takes, apart from how it is gone about: an inquiry is finished, or has met a
foreign kind, or asks for the type of an expression and goes on with the answer. The rules of
inference are inquiries; trail and memo belong to whoever answers them.
-/

namespace LuaTypes

/-- A computation that asks for the types of expressions. -/
inductive Inquiry (α : Type) where
  | done (value : α)
  | fail (foreign : ForeignKind)
  | ask (e : Filed Expr) (next : Ty → Inquiry α)

namespace Inquiry

variable {α β γ : Type}

/-- An inquiry that goes on with the outcome of another one. -/
def andThen : Inquiry α → (α → Inquiry β) → Inquiry β
  | done value, f => f value
  | fail foreign, _ => fail foreign
  | ask e next, f => ask e fun ty => (next ty).andThen f

instance : Monad Inquiry where
  pure := done
  bind := andThen

/-- The type of an expression. -/
def typeOf (e : Filed Expr) : Inquiry Ty := ask e done

/-- What reading a tree gives. -/
def ofReading : Reading α → Inquiry α
  | .ok value => done value
  | .error foreign => fail foreign

instance : MonadLift Reading Inquiry := ⟨ofReading⟩

@[simp] theorem pure_eq (value : α) : (pure value : Inquiry α) = done value := rfl

@[simp] theorem done_bind (value : α) (f : α → Inquiry β) : (done value >>= f) = f value := rfl

@[simp] theorem fail_bind (foreign : ForeignKind) (f : α → Inquiry β) :
    (fail foreign >>= f) = fail foreign := rfl

@[simp] theorem ask_bind (e : Filed Expr) (next : Ty → Inquiry α) (f : α → Inquiry β) :
    (ask e next >>= f) = ask e fun ty => next ty >>= f := rfl

@[simp] theorem ofReading_ok (value : α) : ofReading (.ok value) = done value := rfl

@[simp] theorem ofReading_error (foreign : ForeignKind) :
    (ofReading (.error foreign) : Inquiry α) = fail foreign := rfl

theorem bind_assoc (inquiry : Inquiry α) (f : α → Inquiry β) (g : β → Inquiry γ) :
    (inquiry >>= f) >>= g = inquiry >>= fun value => f value >>= g := by
  induction inquiry with
  | done value => rfl
  | fail foreign => rfl
  | ask e next ih => simp [ih]

theorem bind_done (inquiry : Inquiry α) : (inquiry >>= done) = inquiry := by
  induction inquiry with
  | done value => rfl
  | fail foreign => rfl
  | ask e next ih => simp [ih]

end Inquiry

end LuaTypes
