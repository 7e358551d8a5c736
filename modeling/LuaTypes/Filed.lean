/-!
# Values in files

Files are numbered. Nodes and paths do not say which file they belong to, so whatever leaves its
file travels together with the file's number.
-/

namespace LuaTypes

/-- The number of a file. -/
abbrev FileNumber := Nat

/-- A value with the file it was found in. -/
structure Filed (α : Type) where
  file : FileNumber
  value : α
  deriving DecidableEq, Repr

namespace Filed

variable {α β : Type}

/-- Another value found in the same file. -/
def replace (a : Filed α) (value : β) : Filed β := ⟨a.file, value⟩

/-- The value changed, the file kept. -/
def map (f : α → β) (a : Filed α) : Filed β := ⟨a.file, f a.value⟩

@[simp] theorem file_replace (a : Filed α) (value : β) : (a.replace value).file = a.file := rfl
@[simp] theorem value_replace (a : Filed α) (value : β) : (a.replace value).value = value :=
  rfl

end Filed

end LuaTypes
