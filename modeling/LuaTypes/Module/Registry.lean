import LuaTypes.Filed
import LuaTypes.Module.Name

/-!
# The registry of modules

Which file holds which module. A file is registered under the name of its path; the latest
registration under a name, or of a file, is the one that counts.
-/

namespace LuaTypes

/-- A registered file with its module's name and its path as given. -/
structure Module where
  file : FileNumber
  name : String
  path : String
  deriving DecidableEq, Repr

/-- The registered modules, the latest first. -/
structure Registry where
  modules : List Module
  deriving DecidableEq, Repr

namespace Registry

/-- The registry without modules. -/
def empty : Registry := ⟨[]⟩

/-- The name under which the file with this path is registered. -/
def nameOf (path : String) : String := String.ofList (Module.nameOfFile path.toList)

/-- The registry with one more file. -/
def register (registry : Registry) (file : FileNumber) (path : String) : Registry :=
  ⟨⟨file, nameOf path, path⟩ :: registry.modules⟩

/-- The file that was registered last under a name. -/
def fileOf? (registry : Registry) (name : String) : Option FileNumber :=
  (registry.modules.find? (·.name = name)).map (·.file)

/-- The last registration of a file. -/
def entryOf? (registry : Registry) (file : FileNumber) : Option Module :=
  registry.modules.find? (·.file = file)

/-- The number of registrations. -/
def size (registry : Registry) : Nat := registry.modules.length

@[simp] theorem fileOf?_empty (name : String) : empty.fileOf? name = none := rfl

/-- A registration answers for its own name and leaves the others alone. -/
theorem fileOf?_register (registry : Registry) (file : FileNumber) (path name : String) :
    (registry.register file path).fileOf? name =
      if nameOf path = name then some file else registry.fileOf? name := by
  by_cases h : nameOf path = name <;> simp [register, fileOf?, h]

@[simp] theorem size_register (registry : Registry) (file : FileNumber) (path : String) :
    (registry.register file path).size = registry.size + 1 := rfl

end Registry

end LuaTypes
