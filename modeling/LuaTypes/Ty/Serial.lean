import LuaTypes.Ty.Basic

/-!
# Types as data

The form in which types are handed to other programs: records tagged with the kind of type. The
nominal form gives a class by its name alone, the full form adds its members in declared order.
-/

namespace LuaTypes

/-- Data made of texts, lists and records; the fields of a record are ordered and named once. -/
inductive Serial where
  | text (value : String)
  | list (items : List Serial)
  | record (fields : List (String × Serial))

namespace Serial

/-- A record that begins with its tag. -/
def tagged (tag : String) (fields : List (String × Serial)) : Serial :=
  .record (("kind", .text tag) :: fields)

end Serial

/-- What the data say of a class. -/
inductive Detail where
  | nominal
  | full
  deriving DecidableEq, Repr

mutual

/-- A type as data. -/
def Ty.serial (detail : Detail) : Ty → Serial
  | .unknown => .tagged "unknown" []
  | .nil => .tagged "nil" []
  | .boolean => .tagged "boolean" []
  | .number => .tagged "number" []
  | .string => .tagged "string" []
  | .function signatures =>
    .tagged "function" [("signatures", .list (serialSignatures detail signatures))]
  | .object name members =>
    .tagged "class" (("name", .text name) ::
      match detail with
      | .nominal => []
      | .full => [("members", .list (serialMembers detail members))])
  | .union members => .tagged "union" [("members", .list (serialTypes detail members))]

/-- A signature as data. -/
def Signature.serial (detail : Detail) : Signature → Serial
  | .mk params ret =>
    .record [("params", .list (serialTypes detail params)), ("ret", ret.serial detail)]

/-- A member as data: its name and its type. -/
def Member.serial (detail : Detail) : Member → Serial
  | .mk name ty => .list [.text name, ty.serial detail]

/-- Each type of a list as data. -/
def serialTypes (detail : Detail) : List Ty → List Serial
  | [] => []
  | ty :: rest => ty.serial detail :: serialTypes detail rest

/-- Each signature of a list as data. -/
def serialSignatures (detail : Detail) : List Signature → List Serial
  | [] => []
  | signature :: rest => signature.serial detail :: serialSignatures detail rest

/-- Each member of a list as data. -/
def serialMembers (detail : Detail) : List Member → List Serial
  | [] => []
  | member :: rest => member.serial detail :: serialMembers detail rest

end

end LuaTypes
