import LuaTypes.Conventions.File
import LuaTypes.Inference.Memo
import LuaTypes.Inference.Operator
import LuaTypes.Inference.Scopes
import LuaTypes.Module.Registry
import LuaTypes.Project.Session
import LuaTypes.Proofs.Ast.RoundTrip
import LuaTypes.Proofs.Inference.Constructors
import LuaTypes.Proofs.Inference.Depth
import LuaTypes.Proofs.Inference.Economy
import LuaTypes.Proofs.Inference.Finality
import LuaTypes.Proofs.Inference.FlatUnions
import LuaTypes.Proofs.Inference.Restoration
import LuaTypes.Proofs.Inference.Transparency
import LuaTypes.Proofs.Inference.Unguarded
import LuaTypes.Proofs.Inference.WriteOnce
import LuaTypes.Proofs.Project.Isolation
import LuaTypes.Proofs.Project.Modules
import LuaTypes.Proofs.Text.Delimited
import LuaTypes.Proofs.Tree.Keys
import LuaTypes.Proofs.Tree.Returns
import LuaTypes.Proofs.Ty.FirstOccurrence
import LuaTypes.Proofs.Ty.Semilattice
import LuaTypes.Proofs.Ty.Serial
import LuaTypes.Text.Blank
import LuaTypes.Tree.Build
import LuaTypes.Tree.Listing
import LuaTypes.Tree.Statement
import LuaTypes.Ty.Join
import LuaTypes.Ty.Render
import LuaTypes.Ty.Serial
import LuaTypes.Proofs.Ty.Serial
