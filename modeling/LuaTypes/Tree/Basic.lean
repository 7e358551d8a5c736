import LuaTypes.Kind

/-!
# Lossless trees

A tree holds every token of a source text, blanks included, so that the text can be read back from
it. Trees may come from elsewhere: an inner node whose kind code is not one of ours keeps the code
and is found out only when its kind is read.

* `Tree.text` is the source text, `Tree.width` its length in UTF-8 bytes (`utf8ByteSize_text`);
* `Reading` is the outcome of looking at kinds: a value, or the foreign kind that was met;
* `firstHit`, `hits` and `hitAt` search a list and look no further than they must.
-/

namespace LuaTypes

/-- The code of an inner node's kind that is not one of ours. -/
structure ForeignKind where
  code : Nat
  deriving DecidableEq, Repr

/-- What reading a tree gives: a value, unless the kind of a foreign node was looked at. -/
abbrev Reading := Except ForeignKind

/-- The label of an inner node. -/
inductive Label where
  | known (kind : Kind)
  | foreign (code : Nat)
  deriving DecidableEq, Repr

namespace Label

/-- The label with this kind code. -/
def ofCode (code : Nat) : Label :=
  match Kind.ofCode? code with
  | some kind => .known kind
  | none => .foreign code

/-- The kind of a label; a foreign label has none. -/
def kind : Label → Reading Kind
  | .known kind => .ok kind
  | .foreign code => .error ⟨code⟩

@[simp] theorem kind_known (k : Kind) : (known k).kind = .ok k := rfl

theorem ofCode_code (k : Kind) : ofCode k.code = known k := by
  simp [ofCode, Kind.ofCode?_code]

end Label

/-- A lossless tree: an inner node with its children in order, or a token with its text. -/
inductive Tree where
  | node (label : Label) (children : List Tree)
  | token (kind : Kind) (text : String)
  deriving Repr

namespace Tree

mutual

/-- The source text below a tree. -/
def text : Tree → String
  | .node _ children => textAll children
  | .token _ text => text

/-- The source text below the trees of a list, one after the other. -/
def textAll : List Tree → String
  | [] => ""
  | tree :: rest => tree.text ++ textAll rest

end

mutual

/-- The length of the source text in UTF-8 bytes. -/
def width : Tree → Nat
  | .node _ children => widthAll children
  | .token _ text => text.utf8ByteSize

/-- The length of the source text of a list of trees in UTF-8 bytes. -/
def widthAll : List Tree → Nat
  | [] => 0
  | tree :: rest => tree.width + widthAll rest

end

mutual

/-- The number of inner nodes of a tree. -/
def nodeCount : Tree → Nat
  | .node _ children => nodeCountAll children + 1
  | .token .. => 0

/-- The number of inner nodes of a list of trees. -/
def nodeCountAll : List Tree → Nat
  | [] => 0
  | tree :: rest => tree.nodeCount + nodeCountAll rest

end

mutual

theorem utf8ByteSize_text : ∀ tree : Tree, tree.text.utf8ByteSize = tree.width
  | .node _ children => by simp [text, width, utf8ByteSize_textAll children]
  | .token .. => by simp [text, width]

theorem utf8ByteSize_textAll : ∀ trees : List Tree, (textAll trees).utf8ByteSize = widthAll trees
  | [] => by simp [textAll, widthAll]
  | tree :: rest => by
    simp [textAll, widthAll, utf8ByteSize_text tree, utf8ByteSize_textAll rest]

end

end Tree

/-! ### Searches that look no further than they must -/

section Search

variable {α β : Type}

/-- The first answer of `look` along a list; what follows it is not looked at. -/
def firstHit (look : α → Reading (Option β)) : List α → Reading (Option β)
  | [] => .ok none
  | a :: rest =>
    match look a with
    | .error foreign => .error foreign
    | .ok (some b) => .ok (some b)
    | .ok none => firstHit look rest

/-- All answers of `look` along a list, in order. -/
def hits (look : α → Reading (Option β)) : List α → Reading (List β)
  | [] => .ok []
  | a :: rest =>
    match look a with
    | .error foreign => .error foreign
    | .ok none => hits look rest
    | .ok (some b) => (hits look rest).map (b :: ·)

/-- The answer of `look` with this index, counted from 0; what follows it is not looked at. -/
def hitAt (look : α → Reading (Option β)) : Nat → List α → Reading (Option β)
  | _, [] => .ok none
  | index, a :: rest =>
    match look a, index with
    | .error foreign, _ => .error foreign
    | .ok none, index => hitAt look index rest
    | .ok (some b), 0 => .ok (some b)
    | .ok (some _), index + 1 => hitAt look index rest

/-- A search that meets no foreign kind lists the answers it would give one by one. -/
theorem hits_ok {look : α → Reading (Option β)} {answer : α → Option β} {as : List α}
    (h : ∀ a ∈ as, look a = .ok (answer a)) : hits look as = .ok (as.filterMap answer) := by
  induction as with
  | nil => rfl
  | cons a rest ih =>
    have hrest := ih fun b hb => h b (List.mem_cons_of_mem _ hb)
    simp only [hits, h a List.mem_cons_self, hrest, List.filterMap_cons]
    cases answer a <;> rfl

theorem firstHit_ok {look : α → Reading (Option β)} {answer : α → Option β} {as : List α}
    (h : ∀ a ∈ as, look a = .ok (answer a)) : firstHit look as = .ok (as.findSome? answer) := by
  induction as with
  | nil => rfl
  | cons a rest ih =>
    have hrest := ih fun b hb => h b (List.mem_cons_of_mem _ hb)
    simp only [firstHit, h a List.mem_cons_self, hrest, List.findSome?_cons]
    cases answer a <;> rfl

end Search

end LuaTypes
