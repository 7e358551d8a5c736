import LuaTypes.Proofs.Inference.Closed
import LuaTypes.Proofs.Inference.Probe
import Mathlib.Data.Set.Card

/-!
# Inference ends

No expression is under way twice at a time, so at most as many are put on a trail as there are keys
of expressions that are not on it yet. The budget of a codebase is larger, and in a legible codebase
every request finds a type.

* `Codebase.keysOff`: the keys of expressions that are not among some keys;
  `Codebase.ncard_keysOff_le`: there are no more than the budget;
* `Codebase.IsPath`: such keys, none of them twice; `Codebase.IsPath.length_le`;
* `Codebase.Enclosure.probe_ne_exhausted`: on top of a path, the budget that is left is not used up;
* `Codebase.Legible.probe_value`: in a legible codebase it is enough to find a type;
* `Codebase.Legible.inferFresh_value`: a request of its own finds a type.
-/

namespace LuaTypes

namespace Codebase

/-! ### Counting keys -/

/-- The key of a node in a file, if it is of a known kind. -/
def nodeKey? (file : FileNumber) (node : Node) : Option Key :=
  match node.label with
  | .known kind => some ⟨file, kind, node.start, node.width⟩
  | .foreign _ => none

/-- The keys of the nodes of files that are numbered from `first` on. -/
def nodeKeysFrom (first : FileNumber) : List Tree → List (Option Key)
  | [] => []
  | tree :: rest => tree.nodes.map (nodeKey? first) ++ nodeKeysFrom (first + 1) rest

theorem length_nodeKeysFrom (first : FileNumber) (trees : List Tree) :
    (nodeKeysFrom first trees).length = Tree.nodeCountAll trees := by
  induction trees generalizing first with
  | nil => rfl
  | cons tree rest ih => simp [nodeKeysFrom, Tree.nodeCountAll, Tree.length_nodes, ih]

theorem mem_nodeKeysFrom (first : FileNumber) {file : FileNumber} {trees : List Tree}
    {tree : Tree} {node : Node} (htree : trees[file]? = some tree) (hnode : node ∈ tree.nodes) :
    nodeKey? (first + file) node ∈ nodeKeysFrom first trees := by
  induction trees generalizing first file with
  | nil => cases htree
  | cons other rest ih =>
    cases file with
    | zero =>
      cases htree
      exact List.mem_append_left _ (List.mem_map_of_mem hnode)
    | succ file =>
      have hmem := ih (first + 1) htree
      rw [Nat.add_right_comm] at hmem
      exact List.mem_append_right _ hmem

theorem nodeKey?_of_expr (file : FileNumber) (e : Expr) :
    nodeKey? file e.node = some (Expr.key ⟨file, e⟩) := by
  simp [nodeKey?, e.labelled, Expr.key]

/-- The keys of the expressions of a codebase that are not among those below. -/
def keysOff (codebase : Codebase) (below : List Key) : Set Key :=
  {key | (∃ e, codebase.HasExpr e ∧ Expr.key e = key) ∧ key ∉ below}

variable {codebase : Codebase} {below path : List Key}

theorem some_image_keysOff_subset :
    some '' codebase.keysOff below ⊆
      ((nodeKeysFrom 0 codebase.files).toFinset : Set (Option Key)) := by
  rintro _ ⟨_, ⟨⟨⟨file, e⟩, ⟨tree, htree, hnode⟩, rfl⟩, -⟩, rfl⟩
  have hmem := mem_nodeKeysFrom 0 htree hnode
  simpa [nodeKey?_of_expr] using hmem

variable (codebase below) in
theorem finite_keysOff : (codebase.keysOff below).Finite :=
  Set.Finite.of_finite_image ((Finset.finite_toSet _).subset some_image_keysOff_subset)
    (Option.some_injective Key).injOn

variable (codebase below) in
/-- The budget is enough to enter them all one inside the other. -/
theorem ncard_keysOff_le : (codebase.keysOff below).ncard ≤ codebase.budget :=
  calc (codebase.keysOff below).ncard
    _ = (some '' codebase.keysOff below).ncard :=
      (Set.ncard_image_of_injective _ (Option.some_injective Key)).symm
    _ ≤ (nodeKeysFrom 0 codebase.files).toFinset.card := by
      rw [← Set.ncard_coe_finset]
      exact Set.ncard_le_ncard some_image_keysOff_subset (Finset.finite_toSet _)
    _ ≤ (nodeKeysFrom 0 codebase.files).length := List.toFinset_card_le _
    _ = codebase.budget := length_nodeKeysFrom 0 codebase.files

/-! ### Paths -/

/-- The keys of expressions of a codebase that are not among those below, none of them twice. -/
structure IsPath (codebase : Codebase) (below path : List Key) : Prop where
  nodup : path.Nodup
  keys : ∀ key ∈ path, key ∈ codebase.keysOff below

theorem IsPath.nil : codebase.IsPath below [] := ⟨List.nodup_nil, by simp⟩

theorem IsPath.cons (h : codebase.IsPath below path) {e : Filed Expr} (he : codebase.HasExpr e)
    (hnew : Expr.key e ∉ path ++ below) : codebase.IsPath below (Expr.key e :: path) := by
  obtain ⟨hpath, hbelow⟩ := not_or.1 (mt List.mem_append.2 hnew)
  constructor
  · rw [List.nodup_cons]
    exact ⟨hpath, h.nodup⟩
  · intro key hkey
    rcases List.mem_cons.1 hkey with rfl | hkey
    · exact ⟨⟨e, he, rfl⟩, hbelow⟩
    · exact h.keys key hkey

/-- No path is longer than there are keys for it. -/
theorem IsPath.length_le (h : codebase.IsPath below path) :
    path.length ≤ (codebase.keysOff below).ncard := by
  have hsub : (path.toFinset : Set Key) ⊆ codebase.keysOff below := by
    intro key hkey
    exact h.keys key (by simpa using hkey)
  calc path.length
    _ = path.toFinset.card := (List.toFinset_card_of_nodup h.nodup).symm
    _ = (path.toFinset : Set Key).ncard := (Set.ncard_coe_finset _).symm
    _ ≤ (codebase.keysOff below).ncard := Set.ncard_le_ncard hsub (codebase.finite_keysOff below)

/-- A list of expressions of which none occurs twice is no longer than the budget. -/
theorem Closed.length_le (hclosed : codebase.Closed) {es : List (Filed Expr)}
    (hnodup : es.Nodup) (hes : ∀ e ∈ es, codebase.HasExpr e) : es.length ≤ codebase.budget := by
  have hpath : codebase.IsPath [] (es.map Expr.key) := by
    constructor
    · apply hnodup.map_on
      intro a ha b hb hkey
      exact hclosed.eq_of_key (hes a ha) (hes b hb) hkey
    · intro key hkey
      obtain ⟨e, he, rfl⟩ := List.mem_map.1 hkey
      exact ⟨⟨e, hes e he, rfl⟩, List.not_mem_nil⟩
  have hlength := hpath.length_le.trans (codebase.ncard_keysOff_le [])
  rwa [List.length_map] at hlength

end Codebase

/-- Where every question of an inquiry is answered, the inquiry is finished. -/
theorem Inquiry.Within.probe_value {α : Type} {P : Filed Expr → Prop} {look : Looker}
    {inquiry : Inquiry α} (h : inquiry.Within P)
    (hlook : ∀ e memo, P e → ∃ ty, (look e memo).outcome = .value ty) (memo : Option Memo) :
    ∃ value, (inquiry.probe look memo).outcome = .value value := by
  induction h generalizing memo with
  | done value => exact ⟨value, rfl⟩
  | @ask e next he _ ih =>
    obtain ⟨ty, hty⟩ := hlook e memo he
    simp only [Inquiry.probe, hty]
    exact ih ty _

/-- Where the budget is enough for every question, it is enough for the inquiry. -/
theorem Inquiry.Keeps.probe_ne_exhausted {α : Type} {fails : Prop} {Asked : Filed Expr → Prop}
    {Out : α → Prop} {look : Looker}
    (hlook : ∀ e memo, Asked e → (look e memo).outcome ≠ .exhausted) {inquiry : Inquiry α}
    (h : inquiry.Keeps fails Asked (fun _ => True) Out) (memo : Option Memo) :
    (inquiry.probe look memo).outcome ≠ .exhausted := by
  induction h generalizing memo with
  | done _ => simp [Inquiry.probe]
  | fail _ foreign => simp [Inquiry.probe]
  | @ask e next he _ ih =>
    simp only [Inquiry.probe]
    cases hout : (look e memo).outcome with
    | value ty => exact ih ty trivial _
    | failed foreign => simp
    | exhausted => exact absurd hout (hlook e memo he)

namespace Codebase

variable {fails : Prop} {codebase : Codebase} {reach : Reach} {below path : List Key}

/-- What does not use the budget up in a frame on top of a path does not do so below the path. -/
theorem probe_ne_exhausted_of_inside {budget : Nat} {e : Filed Expr} {memo : Option Memo}
    (h : Expr.key e ∉ path → (codebase.inside reach budget path e memo).outcome ≠ .exhausted) :
    (codebase.probe reach budget path e memo).outcome ≠ .exhausted := by
  rcases codebase.probe_cases reach budget path e memo with
    ⟨ty, -, hprobe⟩ | ⟨depth, -, -, hprobe⟩ | ⟨-, hnew, hprobe⟩ <;> rw [hprobe]
  · simp
  · simp
  · exact h hnew

namespace Enclosure

/-- On top of a path, as large a budget as there are keys off the path is not used up. -/
theorem inside_ne_exhausted (h : Enclosure fails codebase reach codebase.HasNode fun _ => True)
    {budget : Nat} {e : Filed Expr} (he : codebase.HasExpr e) (hpath : codebase.IsPath below path)
    (hnew : Expr.key e ∉ path ++ below)
    (hbudget : (codebase.keysOff below).ncard ≤ budget + path.length) (memo : Option Memo) :
    (codebase.inside reach budget (path ++ below) e memo).outcome ≠ .exhausted := by
  have hlonger := hpath.cons he hnew
  induction budget generalizing path e memo with
  | zero =>
    have hlength := hlonger.length_le
    simp only [List.length_cons] at hlength
    omega
  | succ budget ih =>
    rw [inside_succ]
    refine (h.typeOf he).probe_ne_exhausted ?_ memo
    intro e' memo' he'
    apply probe_ne_exhausted_of_inside
    intro hnew'
    exact ih he' hlonger hnew' (by simp only [List.length_cons]; omega) memo'
      (hlonger.cons he' hnew')

/-- Below a path, as large a budget as there are keys off the path is not used up. -/
theorem probe_ne_exhausted (h : Enclosure fails codebase reach codebase.HasNode fun _ => True)
    {budget : Nat} {e : Filed Expr} (he : codebase.HasExpr e) (hpath : codebase.IsPath below path)
    (hbudget : (codebase.keysOff below).ncard ≤ budget + path.length) (memo : Option Memo) :
    (codebase.probe reach budget (path ++ below) e memo).outcome ≠ .exhausted :=
  probe_ne_exhausted_of_inside fun hnew => h.inside_ne_exhausted he hpath hnew hbudget memo

end Enclosure

namespace Legible

/-- Below a path, as large a budget as there are keys off the path is enough. -/
theorem probe_value (h : codebase.Legible) {budget : Nat} {e : Filed Expr}
    (he : codebase.HasExpr e) (hpath : codebase.IsPath below path)
    (hbudget : (codebase.keysOff below).ncard ≤ budget + path.length) (memo : Option Memo) :
    ∃ ty, (codebase.probe reach budget (path ++ below) e memo).outcome = .value ty := by
  have hends := (h.enclosure reach).probe_ne_exhausted he hpath hbudget memo
  have hsound : (codebase.probe reach budget (path ++ below) e memo).Sound False (fun _ => True)
      fun _ => True :=
    (h.enclosure reach).probe_sound .trivial budget _ he trivial
  cases hout : (codebase.probe reach budget (path ++ below) e memo).outcome with
  | value ty => exact ⟨ty, rfl⟩
  | failed foreign => exact (hsound.failed foreign hout).elim
  | exhausted => exact absurd hout hends

/-- A request of its own finds a type, whatever the memo holds. -/
theorem inferFresh_value (h : codebase.Legible) (reach : Reach) (memo : Option Memo)
    {e : Filed Expr} (he : codebase.HasExpr e) :
    ∃ ty, (codebase.inferFresh reach memo e).1 = .value ty := by
  rw [inferFresh_eq]
  exact h.probe_value he .nil (by simpa using codebase.ncard_keysOff_le []) memo

end Legible

theorem Closed.inferFresh_value (h : codebase.Closed) (reach : Reach) (memo : Option Memo)
    {e : Filed Expr} (he : codebase.HasExpr e) :
    ∃ ty, (codebase.inferFresh reach memo e).1 = .value ty :=
  h.legible.inferFresh_value reach memo he

end Codebase

end LuaTypes
