import LuaTypes.Proofs.Inference.Asks
import LuaTypes.Proofs.Inference.Isolation
import LuaTypes.Proofs.Project.Testing

/-!
# Files on their own

What requests that follow no modules find in a file of a project depends on the tree of this file
and on what is declared for all files, and on nothing else: not on other files, not on the modules,
and not on what other requests have left in a memo that they share. So when the tree of a file is
replaced, it is enough to take the entries of this file out of the memo.

* `Project.AgreesOn`: two projects differ in other files and in modules only;
  `Project.AgreesOn.sameIn`: their codebases say the same of the file;
* `Project.isolated`: requests that follow no modules are isolated from other files and requests;
* `Project.withTree`, `Project.invalidation_suffices`: what a file has to do with its own entries.
-/

namespace LuaTypes

namespace Project

variable {p q : Project} {file : FileNumber}

theorem staysInFiles (project : Project) : project.codebase.StaysInFiles :=
  ⟨project.enclosure_file, enclosure_hasNode (.inl trivial) .ownFile⟩

/-- Two projects with the same conventions, globals and declared types of functions, and with the
same tree of a file. Other files and the modules may differ. -/
structure AgreesOn (file : FileNumber) (p q : Project) : Prop where
  conventions : p.conventions = q.conventions
  globals : ∀ name, p.globals.get? name = q.globals.get? name
  declaredTypes : ∀ path, p.declaredTypes.get? path = q.declaredTypes.get? path
  tree : p.files[file]? = q.files[file]?

namespace AgreesOn

theorem functionIn (h : AgreesOn file p q) (target : String) :
    functionIn p.listings file target = functionIn q.listings file target := by
  simp only [Project.functionIn, listings, List.getElem?_map, h.tree]

/-- Look-ups in a file see the tree of this file and what is declared for all files. -/
theorem sameIn (h : AgreesOn file p q) : Codebase.SameIn file p.codebase q.codebase where
  conventions := h.conventions
  root := congrArg (·.bind Node.root?) h.tree
  bindingOf := by
    rintro name rfl
    show Project.bindingOf p.globals p.listings name = Project.bindingOf q.globals q.listings name
    simp only [Project.bindingOf, h.globals, h.functionIn]
  calledBody := by
    rintro call rfl
    show Project.calledBody p.listings call = Project.calledBody q.listings call
    simp only [Project.calledBody, h.functionIn]
  declaredType := by
    rintro body -
    show p.declaredType body = q.declaredType body
    simp only [Project.declaredType, h.declaredTypes]

end AgreesOn

/-- In projects that have a file and what is declared for all files in common, requests about the
file that follow no modules are answered alike: in two histories through memos that are empty in the
beginning, whatever other requests come between them, and after any two histories that leave the
same entries of the file and this reach. The budget is not used up. -/
theorem isolated (h : AgreesOn file p q) :
    (∀ turns turns' : List Turn, p.codebase.HasTurns file turns →
      turns.filter (Turn.isWithin file) = turns'.filter (Turn.isWithin file) →
      p.codebase.answersWithin file turns (some .empty) =
          q.codebase.answersWithin file turns' (some .empty) ∧
        ∀ outcome ∈ p.codebase.answersWithin file turns (some .empty), outcome ≠ .exhausted) ∧
    ∀ turn : Turn, turn.isWithin file = true → p.codebase.HasQuestion turn.question →
      ∀ memo memo', Memo.AgreeWithin file memo memo' →
        (p.codebase.take turn memo).1 = (q.codebase.take turn memo').1 ∧
        Memo.AgreeWithin file (p.codebase.take turn memo).2 (q.codebase.take turn memo').2 := by
  constructor
  · intro turns turns' hturns hfilter
    refine ⟨?_, p.staysInFiles.answersWithin_ne_exhausted hturns _⟩
    exact h.sameIn.answersWithin_eq p.staysInFiles q.staysInFiles hturns hfilter (.refl _)
  · intro turn hturn hquestion memo memo' hmemo
    exact h.sameIn.take_alike p.staysInFiles q.staysInFiles hturn hquestion hmemo

section Required

open Build

/-- A file that returns the value of an expression. -/
def returning (result : Tree) : Tree := sourceFile [returnStmt [result]]

/-- A variable that begins with what a module returns or a number, and the module. -/
def requiring (result : Tree) : Project :=
  (declaring (localStmt ["x"] [orElse (stringCall (name "require") "m") (number "1")])
    (name "x")).withModule "m.lua" (returning result)

/-- The type of an expression is asked for, and no modules are followed. -/
def ownTurn (e : Filed Expr) : Turn := ⟨.ownFile, [], .typeOf e⟩

/-- The type of an expression is asked for, and modules are followed. -/
def fullTurn (e : Filed Expr) : Turn := ⟨.full, [], .typeOf e⟩

/-- Where modules are followed, the variable is a number or may be a string, depending on the
module. Where they are not, it has one type, whatever was found out before. -/
theorem isolated_requiring :
    ∃ e, (requiring (number "2")).codebase.expr? ⟨0, 0⟩ = .ok (some e) ∧
      ((requiring (number "2")).codebase.typeAlone .full e).isUnion = false ∧
      ((requiring (string "s")).codebase.typeAlone .full e).isUnion = true ∧
      (requiring (number "2")).codebase.answersWithin 0 [fullTurn e, ownTurn e] (some .empty) =
        (requiring (string "s")).codebase.answersWithin 0 [ownTurn e, fullTurn e] (some .empty) ∧
      ((requiring (number "2")).codebase.take (ownTurn e) none).1 =
        ((requiring (string "s")).codebase.take (ownTurn e) none).1 := by
  have hlegible : (requiring (number "2")).codebase.Legible := legible (by decide +kernel)
  have htest : (requiring (number "2")).codebase.testAt ⟨0, 0⟩ (fun e => decide (e.file = 0) &&
      !((requiring (number "2")).codebase.typeAlone .full e).isUnion &&
      ((requiring (string "s")).codebase.typeAlone .full e).isUnion) = true := by decide +kernel
  obtain ⟨e, hexpr, he, htest⟩ := hlegible.exists_of_testAt htest
  simp only [Bool.and_eq_true, decide_eq_true_eq, Bool.not_eq_true'] at htest
  obtain ⟨⟨hfile, hone⟩, hunion⟩ := htest
  have hagrees : AgreesOn 0 (requiring (number "2")) (requiring (string "s")) :=
    ⟨rfl, fun _ => rfl, fun _ => rfl, rfl⟩
  have hown : (ownTurn e).isWithin 0 = true := Turn.isWithin_iff.2 ⟨rfl, hfile⟩
  have hfull : (fullTurn e).isWithin 0 = false := rfl
  obtain ⟨hhistories, hturn⟩ := isolated hagrees
  refine ⟨e, hexpr, hone, hunion, (hhistories _ _ ?_ ?_).1, ?_⟩
  · intro turn hmem _
    simp only [List.mem_cons, List.not_mem_nil, or_false] at hmem
    rcases hmem with rfl | rfl
    · exact he
    · exact he
  · simp only [List.filter, hown, hfull]
  · exact (hturn (ownTurn e) hown he none none (.refl none)).1

end Required

/-! ### Edited files -/

/-- The project with another tree of a file. -/
def withTree (project : Project) (file : FileNumber) (tree : Tree) : Project :=
  { project with files := project.files.set file tree }

/-- Other files are the same after an edit. -/
theorem agreesOn_withTree (project : Project) {file other : FileNumber} (hother : other ≠ file)
    (tree : Tree) : AgreesOn other project (project.withTree file tree) where
  conventions := rfl
  globals _ := rfl
  declaredTypes _ := rfl
  tree := (List.getElem?_set_ne hother.symm).symm

/-- After any history of requests the tree of a file is replaced and its entries are taken out of
the memo. Then requests about the file that follow no modules are answered as with an empty memo,
and those about other files as if neither had happened, whatever other requests come between
them. -/
theorem invalidation_suffices (project : Project) (file : FileNumber) (tree : Tree)
    (history : List Turn) (start : Memo) :
    let memo := project.codebase.after history (some start)
    let left := memo.map (·.invalidate file)
    let edited := (project.withTree file tree).codebase
    (∀ later later' : List Turn,
      later.filter (Turn.isWithin file) = later'.filter (Turn.isWithin file) →
      edited.answersWithin file later left = edited.answersWithin file later' (some .empty) ∧
        (edited.HasTurns file later →
          ∀ outcome ∈ edited.answersWithin file later left, outcome ≠ .exhausted)) ∧
    ∀ other, other ≠ file → ∀ later later' : List Turn, project.codebase.HasTurns other later →
      later.filter (Turn.isWithin other) = later'.filter (Turn.isWithin other) →
      edited.answersWithin other later' left = project.codebase.answersWithin other later memo ∧
        ∀ outcome ∈ project.codebase.answersWithin other later memo, outcome ≠ .exhausted := by
  intro memo left edited
  have hstays : edited.StaysInFiles := (project.withTree file tree).staysInFiles
  obtain ⟨found, hfound⟩ : ∃ found, memo = some found := by
    rw [← Option.isSome_iff_exists, project.codebase.isSome_after history (some start)]
    rfl
  have hleft : left = some (found.invalidate file) :=
    congrArg (Option.map (·.invalidate file)) hfound
  constructor
  · intro later later' hfilter
    refine ⟨?_, fun hturns => hstays.answersWithin_ne_exhausted hturns left⟩
    have hempty : Memo.AgreeWithin file left (some .empty) := hleft ▸ .invalidate_empty found
    rw [hstays.answersWithin_filter later hempty, hfilter]
    exact (hstays.answersWithin_filter later' (.refl _)).symm
  · intro other hother later later' hturns hfilter
    refine ⟨?_, project.staysInFiles.answersWithin_ne_exhausted hturns memo⟩
    have hsame := (project.agreesOn_withTree hother tree).sameIn
    have hmemo : Memo.AgreeWithin other memo left := by
      rw [hleft, hfound]
      exact (Memo.AgreeWithin.invalidate_other hother.symm found).symm
    exact (hsame.answersWithin_eq project.staysInFiles hstays hturns hfilter hmemo).symm

section Edited

open Build

/-- A file in which a variable begins with the value of an expression, and another file. -/
def beginning (value : Tree) : Project :=
  (declaring (localStmt ["x"] [value]) (name "x")).withFile (returning (number "1"))

/-- A number is replaced by a string of the same width, so that the use of the variable keeps its
key. -/
theorem invalidation_suffices_beginning :
    let project := beginning (number "12")
    let edited := project.withTree 0 (sourceFile [localStmt ["x"] [string ""],
      returnStmt [name "x"]])
    ∃ e e' other, project.codebase.expr? ⟨0, 1⟩ = .ok (some e) ∧
      edited.codebase.expr? ⟨0, 1⟩ = .ok (some e') ∧ Expr.key e = Expr.key e' ∧
      project.codebase.expr? ⟨1, 0⟩ = .ok (some other) ∧
      let memo := project.codebase.after [ownTurn e, fullTurn other] (some .empty)
      let left := memo.map (·.invalidate 0)
      edited.codebase.answersWithin 0 [ownTurn e'] left =
          edited.codebase.answersWithin 0 [ownTurn e'] (some .empty) ∧
        edited.codebase.answersWithin 1 [ownTurn other] left =
          project.codebase.answersWithin 1 [ownTurn other] memo := by
  intro project edited
  have hlegible : project.codebase.Legible := legible (by decide +kernel)
  have hlegible' : edited.codebase.Legible := legible (by decide +kernel)
  have htest : project.codebase.testAt ⟨0, 1⟩ (fun e => edited.codebase.testAt ⟨0, 1⟩ fun e' =>
      project.codebase.testAt ⟨1, 0⟩ fun other =>
        decide (Expr.key e = Expr.key e') && decide (other.file = 1)) = true := by decide +kernel
  obtain ⟨e, he, -, htest⟩ := hlegible.exists_of_testAt htest
  obtain ⟨e', he', -, htest⟩ := hlegible'.exists_of_testAt htest
  obtain ⟨other, hother, hexpr, htest⟩ := hlegible.exists_of_testAt htest
  simp only [Bool.and_eq_true, decide_eq_true_eq] at htest
  obtain ⟨hedited, hothers⟩ := invalidation_suffices project 0 (sourceFile [localStmt ["x"]
    [string ""], returnStmt [name "x"]]) [ownTurn e, fullTurn other] .empty
  refine ⟨e, e', other, he, he', htest.1, hother, (hedited _ _ rfl).1, ?_⟩
  refine (hothers 1 (by decide) [ownTurn other] _ ?_ rfl).1
  intro turn hmem _
  rw [List.mem_singleton.1 hmem]
  exact hexpr

end Edited

end Project

end LuaTypes
