import LuaTypes.Inference.Rules
import LuaTypes.Project.Basic
import LuaTypes.Proofs.Module.Spelling
import LuaTypes.Tree.Build
import Mathlib.Data.List.Induction

/-!
# Finding the modules of a project

The registry answers for the file that was registered last under a name, whatever was registered
before or under other names. By the standard conventions a request finds that file under the name
it asks for, and if there is none the file under `init` below that name; so every spelling of a
module finds the same file.

* `Registry.registerAll`, `Registry.lastUnder`, `Registry.fileOf?_registerAll`: registries after a
  number of registrations;
* `Codebase.findModule_standard`: what the standard conventions find;
* `Project.findModule_of_spells`: all spellings of a module lead to it;
* `Project.findModule_own_path_iff`: whether a file is found by its own path.
-/

namespace LuaTypes

namespace Registry

/-- The registry with more files, registered one after the other under their paths. -/
def registerAll (registry : Registry) (files : List (FileNumber × String)) : Registry :=
  files.foldl (fun registry entry => registry.register entry.1 entry.2) registry

/-- The last of the files whose paths lead to a name. -/
def lastUnder (name : String) (files : List (FileNumber × String)) : Option FileNumber :=
  ((files.filter fun entry => nameOf entry.2 = name).getLast?).map Prod.fst

theorem fileOf?_registerAll (name : String) (files : List (FileNumber × String)) :
    (empty.registerAll files).fileOf? name = lastUnder name files := by
  induction files using List.reverseRecOn with
  | nil => rfl
  | append_singleton files entry ih =>
    rw [registerAll, List.foldl_concat, ← registerAll, fileOf?_register, ih, lastUnder, lastUnder,
      List.filter_append]
    by_cases h : nameOf entry.2 = name <;> simp [h]

end Registry

namespace Module

theorem expanded_itself (name : String) : expanded "?" name = name := by
  rw [expanded, show "?".toList = ['?'] from rfl]
  simp [expand]

theorem expanded_init (name : String) : expanded "?/init" name = name ++ "/init" := by
  rw [expanded, show "?/init".toList = '?' :: "/init".toList from rfl]
  simp [expand]

end Module

/-- By the standard conventions a module is the file under its name, or else the file under `init`
below its name. -/
theorem Codebase.findModule_standard {codebase : Codebase}
    (hconventions : codebase.conventions = .standard) {fileOf : String → Option FileNumber}
    (hfile : ∀ path origin, codebase.moduleFile path origin = .ok (fileOf path)) {raw name : String}
    (hname : Module.requested raw = some name) (origin : FileNumber) :
    findModule codebase raw origin =
      .ok (((fileOf name).map (⟨·, name⟩)).or
        ((fileOf (name ++ "/init")).map (⟨·, name ++ "/init"⟩))) := by
  have hcandidates : codebase.conventions.candidates = ["?", "?/init"] := by
    rw [hconventions]
    rfl
  simp only [findModule, hname, hcandidates, firstHit, hfile, Module.expanded_itself,
    Module.expanded_init, Except.map]
  cases fileOf name with
  | some file => rfl
  | none => cases fileOf (name ++ "/init") <;> rfl

/-- By the standard conventions every spelling of a module, with blanks around it or not, leads to
the file that was registered last under the name of the module, or else under `init` below the name.
However its path is spelled, the file of the module is registered under that name. -/
theorem Project.findModule_of_spells (project : Project)
    (hconventions : project.conventions = .standard) (files : List (FileNumber × String))
    (hmodules : project.modules = Registry.empty.registerAll files) {segments : List String}
    (hne : segments ≠ [])
    (hsegments : ∀ segment ∈ segments, Module.IsSegment segment.toList ∧ '.' ∉ segment.toList) :
    (∀ spelling front back origin, Module.Spells segments spelling →
      (∀ c ∈ front.toList, Text.isBlank c) → (∀ c ∈ back.toList, Text.isBlank c) →
      findModule project.codebase (front ++ spelling ++ back) origin =
        .ok (((Registry.lastUnder ("/".intercalate segments) files).map
            (⟨·, "/".intercalate segments⟩)).or
          ((Registry.lastUnder ("/".intercalate segments ++ "/init") files).map
            (⟨·, "/".intercalate segments ++ "/init"⟩)))) ∧
      ∀ path, Module.Locates segments path → Registry.nameOf path = "/".intercalate segments := by
  have hsegment : ∀ segment ∈ segments, Module.IsSegment segment.toList :=
    fun segment h => (hsegments segment h).1
  constructor
  · intro spelling front back origin hspells hfront hback
    have hname := Module.requested_of_spells hne hsegment (fun segment h => (hsegments segment h).2)
      hspells hfront hback
    have hfile : ∀ path origin, project.codebase.moduleFile path origin =
        .ok (Registry.lastUnder path files) := by
      intro path origin
      rw [← Registry.fileOf?_registerAll, ← hmodules]
      rfl
    have hstandard : project.codebase.conventions = .standard := hconventions
    exact Codebase.findModule_standard hstandard hfile hname origin
  · intro path hpath
    exact Module.nameOf_of_locates hne hsegment hpath

/-- A project whose module was registered twice, the second time with other separators and a step to
the same directory. -/
def Project.registeredTwice : Project :=
  { Project.empty .standard with
    modules := Registry.empty.registerAll
      [(0, "net/http.lua"), (1, "net/http/init.lua"), (2, "./net\\http.lua")] }

/-- A dotted name with a blank in front of it finds the file that was registered last. -/
theorem Project.registeredTwice_findModule :
    findModule Project.registeredTwice.codebase (" " ++ ".".intercalate ["net", "http"] ++ "") 0 =
      .ok (some ⟨2, "net/http"⟩) := by
  have hsegments : ∀ segment ∈ ["net", "http"],
      Module.IsSegment segment.toList ∧ '.' ∉ segment.toList := by
    rintro segment (_ | ⟨_, _ | ⟨_, ⟨⟩⟩⟩)
    all_goals
      refine ⟨⟨by decide, by decide, by decide, ?_, ?_⟩, by decide⟩ <;>
        rintro c ⟨⟩ <;> decide
  have hfound := (registeredTwice.findModule_of_spells rfl _ rfl (by decide) hsegments).1
    _ " " "" 0 (.dots (Or.inr (by decide))) (by simp; decide) (by simp)
  rw [hfound]
  decide +kernel

/-! ### Paths of files as requests -/

/-- A project in which files were registered one after the other under their paths. -/
def Project.ofModules (files : List (FileNumber × String)) : Project :=
  { Project.empty .standard with modules := Registry.empty.registerAll files }

theorem Project.moduleFile_eq {project : Project} {files : List (FileNumber × String)}
    (hmodules : project.modules = Registry.empty.registerAll files) (path : String)
    (origin : FileNumber) :
    project.codebase.moduleFile path origin = .ok (Registry.lastUnder path files) := by
  rw [← Registry.fileOf?_registerAll, ← hmodules]
  rfl

/-- A file in the root whose name has a dot is not found by its path: its module is registered under
a name with the dot, and the request names a module without. -/
theorem Project.findModule_dotted_root {segment : String}
    (hsegment : Module.IsSegment segment.toList) (hdot : '.' ∈ segment.toList)
    (origin : FileNumber) :
    findModule (ofModules [(0, segment ++ ".lua")]).codebase ("./" ++ segment ++ ".lua") origin =
      .ok none := by
  have hregistered : Registry.nameOf (segment ++ ".lua") = segment := by
    have hlocated := Module.nameOf_of_locates (List.cons_ne_nil segment [])
      (List.forall_mem_singleton.2 hsegment) .slashes
    rwa [String.intercalate_singleton] at hlocated
  have hnone : ∀ name : String, '.' ∉ name.toList →
      Registry.lastUnder name [(0, segment ++ ".lua")] = none := by
    intro name hname
    have hne : segment ≠ name := fun heq => hname (heq ▸ hdot)
    simp [Registry.lastUnder, hregistered, hne]
  cases hrequested : Module.requested ("./" ++ segment ++ ".lua") with
  | none => simp only [findModule, hrequested]
  | some name =>
    obtain ⟨path, hpath, rfl⟩ := Option.map_eq_some_iff.1 hrequested
    rw [String.toList_append, String.toList_append] at hpath
    have hname : '.' ∉ (String.ofList path).toList := by
      rw [String.toList_ofList]
      exact Module.dot_not_mem_of_nameOfRequest hsegment hpath
    have hinit : '.' ∉ (String.ofList path ++ "/init").toList := by
      rw [String.toList_append, List.mem_append, not_or]
      exact ⟨hname, by decide⟩
    rw [Codebase.findModule_standard rfl (moduleFile_eq rfl) hrequested, hnone _ hname,
      hnone _ hinit]
    rfl

/-- A file is found by its own path, begun with a step to the same directory, just when a slash
stands between segments of the path or no dot in the only one: the request for a file in the root is
taken for a dotted name. -/
theorem Project.findModule_own_path_iff {segments : List String} (hne : segments ≠ [])
    (hsegments : ∀ segment ∈ segments, Module.IsSegment segment.toList) :
    (∀ (project : Project) (files : List (FileNumber × String)) (file origin : FileNumber),
      project.conventions = .standard → project.modules = Registry.empty.registerAll files →
      Registry.lastUnder (Registry.nameOf ("/".intercalate segments ++ ".lua")) files = some file →
      ∃ name, findModule project.codebase ("./" ++ "/".intercalate segments ++ ".lua") origin =
        .ok (some ⟨file, name⟩)) ↔
      2 ≤ segments.length ∨ ∀ segment ∈ segments, '.' ∉ segment.toList := by
  constructor
  · intro hfound
    by_contra hcontra
    obtain ⟨hone, hdots⟩ := not_or.1 hcontra
    obtain ⟨segment, rfl⟩ : ∃ segment, segments = [segment] := by
      have hpos := List.length_pos_iff.2 hne
      exact List.length_eq_one_iff.1 (by omega)
    have hdot : '.' ∈ segment.toList := by simpa using hdots
    have hlast : Registry.lastUnder (Registry.nameOf (segment ++ ".lua"))
        [(0, segment ++ ".lua")] = some 0 := by
      simp [Registry.lastUnder]
    rw [String.intercalate_singleton] at hfound
    obtain ⟨name, hname⟩ := hfound (ofModules [(0, segment ++ ".lua")]) _ 0 0 rfl rfl hlast
    rw [findModule_dotted_root (hsegments segment (by simp)) hdot] at hname
    cases hname
  · intro hplain project files file origin hconventions hmodules hlast
    have hundotted : Module.undotted (Module.joined (segments.map String.toList)) =
        Module.joined (segments.map String.toList) := by
      rcases hplain with htwo | hdots
      · exact Module.undotted_of_two_le (by simpa using htwo)
      · refine Module.undotted_of_not_mem (Module.not_mem_intercalate (by decide) ?_)
        simpa using hdots
    have hrequested : Module.requested ("" ++ ("./" ++ "/".intercalate segments ++ ".lua") ++ "") =
        some ("/".intercalate segments) :=
      Module.requested_file hne hsegments hundotted (by simp) (by simp)
    rw [String.empty_append, String.append_empty] at hrequested
    have hstandard : project.codebase.conventions = .standard := hconventions
    rw [Module.nameOf_of_locates hne hsegments .slashes] at hlast
    refine ⟨"/".intercalate segments, ?_⟩
    rw [Codebase.findModule_standard hstandard (moduleFile_eq hmodules) hrequested, hlast]
    rfl

/-- Below directories, dots in the names of a directory and of the file do no harm; of two files
registered under the name, the last is found. -/
theorem Project.findModule_own_path_below :
    let files := [(0, "lib/v1.2/foo.spec.lua"), (1, "./lib/v1.2/foo.spec.lua")]
    Registry.lastUnder (Registry.nameOf ("/".intercalate ["lib", "v1.2", "foo.spec"] ++ ".lua"))
      files = some 1 ∧
    ∃ name, findModule (ofModules files).codebase
      ("./" ++ "/".intercalate ["lib", "v1.2", "foo.spec"] ++ ".lua") 0 = .ok (some ⟨1, name⟩) := by
  intro files
  have hsegments : ∀ segment ∈ ["lib", "v1.2", "foo.spec"], Module.IsSegment segment.toList := by
    rintro segment (_ | ⟨_, _ | ⟨_, _ | ⟨_, ⟨⟩⟩⟩⟩)
    all_goals
      refine ⟨by decide, by decide, by decide, ?_, ?_⟩ <;> rintro c ⟨⟩ <;> decide
  have hlast : Registry.lastUnder
      (Registry.nameOf ("/".intercalate ["lib", "v1.2", "foo.spec"] ++ ".lua")) files = some 1 := by
    decide +kernel
  have hfound := (findModule_own_path_iff (by decide) hsegments).2 (Or.inl (by decide))
  exact ⟨hlast, hfound (ofModules files) files 1 0 rfl rfl hlast⟩

/-- The file `foo.spec.lua` in the root is registered under its name and not found by its path. -/
theorem Project.own_path_not_found :
    let project := (Project.empty .standard).withModule "foo.spec.lua" (Build.sourceFile [])
    Module.IsSegment "foo.spec".toList ∧
    project.modules.fileOf? (Registry.nameOf "foo.spec.lua") = some 0 ∧
    findModule project.codebase "./foo.spec.lua" 0 = .ok none := by
  refine ⟨⟨by decide, by decide, by decide, ?_, ?_⟩, by decide +kernel, by decide +kernel⟩ <;>
    rintro c ⟨⟩ <;> decide

end LuaTypes
