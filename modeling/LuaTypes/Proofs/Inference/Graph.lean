import LuaTypes.Proofs.Inference.Flow
import LuaTypes.Proofs.Project.Testing

/-!
# The graph of dependencies, computed

What passes types on or reads a member asks for the same expressions whatever the answers are. So
in a given codebase it can be computed what such expressions depend on.

* `Codebase.askedKeys`: the keys of what an expression asks for; `Codebase.Closed.asks_iff`;
* `Codebase.isAsked`, `Codebase.isUnasked`: whether an expression is asked for.
-/

namespace LuaTypes

namespace Codebase

variable (codebase : Codebase) (reach : Reach)

/-- The keys of what an expression asks for, if that does not depend on the answers. -/
def askedKeys (e : Filed Expr) : Option (List Key) :=
  match codebase.flow reach e with
  | .ok (some flow) => some (flow.sources.filterMap fun
    | .expr other => some (Expr.key other)
    | .type _ => none)
  | _ =>
    match e.value.form, Index.base e.value.node, Index.memberName e.value.node with
    | .index, .ok (some base), .ok (some _) => some [Expr.key (e.replace base)]
    | _, _, _ => none

/-- Whether the first expression asks for the second, as far as that can be computed. -/
def isAsked (e other : Filed Expr) : Bool :=
  match codebase.askedKeys reach e with
  | some keys => keys.contains (Expr.key other)
  | none => false

/-- Whether it can be computed that no expression asks for this one. -/
def isUnasked (e : Filed Expr) : Bool :=
  codebase.every fun other =>
    match codebase.askedKeys reach other with
    | some keys => !keys.contains (Expr.key e)
    | none => false

variable {codebase reach}

variable (codebase reach) in
theorem typeOf_of_index {e : Filed Expr} {base : Expr} {name : String}
    (hform : e.value.form = .index) (hbase : Index.base e.value.node = .ok (some base))
    (hname : Index.memberName e.value.node = .ok (some name)) :
    typeOf codebase reach e = .ask (e.replace base) fun ty => .done (memberType ty name) := by
  have hbase' : Index.base (e.replace e.value.node).value = .ok (some base) := hbase
  have hname' : Index.memberName (e.replace e.value.node).value = .ok (some name) := hname
  unfold typeOf
  simp only [hform, typeOfIndex]
  rw [ofReading_bind hbase', ofReading_bind hname']
  rfl

/-- What is computed is what an expression asks for. -/
theorem Closed.asks_iff (hclosed : codebase.Closed) {e other : Filed Expr} {keys : List Key}
    (h : codebase.askedKeys reach e = some keys) (he : codebase.HasExpr e)
    (hother : codebase.HasExpr other) : codebase.Asks reach e other ↔ Expr.key other ∈ keys := by
  have hsame : ∀ third, codebase.Asks reach e third → Expr.key third = Expr.key other →
      third = other := by
    intro third hask hkey
    exact hclosed.eq_of_key ((hclosed.typeOf reach he).mayAsk hask) hother hkey
  unfold askedKeys at h
  split at h
  · next flow hflow =>
    cases h
    have hasks : ∀ third, codebase.Asks reach e third ↔ Source.expr third ∈ flow.sources := by
      intro third
      rw [Asks, typeOf_eq_flow hflow]
      exact ⟨Flow.source_of_mayAsk, Flow.mayAsk_of_source⟩
    rw [hasks, List.mem_filterMap]
    constructor
    · intro hmem
      exact ⟨_, hmem, rfl⟩
    · rintro ⟨source, hmem, hkey⟩
      cases source with
      | type ty => cases hkey
      | expr third =>
        rwa [← hsame third ((hasks third).2 hmem) (Option.some.inj hkey)]
  · split at h
    · next base name hform hbase hname =>
      cases h
      have htypeOf := typeOf_of_index codebase reach hform hbase hname
      have hask : codebase.Asks reach e (e.replace base) := by
        rw [Asks, htypeOf]
        exact .now _
      constructor
      · intro h
        rw [Asks, htypeOf] at h
        cases h with
        | now _ => exact List.mem_singleton_self _
        | later ty h => cases h
      · intro h
        rwa [← hsame _ hask (List.mem_singleton.1 h).symm]
    · cases h

theorem Closed.asks_of_isAsked (hclosed : codebase.Closed) {e other : Filed Expr}
    (h : codebase.isAsked reach e other = true) (he : codebase.HasExpr e)
    (hother : codebase.HasExpr other) : codebase.Asks reach e other := by
  unfold isAsked at h
  split at h
  · next keys hkeys =>
    rw [hclosed.asks_iff hkeys he hother]
    simpa using h
  · cases h

theorem Closed.not_onCycle_of_isUnasked (hclosed : codebase.Closed) {e : Filed Expr}
    (h : codebase.isUnasked reach e = true) (he : codebase.HasExpr e) :
    ¬codebase.OnCycle reach e := by
  intro hcycle
  obtain ⟨last, hway, hask⟩ := Relation.TransGen.tail'_iff.1 hcycle
  have hlast := hclosed.hasExpr_of_reaches he hway
  have htest := test_of_every h hlast
  split at htest
  · next keys hkeys =>
    have hmem := (hclosed.asks_iff hkeys hlast he).1 hask
    simp [hmem] at htest
  · cases htest

end Codebase

end LuaTypes
