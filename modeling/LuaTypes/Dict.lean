/-!
# Finite maps

A finite map is the list of its entries, the latest first, no key twice. What an entry's key maps to
is read by `get?`; one equation per operation says what it does to `get?`.

* `get?_insert`, `get?_erase`, `get?_filterKeys`;
* `erase_insert`: a new key inserted and erased leaves the map as it was.
-/

namespace LuaTypes

/-- A finite map. -/
structure Dict (κ α : Type) where
  entries : List (κ × α)
  distinct : (entries.map (·.1)).Nodup

namespace Dict

variable {κ α : Type}

instance [DecidableEq κ] [DecidableEq α] : DecidableEq (Dict κ α) := fun a b =>
  if h : a.entries = b.entries then
    .isTrue (by obtain ⟨_, _⟩ := a; obtain ⟨_, _⟩ := b; cases h; rfl)
  else .isFalse fun hab => h (by rw [hab])

theorem ext_entries {a b : Dict κ α} (h : a.entries = b.entries) : a = b := by
  obtain ⟨_, _⟩ := a
  obtain ⟨_, _⟩ := b
  cases h
  rfl

/-- The map without entries. -/
def empty : Dict κ α := ⟨[], List.nodup_nil⟩

instance : Inhabited (Dict κ α) := ⟨empty⟩

/-- The number of keys. -/
def size (map : Dict κ α) : Nat := map.entries.length

/-- The entries whose keys pass a test. -/
def filterKeys (keep : κ → Bool) (map : Dict κ α) : Dict κ α where
  entries := map.entries.filter fun entry => keep entry.1
  distinct := map.distinct.sublist (List.filter_sublist.map _)

variable [DecidableEq κ]

/-- What a key maps to. -/
def get? (map : Dict κ α) (key : κ) : Option α :=
  (map.entries.find? fun entry => entry.1 = key).map (·.2)

/-- Whether a key is mapped. -/
def contains (map : Dict κ α) (key : κ) : Bool := (map.get? key).isSome

/-- The map without a key. -/
def erase (map : Dict κ α) (key : κ) : Dict κ α := map.filterKeys fun k => k ≠ key

theorem not_mem_keys_erase (map : Dict κ α) (key : κ) :
    key ∉ (map.erase key).entries.map (·.1) := by
  simp [erase, filterKeys]

/-- The map with a key mapped anew. -/
def insert (map : Dict κ α) (key : κ) (value : α) : Dict κ α where
  entries := (key, value) :: (map.erase key).entries
  distinct := List.nodup_cons.2 ⟨map.not_mem_keys_erase key, (map.erase key).distinct⟩

/-! ### What the operations do -/

@[simp] theorem get?_empty (key : κ) : (empty : Dict κ α).get? key = none := rfl

theorem get?_filterKeys (keep : κ → Bool) (map : Dict κ α) (key : κ) :
    (map.filterKeys keep).get? key = if keep key then map.get? key else none := by
  obtain ⟨entries, distinct⟩ := map
  simp only [filterKeys, get?]
  clear distinct
  induction entries with
  | nil => simp
  | cons entry rest ih =>
    by_cases hk : keep entry.1 <;> by_cases he : entry.1 = key <;>
      simp_all

theorem get?_erase (map : Dict κ α) (key key' : κ) :
    (map.erase key).get? key' = if key' = key then none else map.get? key' := by
  rw [erase, get?_filterKeys]
  by_cases h : key' = key <;> simp [h]

theorem get?_insert (map : Dict κ α) (key key' : κ) (value : α) :
    (map.insert key value).get? key' = if key' = key then some value else map.get? key' := by
  by_cases h : key' = key
  · subst h
    simp [insert, get?]
  · have hrest := map.get?_erase key key'
    rw [if_neg h] at hrest
    simp only [h, if_false]
    rw [← hrest]
    simp [insert, get?, Ne.symm h]

theorem get?_eq_none_iff (map : Dict κ α) (key : κ) :
    map.get? key = none ↔ key ∉ map.entries.map (·.1) := by
  simp only [get?, Option.map_eq_none_iff, List.find?_eq_none, List.mem_map, not_exists, not_and]
  exact ⟨fun h entry hm he => h entry hm (by simpa using he), fun h entry hm he =>
    h entry hm (by simpa using he)⟩

/-- A key that was not mapped, inserted and erased, leaves the map as it was. -/
theorem erase_insert {map : Dict κ α} {key : κ} (h : map.get? key = none) (value : α) :
    (map.insert key value).erase key = map := by
  apply ext_entries
  have hmem : ∀ entry ∈ map.entries, entry.1 ≠ key := fun entry hm he =>
    (map.get?_eq_none_iff key).1 h (List.mem_map.2 ⟨entry, hm, he⟩)
  simp only [insert, erase, filterKeys, ne_eq, decide_not, List.filter_cons, decide_true,
    Bool.not_true, Bool.false_eq_true, if_false, List.filter_filter, Bool.and_self]
  exact List.filter_eq_self.2 fun entry hm => by simpa using hmem entry hm

end Dict

end LuaTypes
