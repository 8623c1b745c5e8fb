/-
  Names and numbers.

  Beside a table stands a map from names to numbers.  `map.Indexes entries` says that the map is the
  inverse of the entries: no name occurs twice among them, each is found with its number and no other
  name is found.  An empty map is the inverse of no entries, and where a name is inserted that is not
  found so far, the entries have it as well (`NameMap.Indexes.insert`).
-/
import Mathlib.Data.List.Nodup
import MiniC.Program

namespace MiniC

namespace NameMap
variable {map : NameMap} {name other : String} {id id' : Nat} {entries : List (String × Nat)}

theorem find?_insert (map : NameMap) (name other : String) (id : Nat) :
    (map.insert name id).find? other = if other = name then some id else map.find? other := by
  rw [find?, insert, List.lookup_cons]
  by_cases h : other = name
  · rw [if_pos h, beq_iff_eq.2 h]
  · rw [if_neg h, beq_eq_false_iff_ne.2 h]
    rfl

/-- What is found is found after an insertion of a new name. -/
theorem find?_insert_of_none (hn : map.find? name = none) (h : map.find? other = some id') :
    (map.insert name id).find? other = some id' := by
  rw [find?_insert, if_neg, h]
  rintro rfl
  cases hn.symm.trans h

/-- The map is the inverse of the entries: no name occurs twice, each is found with its number and no
other is. -/
structure Indexes (map : NameMap) (entries : List (String × Nat)) : Prop where
  nodup : (entries.map Prod.fst).Nodup
  found : ∀ name id, map.find? name = some id ↔ (name, id) ∈ entries

theorem Indexes.nil : Indexes [] [] := ⟨.nil, fun _ _ => ⟨nofun, nofun⟩⟩

/-- One more entry, with a new name. -/
theorem Indexes.insert (h : map.Indexes entries) (hn : map.find? name = none) (id : Nat) :
    (map.insert name id).Indexes (entries ++ [(name, id)]) where
  nodup := by
    rw [List.map_append, List.nodup_append]
    refine ⟨h.nodup, List.nodup_singleton _, ?_⟩
    rintro _ hm _ hs rfl
    obtain ⟨⟨_, id'⟩, hentry, rfl⟩ := List.mem_map.1 hm
    cases List.mem_singleton.1 hs
    cases hn.symm.trans ((h.found _ _).2 hentry)
  found other id' := by
    rw [find?_insert, List.mem_append, List.mem_singleton, ← h.found]
    split
    case isTrue hname =>
      subst hname
      simp [hn, eq_comm]
    case isFalse hname => simp [hname]

end NameMap

/-! ## The entries of a table -/

section
variable {α : Type} {name : α → String}

/-- The names in a table with their numbers. -/
def numbered (name : α → String) (xs : Array α) : List (String × Nat) :=
  xs.toList.zipIdx.map fun (x, i) => (name x, i)

theorem mem_numbered {xs : Array α} {n : String} {i : Nat} :
    (n, i) ∈ numbered name xs ↔ ∃ x, xs[i]? = some x ∧ name x = n := by
  simp only [numbered, List.mem_map, Prod.exists, Prod.mk.injEq, List.mk_mem_zipIdx_iff_getElem?,
    Array.getElem?_toList]
  constructor
  · rintro ⟨x, _, hx, hn, rfl⟩
    exact ⟨x, hx, hn⟩
  · rintro ⟨x, hx, hn⟩
    exact ⟨x, i, hx, hn, rfl⟩

theorem numbered_push (xs : Array α) (x : α) :
    numbered name (xs.push x) = numbered name xs ++ [(name x, xs.size)] := by
  simp [numbered, List.zipIdx_append]

/-- A change to one entry of a table that keeps its name. -/
theorem numbered_modify {change : α → α} (h : ∀ x, name (change x) = name x) (xs : Array α) (i : Nat) :
    numbered name (xs.modify i change) = numbered name xs := by
  refine List.ext_getElem? fun j => ?_
  simp only [numbered, Array.toList_modify, List.getElem?_map, List.getElem?_zipIdx,
    List.getElem?_modify]
  split <;> cases xs.toList[j]? <;> simp [h]

end

end MiniC
