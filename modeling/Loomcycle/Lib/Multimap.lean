import Mathlib.Data.List.AList
import Mathlib.Data.List.Perm.Basic

/-! Finite maps from keys to lists in which an empty list is not stored: the shape of a
Go `map[K][]V` whose owner deletes an entry when its slice runs out. -/

namespace Loomcycle.Lib

abbrev Multimap (κ ω : Type*) := AList fun _ : κ => List ω

namespace Multimap

variable {κ ω : Type*} [DecidableEq κ]

/-- An absent entry reads as the empty list. -/
def get (m : Multimap κ ω) (k : κ) : List ω := (m.lookup k).getD []

def put (m : Multimap κ ω) (k : κ) (l : List ω) : Multimap κ ω :=
  if l.isEmpty then m.erase k else m.insert k l

/-- Every value of every key. -/
def values (m : Multimap κ ω) : List ω := m.entries.flatMap Sigma.snd

@[simp] theorem get_put_self (m : Multimap κ ω) (k : κ) (l : List ω) : get (put m k l) k = l := by
  cases l <;> simp [put, get]

variable {k : κ} (m : Multimap κ ω)

theorem get_put_of_ne {i : κ} (l : List ω) (h : i ≠ k) :
    get (put m k l) i = get m i := by
  cases l <;> simp [put, get, AList.lookup_erase_ne h, AList.lookup_insert_ne h]

theorem get_put (k i : κ) (l : List ω) :
    get (put m k l) i = if i = k then l else get m i := by
  split
  · next h => rw [h, get_put_self]
  · next h => exact get_put_of_ne m l h

theorem get_erase_self (k : κ) : get (m.erase k) k = [] := by
  simp [get]

theorem get_erase_of_ne {i : κ} (h : i ≠ k) : get (m.erase k) i = get m i := by
  simp [get, AList.lookup_erase_ne h]

theorem values_put (k : κ) (l : List ω) :
    values (put m k l) = l ++ values (m.erase k) := by
  have herase : (m.erase k).entries = m.entries.kerase k := rfl
  cases l <;> simp [put, values, AList.insert, herase, List.kinsert_def]

/-- The values are those of one key and those of the map without it. -/
theorem values_perm (k : κ) :
    (values m).Perm (get m k ++ values (m.erase k)) := by
  cases h : m.lookup k with
  | none =>
    have hk : k ∉ m := AList.lookup_eq_none.mp h
    have he : (m.erase k).entries = m.entries := List.kerase_of_notMem_keys hk
    simp [get, h, values, he]
  | some l =>
    have hk : k ∈ m.entries.keys := AList.lookup_isSome.mp (by simp [h])
    obtain ⟨l', before, after, -, hm, he⟩ := List.exists_of_kerase hk
    have hl : m.lookup k = some l' := AList.mem_lookup_iff.mpr (by simp [hm])
    obtain rfl : l = l' := Option.mem_unique h hl
    have hp : m.entries.Perm (⟨k, l⟩ :: (m.erase k).entries) := by
      rw [show (m.erase k).entries = before ++ after from he, hm]
      exact List.perm_middle
    simpa [get, h, values] using hp.flatMap_right Sigma.snd

variable {m}

theorem mem_values {w : ω} : w ∈ values m ↔ ∃ k, w ∈ get m k := by
  constructor
  · intro h
    obtain ⟨⟨k, l⟩, he, hw⟩ := List.mem_flatMap.mp h
    refine ⟨k, ?_⟩
    rwa [get, AList.mem_lookup_iff.mpr he]
  · rintro ⟨k, h⟩
    exact (values_perm m k).mem_iff.mpr (List.mem_append_left _ h)

theorem mem_keys_of_get (h : get m k ≠ []) : k ∈ m.keys := by
  by_contra hk
  exact h (by simp [get, AList.lookup_eq_none.mpr hk])

end Multimap

end Loomcycle.Lib
