import Mathlib.Data.List.AList
import Mathlib.Data.List.Dedup
import Mathlib.Data.List.Perm.Subperm

/-! Finite maps from keys to counts in which a count of zero is not stored: the shape of a Go
`map[K]int` whose owner deletes an entry when it runs out. What such a map holds is said by the
list of what it counts. -/

namespace Loomcycle.Lib

abbrev CountMap (κ : Type*) := AList fun _ : κ => Nat

namespace CountMap

variable {κ : Type*} [DecidableEq κ] {m : CountMap κ} {xs ys : List κ} {k : κ}

/-- An absent entry reads as zero. -/
def count (m : CountMap κ) (k : κ) : Nat := (m.lookup k).getD 0

def inc (m : CountMap κ) (k : κ) : CountMap κ := m.insert k (count m k + 1)

def dec (m : CountMap κ) (k : κ) : CountMap κ :=
  if 1 < count m k then m.insert k (count m k - 1) else m.erase k

omit [DecidableEq κ] in
/-- The number of keys. -/
def size (m : CountMap κ) : Nat := m.keys.length

/-- The number of different elements. -/
def distinct (xs : List κ) : Nat := xs.dedup.length

theorem distinct_le (h : xs ⊆ ys) : distinct xs ≤ distinct ys := by
  refine ((List.nodup_dedup xs).subperm fun x hx => ?_).length_le
  exact List.mem_dedup.mpr (h (List.mem_dedup.mp hx))

theorem distinct_cons_le (k : κ) (xs : List κ) : distinct (k :: xs) ≤ distinct xs + 1 := by
  unfold distinct
  by_cases h : k ∈ xs
  · rw [List.dedup_cons_of_mem h]
    omega
  · rw [List.dedup_cons_of_notMem h, List.length_cons]

/-- `m` counts the elements of `xs`. -/
def Counts (m : CountMap κ) (xs : List κ) : Prop :=
  ∀ k, m.lookup k = if k ∈ xs then some (xs.count k) else none

theorem counts_empty : Counts (∅ : CountMap κ) [] := fun k => by simp

section

variable (h : Counts m xs)
include h

theorem Counts.count_eq (k : κ) : count m k = xs.count k := by
  rw [count, h k]
  split
  · rfl
  · next hk => exact (List.count_eq_zero_of_not_mem hk).symm

theorem Counts.count_pos : 0 < count m k ↔ k ∈ xs := by
  rw [h.count_eq, List.count_pos_iff]

theorem Counts.perm (hp : xs.Perm ys) : Counts m ys := fun k => by
  rw [h k, hp.count_eq]
  simp only [hp.mem_iff]

theorem Counts.inc (k : κ) : Counts (inc m k) (k :: xs) := fun i => by
  unfold CountMap.inc
  by_cases hi : i = k
  · subst hi
    rw [AList.lookup_insert, h.count_eq, if_pos List.mem_cons_self, List.count_cons_self]
  · have hmem : i ∈ k :: xs ↔ i ∈ xs := by simp [hi]
    rw [AList.lookup_insert_ne hi, h i, List.count_cons_of_ne (Ne.symm hi)]
    simp only [hmem]

omit h in
theorem Counts.dec (h : Counts m (k :: xs)) : Counts (dec m k) xs := fun i => by
  have hk : CountMap.count m k = xs.count k + 1 := by rw [h.count_eq, List.count_cons_self]
  unfold CountMap.dec
  by_cases hi : i = k
  · subst hi
    by_cases hx : i ∈ xs
    · have hpos := List.count_pos_iff.mpr hx
      rw [if_pos (by omega), AList.lookup_insert, if_pos hx, hk, Nat.add_sub_cancel]
    · have hzero := List.count_eq_zero_of_not_mem hx
      rw [if_neg (by omega), AList.lookup_erase, if_neg hx]
  · have hmem : i ∈ k :: xs ↔ i ∈ xs := by simp [hi]
    have hold : m.lookup i = if i ∈ xs then some (xs.count i) else none := by
      rw [h i, List.count_cons_of_ne (Ne.symm hi)]
      simp only [hmem]
    split
    · rw [AList.lookup_insert_ne hi, hold]
    · rw [AList.lookup_erase_ne hi, hold]

/-- Counting a list on top. -/
theorem Counts.incAll (ys : List κ) : Counts (ys.foldl CountMap.inc m) (ys ++ xs) := by
  induction ys generalizing m xs with
  | nil => exact h
  | cons y ys ih => exact (ih (h.inc y)).perm List.perm_middle

theorem Counts.mem_keys : k ∈ m.keys ↔ k ∈ xs := by
  rw [← AList.mem_keys, ← AList.lookup_isSome, h k]
  split <;> simp_all

theorem Counts.size_eq : size m = distinct xs := by
  refine ((List.perm_ext_iff_of_nodup m.nodupKeys (List.nodup_dedup xs)).mpr fun k => ?_).length_eq
  rw [List.mem_dedup]
  exact h.mem_keys

end

end CountMap

end Loomcycle.Lib
