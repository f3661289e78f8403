import Mathlib.Data.List.Perm.Subperm
import Mathlib.Data.List.Nodup

/-! A table of numbered slots, each free or taken, that hands out the lowest free number
and grows when there is none. `Marks` says which numbers are taken; while fewer than `n`
are, the next number handed out is below `n`. -/

namespace Loomcycle.Lib.Slots

/-- The lowest free number. -/
def lowest (table : List Bool) : Nat := table.findIdx fun taken => !taken

/-- Take the lowest free number. -/
def take (table : List Bool) : List Bool :=
  if lowest table < table.length then table.set (lowest table) true else table ++ [true]

/-- Give a number back. -/
def free (table : List Bool) (i : Nat) : List Bool := table.set i false

/-- Exactly the numbers of `slots` are taken, each once. -/
structure Marks (table : List Bool) (slots : List Nat) : Prop where
  nodup : slots.Nodup
  mem : ∀ i, table[i]? = some true ↔ i ∈ slots

variable {table : List Bool} {slots slots' : List Nat} {i : Nat}

theorem marks_nil : Marks [] [] := ⟨List.nodup_nil, by simp⟩

theorem Marks.perm (h : Marks table slots) (hp : slots.Perm slots') : Marks table slots' :=
  ⟨hp.nodup_iff.mp h.nodup, fun i => (h.mem i).trans hp.mem_iff⟩

theorem getElem?_of_lt_lowest (h : i < lowest table) : table[i]? = some true := by
  have hlen : i < table.length := Nat.lt_of_lt_of_le h List.findIdx_le_length
  have htaken := List.not_of_lt_findIdx h
  rw [List.getElem?_eq_getElem hlen]
  simpa using htaken

theorem Marks.lowest_not_mem (h : Marks table slots) : lowest table ∉ slots := by
  rw [← h.mem]
  intro ht
  obtain ⟨hlen, ht⟩ := List.getElem?_eq_some_iff.mp ht
  have hfree : (!table[lowest table]) = true := List.findIdx_getElem (w := hlen)
  rw [ht] at hfree
  cases hfree

/-- The lowest free number is at most the number of those taken. -/
theorem Marks.lowest_le (h : Marks table slots) : lowest table ≤ slots.length := by
  have hsub : List.range (lowest table) ⊆ slots := fun i hi =>
    (h.mem i).mp (getElem?_of_lt_lowest (List.mem_range.mp hi))
  have hle := (List.subperm_of_subset List.nodup_range hsub).length_le
  rwa [List.length_range] at hle

theorem getElem?_take : (take table)[i]? = if i = lowest table then some true else table[i]? := by
  unfold take
  split
  · next hlt =>
    rw [List.getElem?_set]
    by_cases hi : lowest table = i
    · subst hi
      simp [hlt]
    · simp [hi, Ne.symm hi]
  · next hge =>
    have hlen : lowest table = table.length :=
      Nat.le_antisymm List.findIdx_le_length (Nat.not_lt.mp hge)
    rw [hlen]
    by_cases hi : i = table.length
    · simp [hi]
    · rw [if_neg hi]
      rcases Nat.lt_or_gt_of_ne hi with hlt | hgt
      · rw [List.getElem?_append_left hlt]
      · rw [List.getElem?_eq_none (by simp; omega), List.getElem?_eq_none (Nat.le_of_lt hgt)]

theorem Marks.take (h : Marks table slots) : Marks (take table) (lowest table :: slots) where
  nodup := List.nodup_cons.mpr ⟨h.lowest_not_mem, h.nodup⟩
  mem i := by
    rw [getElem?_take, List.mem_cons, ← h.mem]
    by_cases hi : i = lowest table <;> simp [hi]

theorem Marks.free (h : Marks table (i :: slots)) : Marks (free table i) slots where
  nodup := (List.nodup_cons.mp h.nodup).2
  mem j := by
    unfold Slots.free
    rw [List.getElem?_set]
    by_cases hij : i = j
    · subst hij
      have hnot := (List.nodup_cons.mp h.nodup).1
      simp only [if_true, hnot, iff_false]
      split <;> simp
    · rw [if_neg hij, h.mem, List.mem_cons]
      simp [Ne.symm hij]

end Loomcycle.Lib.Slots
