import Mathlib.Data.List.Perm.Basic
import Mathlib.Data.List.Nodup

/-! Lists that stand for a map: no two elements have the same key under `f`. Looking a
key up, dropping it and replacing its element are `find?`, `filter` and `map`; what they
do to the list as a collection is said once, relative to `erase`. -/

namespace Loomcycle.Lib.Keyed

variable {α κ : Type*} [DecidableEq κ] {f : α → κ} {l : List α} {a b : α}

theorem find?_key (hn : (l.map f).Nodup) (ha : a ∈ l) :
    l.find? (fun x => f x = f a) = some a := by
  cases hf : l.find? (fun x => f x = f a) with
  | none => simpa using List.find?_eq_none.mp hf a ha
  | some b =>
    have hb : f b = f a := by simpa using List.find?_some hf
    rw [List.inj_on_of_nodup_map hn (List.mem_of_find?_eq_some hf) ha hb]

variable [DecidableEq α]

omit [DecidableEq κ] in
theorem ne_of_mem_erase (hn : (l.map f).Nodup) (ha : a ∈ l) (hb : b ∈ l.erase a) :
    f b ≠ f a := by
  intro h
  have he := List.inj_on_of_nodup_map hn (List.mem_of_mem_erase hb) ha h
  subst he
  exact (hn.of_map f).not_mem_erase hb

theorem filter_ne_perm (hn : (l.map f).Nodup) (ha : a ∈ l) :
    (l.filter fun x => f x ≠ f a).Perm (l.erase a) := by
  refine ((List.perm_cons_erase ha).filter _).trans ?_
  rw [List.filter_cons_of_neg (by simp), List.filter_eq_self.mpr]
  intro x hx
  simpa using ne_of_mem_erase hn ha hx

theorem map_set_perm (hn : (l.map f).Nodup) (ha : a ∈ l) (g : α → α) :
    (l.map fun x => if f x = f a then g x else x).Perm (g a :: l.erase a) := by
  refine ((List.perm_cons_erase ha).map _).trans ?_
  rw [List.map_cons, if_pos rfl]
  have hrest : ∀ x ∈ l.erase a, (if f x = f a then g x else x) = x := fun x hx =>
    if_neg (ne_of_mem_erase hn ha hx)
  rw [List.map_congr_left hrest, List.map_id']

/-- Numbers are given out one after the other, so a new one is none of the old. -/
theorem fresh_cons {ids ids' : List Nat} {next : Nat} (hn : ids.Nodup)
    (hf : ∀ i ∈ ids, i < next) (hp : ids'.Perm (next :: ids)) :
    ids'.Nodup ∧ ∀ i ∈ ids', i < next + 1 := by
  refine ⟨hp.nodup_iff.mpr (List.nodup_cons.mpr ⟨fun hm => ?_, hn⟩), fun i hi => ?_⟩
  · exact Nat.lt_irrefl _ (hf _ hm)
  · rcases List.mem_cons.mp (hp.mem_iff.mp hi) with rfl | hi
    · exact Nat.lt_succ_self _
    · exact Nat.lt_succ_of_lt (hf i hi)

end Loomcycle.Lib.Keyed
