import Mathlib.Data.List.Sort

/-! Reading a collection a page at a time in the order of a position. Nothing is left behind
the end of a page, and an empty page is the end of the collection. -/

namespace Loomcycle.Lib.Paging

variable {α P : Type*} [LinearOrder P] (pos : α → P)

/-- The first `limit` elements in the order of `pos`. -/
def page (limit : Nat) (l : List α) : List α :=
  (l.insertionSort fun a b => pos a ≤ pos b).take limit

variable {pos} {limit : Nat} {l : List α} {a b : α}

theorem mem_of_mem_page (h : a ∈ page pos limit l) : a ∈ l :=
  (List.mem_insertionSort _).mp (List.mem_of_mem_take h)

/-- What lies before an element of the page is on it. -/
theorem mem_page_of_lt (ha : a ∈ l) (hb : b ∈ page pos limit l) (h : pos a < pos b) :
    a ∈ page pos limit l := by
  have hsorted := l.pairwise_insertionSort fun a b => pos a ≤ pos b
  have hmem := (List.mem_insertionSort fun a b => pos a ≤ pos b).mpr ha
  rw [← List.take_append_drop limit (l.insertionSort fun a b => pos a ≤ pos b)] at hsorted hmem
  refine (List.mem_append.mp hmem).resolve_right fun hdrop => ?_
  exact absurd h (not_lt.mpr ((List.pairwise_append.mp hsorted).2.2 b hb a hdrop))

theorem eq_nil_of_page (hlimit : 0 < limit) (h : page pos limit l = []) : l = [] := by
  obtain hzero | hnil := List.take_eq_nil_iff.mp h
  · exact absurd hzero (Nat.pos_iff_ne_zero.mp hlimit)
  · exact List.Perm.eq_nil ((List.perm_insertionSort _ l).symm.trans (.of_eq hnil))

/-- Elements of different positions are paged in one order, however they were listed. -/
theorem page_of_perm {l' : List α} (hperm : l.Perm l')
    (hinj : ∀ a ∈ l, ∀ b ∈ l, pos a = pos b → a = b) : page pos limit l = page pos limit l' := by
  have hsorted : (l.insertionSort fun a b => pos a ≤ pos b).Perm
      (l'.insertionSort fun a b => pos a ≤ pos b) :=
    ((List.perm_insertionSort _ l).trans hperm).trans (List.perm_insertionSort _ l').symm
  rw [page, page]
  congr 1
  refine hsorted.eq_of_pairwise (fun a b ha hb hab hba => ?_) (l.pairwise_insertionSort _)
    (l'.pairwise_insertionSort _)
  have hb' := hperm.mem_iff.mpr ((List.mem_insertionSort _).mp hb)
  exact hinj a ((List.mem_insertionSort _).mp ha) b hb' (le_antisymm hab hba)

theorem page_map {β : Type*} {pos' : β → P} (f : α → β) (h : ∀ a, pos' (f a) = pos a) :
    page pos' limit (l.map f) = (page pos limit l).map f := by
  have hsort := List.map_insertionSort (fun a b => pos a ≤ pos b) (fun a b => pos' a ≤ pos' b) f l
    fun a _ b _ => by rw [h, h]
  rw [page, page, List.map_take, hsort]

end Loomcycle.Lib.Paging
