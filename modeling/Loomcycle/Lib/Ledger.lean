import Mathlib.Data.List.Range
import Mathlib.Data.List.Dedup

/-! A counter per key, and what it counts. Takings are numbered in the order they happen; a log
names the ones that were given back. As long as each is given back at most once, the counter of a
key is the number of its takings that are still open. -/

namespace Loomcycle.Lib.Ledger

variable {τ κ : Type*} {key : τ → κ}

/-- The taking with the number `t` is of the key `k`. -/
def IsOf (key : τ → κ) (taken : List τ) (k : κ) (t : Nat) : Prop := taken[t]?.map key = some k

variable {count : κ → Nat} {taken : List τ} {log l : List Nat} {k : κ} {t : Nat} {x : τ}

theorem lt_of_isOf (h : IsOf key taken k t) : t < taken.length := by
  obtain ⟨x, hx, -⟩ := Option.map_eq_some_iff.mp h
  exact (List.getElem?_eq_some_iff.mp hx).1

theorem isOf_append_of_lt (h : t < taken.length) :
    IsOf key (taken ++ [x]) k t ↔ IsOf key taken k t := by
  rw [IsOf, IsOf, List.getElem?_append_left h]

theorem isOf_last : IsOf key (taken ++ [x]) k taken.length ↔ key x = k := by
  rw [IsOf, List.getElem?_append_right (Nat.le_refl _), Nat.sub_self]
  exact Option.some_inj

variable [DecidableEq κ]

instance (taken : List τ) (k : κ) (t : Nat) : Decidable (IsOf key taken k t) :=
  inferInstanceAs (Decidable (_ = _))

/-- The numbers of a key's takings that were not given back. -/
def outstanding (key : τ → κ) (taken : List τ) (log : List Nat) (k : κ) : List Nat :=
  (List.range taken.length).filter fun t => IsOf key taken k t ∧ t ∉ log

structure Balanced (key : τ → κ) (count : κ → Nat) (taken : List τ) (log : List Nat) : Prop where
  nodup : log.Nodup
  lt : ∀ t ∈ log, t < taken.length
  count_eq : ∀ k, count k = (outstanding key taken log k).length

theorem mem_outstanding : t ∈ outstanding key taken log k ↔ IsOf key taken k t ∧ t ∉ log := by
  rw [outstanding, List.mem_filter, List.mem_range, decide_eq_true_eq]
  exact ⟨And.right, fun h => ⟨lt_of_isOf h.1, h⟩⟩

theorem nodup_outstanding : (outstanding key taken log k).Nodup := List.nodup_range.filter _

theorem balanced_nil : Balanced key (fun _ => 0) ([] : List τ) [] where
  nodup := List.nodup_nil
  lt _ h := absurd h List.not_mem_nil
  count_eq _ := rfl

/-- A new taking is outstanding for its own key only. -/
theorem outstanding_take (hlog : ∀ t ∈ log, t < taken.length) :
    outstanding key (taken ++ [x]) log k =
      outstanding key taken log k ++ if key x = k then [taken.length] else [] := by
  have hnew : taken.length ∉ log := fun h => Nat.lt_irrefl _ (hlog _ h)
  have hold : ∀ t ∈ List.range taken.length,
      decide (IsOf key (taken ++ [x]) k t ∧ t ∉ log) = decide (IsOf key taken k t ∧ t ∉ log) := by
    intro t ht
    rw [decide_eq_decide, isOf_append_of_lt (List.mem_range.mp ht)]
  rw [outstanding, List.length_append, List.length_singleton, List.range_succ, List.filter_append,
    List.filter_congr hold, ← outstanding, List.filter_singleton]
  simp only [isOf_last, hnew, not_false_eq_true, and_true]
  congr 1
  split <;> simp_all

theorem Balanced.take (h : Balanced key count taken log) :
    Balanced key (Function.update count (key x) (count (key x) + 1)) (taken ++ [x]) log where
  nodup := h.nodup
  lt t ht := by
    rw [List.length_append]
    exact Nat.lt_add_right _ (h.lt t ht)
  count_eq k := by
    rw [outstanding_take h.lt, List.length_append, ← h.count_eq]
    by_cases hk : key x = k
    · subst hk
      rw [Function.update_self, if_pos rfl, List.length_singleton]
    · rw [Function.update_of_ne (Ne.symm hk), if_neg hk]
      rfl

/-- Giving back takings of one key, each outstanding, takes them off its counter. -/
theorem Balanced.give (h : Balanced key count taken log) (hl : l.Nodup)
    (hof : ∀ t ∈ l, IsOf key taken k t) (hlog : ∀ t ∈ l, t ∉ log) :
    Balanced key (Function.update count k (count k - l.length)) taken (log ++ l) := by
  refine ⟨?_, ?_, ?_⟩
  · exact h.nodup.append hl fun t ht htl => hlog t htl ht
  · intro t ht
    exact (List.mem_append.mp ht).elim (h.lt t) fun htl => lt_of_isOf (hof t htl)
  · intro k'
    by_cases hk : k' = k
    · subst hk
      -- what is given back and what stays open are together what was open
      have hperm : (l ++ outstanding key taken (log ++ l) k').Perm
          (outstanding key taken log k') := by
        refine (List.perm_ext_iff_of_nodup ?_ nodup_outstanding).mpr fun t => ?_
        · refine hl.append nodup_outstanding fun t ht hopen => ?_
          exact (mem_outstanding.mp hopen).2 (List.mem_append_right _ ht)
        · rw [List.mem_append, mem_outstanding, mem_outstanding, List.mem_append, not_or]
          refine ⟨fun ht => ht.elim (fun ht => ⟨hof t ht, hlog t ht⟩) fun ht => ⟨ht.1, ht.2.1⟩, ?_⟩
          intro ht
          by_cases htl : t ∈ l
          · exact .inl htl
          · exact .inr ⟨ht.1, ht.2, htl⟩
      have hlen := hperm.length_eq
      rw [List.length_append, ← h.count_eq k'] at hlen
      rw [Function.update_self]
      omega
    · rw [Function.update_of_ne hk, h.count_eq k']
      have hsame : outstanding key taken (log ++ l) k' = outstanding key taken log k' := by
        refine List.filter_congr fun t _ => decide_eq_decide.mpr (and_congr_right fun hof' => ?_)
        rw [List.mem_append, not_or, and_iff_left]
        intro htl
        exact hk (Option.mem_unique hof' (hof t htl))
      rw [hsame]

end Loomcycle.Lib.Ledger
