import Mathlib.Data.List.Sort
import Loomcycle.Lib.Keyed

/-! A table with a primary key: a list of rows, no two of one key, in the order they were
written. What a statement does to the other rows is said through `rows`, what it answers for
a key through `find`. -/

namespace Loomcycle.Lib

/-- The rows of a table whose primary key is `key`. -/
@[ext]
structure Table {ρ κ : Type*} (key : ρ → κ) where
  rows : List ρ
  nodup : (rows.map key).Nodup

namespace Table

variable {ρ κ : Type*} {key : ρ → κ}

def empty : Table key := ⟨[], List.nodup_nil⟩

variable [DecidableEq κ] {t t' : Table key} {k : κ} {r r' : ρ}

instance [DecidableEq ρ] : DecidableEq (Table key) := fun t t' =>
  decidable_of_iff (t.rows = t'.rows) Table.ext_iff.symm

def find (t : Table key) (k : κ) : Option ρ := t.rows.find? fun r => key r = k

theorem find_eq_some : t.find k = some r ↔ r ∈ t.rows ∧ key r = k := by
  constructor
  · intro h
    exact ⟨List.mem_of_find?_eq_some h, by simpa using List.find?_some h⟩
  · rintro ⟨hr, rfl⟩
    exact Keyed.find?_key t.nodup hr

theorem find_eq_none : t.find k = none ↔ ∀ r ∈ t.rows, key r ≠ k := by simp [find]

theorem isSome_find : (t.find k).isSome ↔ k ∈ t.rows.map key := by simp [find]

/-- Two tables that answer every key alike hold the same rows. -/
theorem perm_of_find (h : ∀ k, t.find k = t'.find k) : t.rows.Perm t'.rows := by
  refine (List.perm_ext_iff_of_nodup (t.nodup.of_map key) (t'.nodup.of_map key)).mpr fun r => ?_
  have hr := h (key r)
  constructor
  · intro hmem
    exact (find_eq_some.mp (hr ▸ find_eq_some.mpr ⟨hmem, rfl⟩)).1
  · intro hmem
    exact (find_eq_some.mp (hr.symm ▸ find_eq_some.mpr ⟨hmem, rfl⟩)).1

/-- If their keys also stand in one order, they are the same. -/
theorem eq_of_find (hkeys : t.rows.map key = t'.rows.map key) (h : ∀ k, t.find k = t'.find k) :
    t = t' := by
  have hrows (t : Table key) : (t.rows.map key).filterMap t.find = t.rows := by
    have hfind : ∀ r ∈ t.rows, (t.find ∘ key) r = some r :=
      fun r hr => find_eq_some.mpr ⟨hr, rfl⟩
    rw [List.filterMap_map, List.filterMap_congr hfind, List.filterMap_some]
  refine Table.ext ?_
  rw [← hrows t, ← hrows t', hkeys, funext h]

theorem find_of_subset (hsub : t.rows ⊆ t'.rows) (h : t.find k = some r) : t'.find k = some r :=
  have ⟨hmem, hkey⟩ := find_eq_some.mp h
  find_eq_some.mpr ⟨hsub hmem, hkey⟩

/-- Some of the rows, rewritten under their keys. -/
theorem perm_map_of_find {f : ρ → ρ} {p : ρ → Bool} (hf : ∀ r, key (f r) = key r)
    (h : ∀ k, t'.find k = ((t.find k).filter p).map f) :
    t'.rows.Perm ((t.rows.filter p).map f) := by
  have hkeys : ((t.rows.filter p).map f).map key = (t.rows.filter p).map key := by
    rw [List.map_map]
    exact List.map_congr_left fun r _ => hf r
  let rewritten : Table key :=
    ⟨(t.rows.filter p).map f, hkeys ▸ t.nodup.sublist (List.filter_sublist.map key)⟩
  have hfind (k : κ) : t'.find k = rewritten.find k := by
    refine Option.ext fun r => ?_
    rw [h, Option.map_eq_some_iff, find_eq_some, List.mem_map]
    constructor
    · rintro ⟨x, hx, rfl⟩
      obtain ⟨hx, hp⟩ := Option.filter_eq_some_iff.mp hx
      obtain ⟨hmem, hkey⟩ := find_eq_some.mp hx
      exact ⟨⟨x, List.mem_filter.mpr ⟨hmem, hp⟩, rfl⟩, (hf x).trans hkey⟩
    · rintro ⟨⟨x, hx, rfl⟩, hkey⟩
      obtain ⟨hmem, hp⟩ := List.mem_filter.mp hx
      have hfound : t.find k = some x := find_eq_some.mpr ⟨hmem, (hf x).symm.trans hkey⟩
      exact ⟨x, Option.filter_eq_some_iff.mpr ⟨hfound, hp⟩, rfl⟩
  exact perm_of_find hfind

/-- `INSERT OR IGNORE`: the row is added unless its key is taken. -/
def insertOrIgnore (t : Table key) (r : ρ) : Table key :=
  if h : t.find (key r) = none then
    ⟨t.rows ++ [r], by
      rw [List.map_append, List.nodup_append]
      refine ⟨t.nodup, List.nodup_singleton _, ?_⟩
      rintro _ hk _ hs rfl
      obtain ⟨r', hr', he⟩ := List.mem_map.mp hk
      exact find_eq_none.mp h r' hr' (he.trans (List.mem_singleton.mp hs))⟩
  else t

theorem insertOrIgnore_of_none (h : t.find (key r) = none) :
    (t.insertOrIgnore r).rows = t.rows ++ [r] := by rw [insertOrIgnore, dif_pos h]

theorem insertOrIgnore_of_some (h : t.find (key r) = some r') : t.insertOrIgnore r = t := by
  rw [insertOrIgnore, dif_neg (by rw [h]; nofun)]

theorem rows_insertOrIgnore (t : Table key) (r : ρ) : t.rows <+: (t.insertOrIgnore r).rows := by
  cases h : t.find (key r) with
  | none => exact insertOrIgnore_of_none h ▸ List.prefix_append _ _
  | some r' => exact ⟨[], by rw [insertOrIgnore_of_some h, List.append_nil]⟩

theorem mem_insertOrIgnore (h : r' ∈ (t.insertOrIgnore r).rows) :
    r' ∈ t.rows ∨ t.find (key r) = none ∧ r' = r := by
  cases hfind : t.find (key r) with
  | none =>
    rw [insertOrIgnore_of_none hfind] at h
    exact (List.mem_append.mp h).imp_right fun hnew => ⟨rfl, List.mem_singleton.mp hnew⟩
  | some r'' =>
    rw [insertOrIgnore_of_some hfind] at h
    exact .inl h

theorem find_insertOrIgnore (t : Table key) (r : ρ) (k : κ) :
    (t.insertOrIgnore r).find k = (t.find k).or (if key r = k then some r else none) := by
  cases h : t.find (key r) with
  | none =>
    simp only [find, insertOrIgnore_of_none h, List.find?_append, List.find?_singleton]
    split <;> simp_all
  | some r' =>
    rw [insertOrIgnore_of_some h]
    split
    · next he => rw [← he, h]; rfl
    · rw [Option.or_none]

/-- A run of inserts answers a key with the row that was there, or else with the first one for
it. -/
theorem find_foldl_insertOrIgnore (l : List ρ) (t : Table key) (k : κ) :
    (l.foldl insertOrIgnore t).find k = (t.find k).or (l.find? fun r => key r = k) := by
  induction l generalizing t with
  | nil => exact Option.or_none.symm
  | cons r l ih =>
    rw [List.foldl_cons, ih, find_insertOrIgnore, Option.or_assoc, List.find?_cons]
    congr 1
    by_cases h : key r = k
    · simp [h]
    · simp [h]

private theorem map_key_replace (key : ρ → κ) (l : List ρ) (r : ρ) :
    (l.map fun x => if key x = key r then r else x).map key = l.map key := by
  rw [List.map_map]
  refine List.map_congr_left fun x _ => ?_
  by_cases h : key x = key r
  · simp [h]
  · simp [h]

/-- `ON CONFLICT DO UPDATE`: the row replaces the one of its key. -/
def upsert (t : Table key) (r : ρ) : Table key :=
  if t.find (key r) = none then t.insertOrIgnore r
  else ⟨t.rows.map fun x => if key x = key r then r else x,
    (map_key_replace key t.rows r).symm ▸ t.nodup⟩

theorem rows_upsert_of_some (h : t.find (key r) = some r') :
    (t.upsert r).rows = t.rows.map fun x => if key x = key r then r else x := by
  rw [upsert, if_neg (by rw [h]; nofun)]

theorem keys_upsert_of_some (h : t.find (key r) = some r') :
    (t.upsert r).rows.map key = t.rows.map key := by
  rw [rows_upsert_of_some h, map_key_replace]

theorem find_upsert (t : Table key) (r : ρ) (k : κ) :
    (t.upsert r).find k = if key r = k then some r else t.find k := by
  by_cases h : t.find (key r) = none
  · rw [upsert, if_pos h, find_insertOrIgnore]
    split
    · next he => rw [← he, h]; rfl
    · rw [Option.or_none]
  rw [upsert, if_neg h]
  obtain ⟨r', hr'⟩ := Option.ne_none_iff_exists'.mp h
  have ⟨hmem, hkey⟩ := find_eq_some.mp hr'
  split
  · next he =>
    exact find_eq_some.mpr ⟨List.mem_map.mpr ⟨r', hmem, if_pos hkey⟩, he⟩
  next he =>
  -- a row of another key is in the replaced rows exactly if it was in the rows
  refine Option.ext fun x => ?_
  rw [find_eq_some, find_eq_some, List.mem_map]
  constructor
  · rintro ⟨⟨y, hy, hyx⟩, hx⟩
    by_cases hyr : key y = key r
    · rw [if_pos hyr] at hyx
      exact absurd (hyx ▸ hx) he
    · rw [if_neg hyr] at hyx
      exact ⟨hyx ▸ hy, hx⟩
  · rintro ⟨hy, hx⟩
    exact ⟨⟨x, hy, if_neg fun hxr => he (hxr.symm.trans hx)⟩, hx⟩

/-- Writing over the row just inserted leaves the rows before it as they were. -/
theorem rows_upsert_insertOrIgnore (h : t.find (key r) = none) (hkey : key r' = key r) :
    ((t.insertOrIgnore r).upsert r').rows = t.rows ++ [r'] := by
  have hfind : (t.insertOrIgnore r).find (key r') = some r := by
    rw [hkey, find_insertOrIgnore, h, if_pos rfl]
    rfl
  rw [rows_upsert_of_some hfind, insertOrIgnore_of_none h, List.map_append, List.map_singleton,
    if_pos hkey.symm]
  congr 1
  refine (List.map_congr_left fun x hx => if_neg fun hx' => ?_).trans (List.map_id _)
  exact find_eq_none.mp h x hx (hx'.trans hkey)

end Table

end Loomcycle.Lib
