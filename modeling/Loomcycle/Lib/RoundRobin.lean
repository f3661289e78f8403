import Mathlib.Data.List.Perm.Basic
import Mathlib.Data.List.Nodup

/-! A round-robin queue: a FIFO bucket for each key and a ring of the keys that have
one, in the order they are served. Serving a bucket moves it to the back of the ring;
withdrawing a waiter leaves its bucket where it is. `Wf` says that the ring is an index
of the non-empty buckets, and every operation keeps it; what an operation does to the
queue as a collection is then a permutation of `waiters`. -/

namespace Loomcycle.Lib.RoundRobin

structure Rotation (κ ω : Type*) where
  buckets : κ → Option (List ω)
  ring : List κ
  n : Nat

variable {κ ω : Type*} (key : ω → κ)

namespace Rotation

def empty : Rotation κ ω := ⟨fun _ => none, [], 0⟩

def bucket (q : Rotation κ ω) (k : κ) : List ω := (q.buckets k).getD []

/-- Every waiter, bucket by bucket in ring order. -/
def waiters (q : Rotation κ ω) : List ω := q.ring.flatMap q.bucket

section Operations

variable [DecidableEq κ] [DecidableEq ω]

/-- A bucket that just became non-empty joins the ring at the back. -/
def push (w : ω) (q : Rotation κ ω) : Rotation κ ω :=
  match q.buckets (key w) with
  | none =>
    { buckets := Function.update q.buckets (key w) (some [w])
      ring := q.ring ++ [key w]
      n := q.n + 1 }
  | some l => { q with
      buckets := Function.update q.buckets (key w) (some (l ++ [w]))
      n := q.n + 1 }

/-- What is left of a bucket: an empty one is dropped. -/
def rest (l : List ω) : Option (List ω) := if l.isEmpty then none else some l

/-- Bucket `k` was served and `l` is left in it. -/
def serve (k : κ) (l : List ω) (q : Rotation κ ω) : Rotation κ ω :=
  { buckets := Function.update q.buckets k (rest l)
    ring := q.ring.erase k ++ if l.isEmpty then [] else [k]
    n := q.n - 1 }

/-- The oldest waiter of the bucket whose turn it is. -/
def pop (q : Rotation κ ω) : Option (ω × Rotation κ ω) :=
  match q.ring with
  | [] => none
  | k :: _ =>
    match q.bucket k with
    | [] => none
    | w :: l => some (w, q.serve k l)

/-- The first bucket in ring order with a waiter that satisfies `p`, and the oldest
such waiter of it. -/
def pick (p : ω → Bool) (q : Rotation κ ω) : Option (κ × ω) :=
  q.ring.findSome? fun k => ((q.bucket k).find? p).map fun w => (k, w)

/-- Serve the waiter `pick` finds; buckets and waiters passed over keep their place. -/
def popWhere (p : ω → Bool) (q : Rotation κ ω) : Option (ω × Rotation κ ω) :=
  (q.pick p).map fun (k, w) => (w, q.serve k ((q.bucket k).erase w))

/-- Withdraw a waiter still queued; `none` when it is not. -/
def remove (w : ω) (q : Rotation κ ω) : Option (Rotation κ ω) :=
  match q.buckets (key w) with
  | none => none
  | some l =>
    if w ∈ l then
      some
        { buckets := Function.update q.buckets (key w) (rest (l.erase w))
          ring := if (l.erase w).isEmpty then q.ring.erase (key w) else q.ring
          n := q.n - 1 }
    else none

end Operations

/-- The ring lists exactly the keys with a bucket, once each; no bucket is empty; a
waiter is in the bucket of its key. -/
structure Wf (q : Rotation κ ω) : Prop where
  nodup : q.ring.Nodup
  mem_ring : ∀ k, k ∈ q.ring ↔ (q.buckets k).isSome
  nonempty : ∀ k, q.buckets k ≠ some []
  keyed : ∀ k, ∀ w ∈ q.bucket k, key w = k
  count : q.n = q.waiters.length

variable {key} {q : Rotation κ ω}

variable {k : κ} {l : List ω} {w : ω} {q' : Rotation κ ω} {p : ω → Bool}

theorem bucket_of_some (h : q.buckets k = some l) : q.bucket k = l := by
  simp [bucket, h]

theorem rest_getD (l : List ω) : (rest l).getD [] = l := by
  cases l <;> rfl

theorem rest_isSome (l : List ω) : (rest l).isSome ↔ ¬ l.isEmpty := by
  cases l <;> simp [rest]

theorem rest_ne_nil (l : List ω) : rest l ≠ some [] := by
  cases l <;> simp [rest]

theorem wf_empty : (empty : Rotation κ ω).Wf key :=
  ⟨List.nodup_nil, by simp [empty], by simp [empty], by simp [empty, bucket],
    by simp [empty, waiters]⟩

theorem Wf.mem_ring_of_some (h : q.Wf key) (hl : q.buckets k = some l) : k ∈ q.ring :=
  (h.mem_ring k).mpr (by simp [hl])

theorem Wf.buckets_of_mem (h : q.Wf key) (hk : k ∈ q.ring) :
    q.buckets k = some (q.bucket k) ∧ q.bucket k ≠ [] := by
  obtain ⟨l, hl⟩ := Option.isSome_iff_exists.mp ((h.mem_ring k).mp hk)
  rw [bucket_of_some hl]
  exact ⟨hl, fun he => h.nonempty k (he ▸ hl)⟩

/-- A queued waiter is in the bucket of its key. -/
theorem Wf.mem_waiters (h : q.Wf key) : w ∈ q.waiters ↔ w ∈ q.bucket (key w) := by
  constructor
  · intro hw
    obtain ⟨k, -, hk⟩ := List.mem_flatMap.mp hw
    rwa [h.keyed k w hk]
  · intro hw
    refine List.mem_flatMap.mpr ⟨key w, (h.mem_ring _).mpr ?_, hw⟩
    cases hb : q.buckets (key w) with
    | none => simp [bucket, hb] at hw
    | some l => rfl

theorem pick_eq_some (hp : q.pick p = some (k, w)) : k ∈ q.ring ∧ w ∈ q.bucket k ∧ p w = true := by
  obtain ⟨i, hi, hf⟩ := List.exists_of_findSome?_eq_some hp
  obtain ⟨x, hx, he⟩ := Option.map_eq_some_iff.mp hf
  cases he
  exact ⟨hi, List.mem_of_find?_eq_some hx, List.find?_some hx⟩

/-! ## Joining the queue -/

variable [DecidableEq κ]

/-- The waiters other than those of one bucket of the ring. -/
def others (k : κ) (q : Rotation κ ω) : List ω := (q.ring.erase k).flatMap q.bucket

theorem waiters_perm (k : κ) (h : k ∈ q.ring) :
    q.waiters.Perm (q.bucket k ++ q.others k) :=
  (List.perm_cons_erase h).flatMap_right q.bucket

theorem bucket_push_of_ne (w : ω) (hk : k ≠ key w) : (q.push key w).bucket k = q.bucket k := by
  unfold push
  cases hb : q.buckets (key w) <;> simp [bucket, Function.update_of_ne hk]

theorem bucket_push (w : ω) : (q.push key w).bucket (key w) = q.bucket (key w) ++ [w] := by
  unfold push
  cases hb : q.buckets (key w) <;> simp [bucket, hb]

theorem Wf.waiters_push (h : q.Wf key) (w : ω) :
    (q.push key w).waiters.Perm (q.waiters ++ [w]) := by
  have hoff : ∀ ring : List κ, key w ∉ ring →
      ring.flatMap (q.push key w).bucket = ring.flatMap q.bucket := fun ring hn =>
    List.flatMap_congr fun i hi => bucket_push_of_ne w fun he => hn (he ▸ hi)
  cases hb : q.buckets (key w) with
  | none =>
    have hn : key w ∉ q.ring := by simp [h.mem_ring, hb]
    have hring : (q.push key w).ring = q.ring ++ [key w] := by simp [push, hb]
    have hnil : q.bucket (key w) = [] := by simp [bucket, hb]
    simp [waiters, hring, hoff _ hn, bucket_push, hnil]
  | some l =>
    have hring : (q.push key w).ring = q.ring := by simp [push, hb]
    have hm : key w ∈ q.ring := h.mem_ring_of_some hb
    have hnew := waiters_perm (q := q.push key w) (key w) (hring ▸ hm)
    rw [others, hring, hoff _ h.nodup.not_mem_erase, bucket_push] at hnew
    refine hnew.trans ?_
    refine List.Perm.trans ?_ ((waiters_perm (key w) hm).symm.append_right [w])
    simp only [List.append_assoc]
    exact (List.perm_append_comm).append_left _

theorem Wf.push (h : q.Wf key) (w : ω) : (q.push key w).Wf key where
  nodup := by
    unfold Rotation.push
    cases hb : q.buckets (key w) with
    | none =>
      have hn : key w ∉ q.ring := by simp [h.mem_ring, hb]
      rw [← List.concat_eq_append]
      exact h.nodup.concat hn
    | some l => exact h.nodup
  mem_ring k := by
    by_cases hk : k = key w
    · subst hk
      unfold Rotation.push
      cases hb : q.buckets (key w) with
      | none => simp
      | some l => simp [h.mem_ring, hb]
    · unfold Rotation.push
      cases hb : q.buckets (key w) <;> simp [h.mem_ring, hk]
  nonempty k := by
    by_cases hk : k = key w
    · subst hk
      unfold Rotation.push
      cases hb : q.buckets (key w) <;> simp
    · unfold Rotation.push
      cases hb : q.buckets (key w) <;> simpa [Function.update_of_ne hk] using h.nonempty k
  keyed k x hx := by
    by_cases hk : k = key w
    · subst hk
      rw [bucket_push, List.mem_append, List.mem_singleton] at hx
      exact hx.elim (h.keyed _ x) fun he => he ▸ rfl
    · rw [bucket_push_of_ne w hk] at hx
      exact h.keyed k x hx
  count := by
    have hn : (q.push key w).n = q.n + 1 := by
      unfold Rotation.push
      cases q.buckets (key w) <;> rfl
    rw [hn, (h.waiters_push w).length_eq, h.count, List.length_append, List.length_singleton]

/-! ## Leaving it -/

/-- A waiter was taken out of bucket `k`, which keeps `l`; the bucket has moved to some
other place of the ring, or has left it. -/
structure Took (k : κ) (w : ω) (l : List ω) (q q' : Rotation κ ω) : Prop where
  mem : k ∈ q.ring
  bucket : (q.bucket k).Perm (w :: l)
  buckets : q'.buckets = Function.update q.buckets k (rest l)
  ring : q'.ring.Perm (if l.isEmpty then q.ring.erase k else q.ring)
  n : q'.n = q.n - 1

theorem Took.waiters (h : q.Wf key) (t : Took k w l q q') : q.waiters.Perm (w :: q'.waiters) := by
  have hoff : (q.ring.erase k).flatMap q'.bucket = q.others k := by
    refine List.flatMap_congr fun i hi => ?_
    have hne : i ≠ k := fun heq => h.nodup.not_mem_erase (heq ▸ hi)
    rw [Rotation.bucket, t.buckets, Function.update_of_ne hne]
    rfl
  have hk : q'.bucket k = l := by simp [Rotation.bucket, t.buckets, rest_getD]
  have hnew : q'.waiters.Perm (l ++ q.others k) := by
    refine (t.ring.flatMap_right q'.bucket).trans ?_
    cases hl : l with
    | nil => simp [hoff]
    | cons x xs =>
      refine ((List.perm_cons_erase t.mem).flatMap_right q'.bucket).trans ?_
      rw [List.flatMap_cons, hoff, hk, hl]
  calc q.waiters.Perm (q.bucket k ++ q.others k) := waiters_perm k t.mem
    _ |>.Perm (w :: l ++ q.others k) := t.bucket.append_right _
    _ |>.Perm (w :: q'.waiters) := hnew.symm.cons w

theorem Took.wf (h : q.Wf key) (t : Took k w l q q') : q'.Wf key where
  nodup := by
    refine t.ring.nodup_iff.mpr ?_
    split
    · exact h.nodup.erase k
    · exact h.nodup
  mem_ring i := by
    rw [t.ring.mem_iff, t.buckets]
    by_cases hi : i = k
    · subst hi
      rw [Function.update_self, rest_isSome]
      split
      · next hl => simp [hl, h.nodup.not_mem_erase]
      · next hl => simp [hl, t.mem]
    · rw [Function.update_of_ne hi, ← h.mem_ring]
      split
      · exact List.mem_erase_of_ne hi
      · rfl
  nonempty i := by
    rw [t.buckets]
    by_cases hi : i = k
    · subst hi
      rw [Function.update_self]
      exact rest_ne_nil l
    · rw [Function.update_of_ne hi]
      exact h.nonempty i
  keyed i x hx := by
    unfold Rotation.bucket at hx
    rw [t.buckets] at hx
    by_cases hi : i = k
    · subst hi
      rw [Function.update_self, rest_getD] at hx
      exact h.keyed i x (t.bucket.mem_iff.mpr (List.mem_cons_of_mem w hx))
    · rw [Function.update_of_ne hi] at hx
      exact h.keyed i x hx
  count := by
    have hlen := (t.waiters h).length_eq
    rw [List.length_cons, ← h.count] at hlen
    rw [t.n, hlen]
    rfl

theorem serve_took (hk : k ∈ q.ring) (hl : (q.bucket k).Perm (w :: l)) :
    Took k w l q (q.serve k l) where
  mem := hk
  bucket := hl
  buckets := rfl
  ring := by
    unfold serve
    cases l with
    | nil => simp
    | cons x xs => exact List.perm_append_comm.trans (List.perm_cons_erase hk).symm
  n := rfl

theorem pop_took (hp : q.pop = some (w, q')) : ∃ k l, Took k w l q q' := by
  unfold pop at hp
  split at hp
  · cases hp
  · next k ring hring =>
    split at hp
    · cases hp
    · next x l hb =>
      cases hp
      exact ⟨k, l, serve_took (by simp [hring]) (hb ▸ .refl _)⟩

theorem Wf.pop_eq_none (h : q.Wf key) : q.pop = none ↔ q.waiters = [] := by
  unfold pop waiters
  split
  · next hring => simp [hring]
  · next k ring hring =>
    obtain ⟨-, hne⟩ := h.buckets_of_mem (k := k) (by simp [hring])
    split
    · next hb => exact absurd hb hne
    · next w l hb => simp [hring, hb]

variable [DecidableEq ω]

theorem popWhere_took (hp : q.popWhere p = some (w, q')) : p w = true ∧ ∃ k l, Took k w l q q' := by
  obtain ⟨⟨k, x⟩, hpick, he⟩ := Option.map_eq_some_iff.mp hp
  cases he
  obtain ⟨hk, hw, hpw⟩ := pick_eq_some hpick
  exact ⟨hpw, k, _, serve_took hk (List.perm_cons_erase hw)⟩

theorem popWhere_eq_none : q.popWhere p = none ↔ ∀ w ∈ q.waiters, p w = false := by
  simp only [popWhere, pick, waiters, Option.map_eq_none_iff, List.findSome?_eq_none_iff,
    List.find?_eq_none, List.mem_flatMap, Bool.not_eq_true]
  constructor
  · rintro hf w ⟨k, hk, hw⟩
    exact hf k hk w hw
  · intro hf k hk w hw
    exact hf w ⟨k, hk, hw⟩

theorem Wf.remove_took (h : q.Wf key) (hr : q.remove key w = some q') :
    ∃ l, Took (key w) w l q q' := by
  unfold remove at hr
  split at hr
  · cases hr
  next l hl =>
  split at hr
  · next hw =>
    cases hr
    refine ⟨l.erase w, h.mem_ring_of_some hl, ?_, rfl, .refl _, rfl⟩
    rw [bucket_of_some hl]
    exact List.perm_cons_erase hw
  · cases hr

theorem Wf.remove_eq_none (h : q.Wf key) : q.remove key w = none ↔ w ∉ q.waiters := by
  rw [h.mem_waiters]
  unfold remove
  cases hb : q.buckets (key w) with
  | none | some l => simp [bucket, hb]

end Rotation

end Loomcycle.Lib.RoundRobin
