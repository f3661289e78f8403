import Loomcycle.Lib.RoundRobin

/-! Who is served when in a round-robin queue. `ahead` counts, without serving anyone, the waiters
that repeated `pop`s return before a given one; `before` is the part of the ring whose turn comes
before a bucket's, which only gets shorter until the bucket is served. -/

namespace Loomcycle.Lib

/-! ## Taking one after another -/

section Taken

variable {σ ω : Type*} {next : σ → Option (ω × σ)} {s s' : σ} {w x : ω} {k k' : Nat}

/-- What `k` calls return, and the state they leave. -/
def taken (next : σ → Option (ω × σ)) : Nat → σ → Option (List ω × σ)
  | 0, s => some ([], s)
  | k + 1, s => (next s).bind fun (x, s') => (taken next k s').map fun (l, t) => (x :: l, t)

/-- `k` calls return others, and the next one returns `w`. -/
def ServedAfter (next : σ → Option (ω × σ)) (s : σ) (w : ω) (k : Nat) : Prop :=
  ∃ l t t', taken next k s = some (l, t) ∧ w ∉ l ∧ next t = some (w, t')

theorem ServedAfter.succ (h : ServedAfter next s' w k) (hs : next s = some (x, s')) (hne : x ≠ w) :
    ServedAfter next s w (k + 1) := by
  obtain ⟨l, t, t', htaken, hl, ht⟩ := h
  refine ⟨x :: l, t, t', by simp [taken, hs, htaken], ?_, ht⟩
  simp [Ne.symm hne, hl]

theorem ServedAfter.pred (h : ServedAfter next s w (k + 1)) :
    ∃ x s', next s = some (x, s') ∧ x ≠ w ∧ ServedAfter next s' w k := by
  obtain ⟨l, t, t', htaken, hl, ht⟩ := h
  obtain ⟨⟨x, s'⟩, hs, hmap⟩ := Option.bind_eq_some_iff.mp htaken
  obtain ⟨⟨l', u⟩, htaken', he⟩ := Option.map_eq_some_iff.mp hmap
  cases he
  rw [List.mem_cons, not_or] at hl
  exact ⟨x, s', hs, Ne.symm hl.1, l', _, t', htaken', hl.2, ht⟩

theorem ServedAfter.unique (h : ServedAfter next s w k) (h' : ServedAfter next s w k') : k = k' := by
  have hzero : ∀ {s k}, ServedAfter next s w 0 → ¬ ServedAfter next s w (k + 1) := by
    rintro s k ⟨l, t, t', htaken, -, ht⟩ h
    cases htaken
    obtain ⟨x, s', hs, hne, -⟩ := h.pred
    rw [ht] at hs
    cases hs
    exact hne rfl
  induction k generalizing s k' with
  | zero =>
    cases k' with
    | zero => rfl
    | succ k' => exact absurd h' (hzero h)
  | succ k ih =>
    cases k' with
    | zero => exact absurd h (hzero h')
    | succ k' =>
      obtain ⟨x, s', hs, -, h⟩ := h.pred
      obtain ⟨y, t, ht, -, h'⟩ := h'.pred
      rw [hs] at ht
      cases ht
      rw [ih h h']

/-- A count that drops by one with each call that returns another, and is zero when `w` is
returned, counts the calls before `w`. -/
theorem servedAfter_of_step (I : σ → Prop) (pos : σ → Nat)
    (hstep : ∀ s, I s → (∃ s', next s = some (w, s') ∧ pos s = 0) ∨
      ∃ x s', next s = some (x, s') ∧ x ≠ w ∧ I s' ∧ pos s = pos s' + 1)
    (hs : I s) : ServedAfter next s w (pos s) := by
  induction hpos : pos s generalizing s with
  | zero =>
    rcases hstep s hs with ⟨s', hnext, -⟩ | ⟨x, s', -, -, -, hdrop⟩
    · exact ⟨[], s, s', rfl, List.not_mem_nil, hnext⟩
    · omega
  | succ n ih =>
    rcases hstep s hs with ⟨s', -, hzero⟩ | ⟨x, s', hnext, hne, hs', hdrop⟩
    · omega
    · exact (ih hs' (by omega)).succ hnext hne

end Taken

namespace RoundRobin.Rotation

variable {κ ω : Type*} {key : ω → κ} {q q' : Rotation κ ω}
  {k : κ} {w x : ω} {i : Nat} {len len' : κ → Nat} {seen : Bool} {ring ring' : List κ}

/-! ## Places in the queue -/

theorem Wf.key_mem_ring (h : q.Wf key) (hw : w ∈ q.waiters) : key w ∈ q.ring := by
  obtain ⟨k, hk, hwk⟩ := List.mem_flatMap.mp hw
  rwa [h.keyed k w hwk]

variable [DecidableEq κ]

/-- What the buckets of the ring other than `k` serve before the waiter at place `i` of `k`: the
ones before `k` one more than `i`, the ones after it as many. -/
def turns (len : κ → Nat) (k : κ) (i : Nat) : Bool → List κ → Nat
  | _, [] => 0
  | seen, j :: ring =>
    if j = k then turns len k i true ring
    else (if seen then min (len j) i else min (len j) (i + 1)) + turns len k i seen ring

theorem turns_congr (h : ∀ j ∈ ring, j ≠ k → len j = len' j) :
    turns len k i seen ring = turns len' k i seen ring := by
  induction ring generalizing seen with
  | nil => rfl
  | cons j ring ih =>
    have htail : ∀ j ∈ ring, j ≠ k → len j = len' j := fun j hj => h j (List.mem_cons_of_mem _ hj)
    by_cases hjk : j = k
    · simp only [turns, if_pos hjk, ih htail]
    · simp only [turns, if_neg hjk, ih htail, h j List.mem_cons_self hjk]

theorem turns_append : turns len k i seen (ring ++ ring') =
    turns len k i seen ring + turns len k i (seen || decide (k ∈ ring)) ring' := by
  induction ring generalizing seen with
  | nil => simp [turns]
  | cons j ring ih =>
    by_cases hjk : j = k
    · subst hjk
      simp [turns, ih]
    · have hkj : k ≠ j := Ne.symm hjk
      simp only [List.cons_append, turns, if_neg hjk, ih, List.mem_cons, hkj, false_or,
        Nat.add_assoc]

/-- Nobody is served before the first waiter of the bucket whose turn it is. -/
theorem turns_first : turns len k 0 true ring = 0 := by
  induction ring with
  | nil => rfl
  | cons j ring ih => simp [turns, ih]

/-- When bucket `k` is served, the buckets that were after it are now before it. -/
theorem turns_shift (hk : k ∉ ring) :
    turns len k (i + 1) true ring = turns len k i false ring := by
  induction ring with
  | nil => rfl
  | cons j ring ih =>
    rw [List.mem_cons, not_or] at hk
    simp [turns, Ne.symm hk.1, ih hk.2]

/-- What `pop` does in a well-formed queue: the first bucket of the ring is served. -/
theorem Wf.pop_eq_some (h : q.Wf key) (hp : q.pop = some (x, q')) :
    ∃ ring l, q.ring = key x :: ring ∧ key x ∉ ring ∧ q.bucket (key x) = x :: l ∧
      q' = q.serve (key x) l ∧
      (q.serve (key x) l).ring = ring ++ if l.isEmpty then [] else [key x] := by
  unfold pop at hp
  split at hp
  · cases hp
  next k ring hring =>
  split at hp
  · cases hp
  next y l hb =>
  cases hp
  have hkey : key x = k := h.keyed k x (by rw [hb]; exact List.mem_cons_self)
  subst hkey
  have hnodup := h.nodup
  rw [hring, List.nodup_cons] at hnodup
  refine ⟨ring, l, hring, hnodup.1, hb, rfl, ?_⟩
  rw [serve, hring, List.erase_cons_head]

theorem bucket_serve (l : List ω) (j : κ) :
    (q.serve k l).bucket j = if j = k then l else q.bucket j := by
  unfold serve bucket
  dsimp only
  by_cases hjk : j = k
  · subst hjk
    rw [Function.update_self, rest_getD, if_pos rfl]
  · rw [Function.update_of_ne hjk, if_neg hjk]

section Ahead

variable [DecidableEq ω]

/-- The place of `w` in its bucket. -/
def place (w : ω) (l : List ω) : Nat := if w ∈ l then l.idxOf w else 0

/-- How many waiters are served before `w`. -/
def ahead (key : ω → κ) (w : ω) (q : Rotation κ ω) : Nat :=
  match q.buckets (key w) with
  | none => 0
  | some l => place w l + turns (fun k => (q.bucket k).length) (key w) (place w l) false q.ring

theorem Wf.ahead_eq (h : q.Wf key) (hw : w ∈ q.waiters) :
    q.ahead key w = (q.bucket (key w)).idxOf w +
      turns (fun k => (q.bucket k).length) (key w) ((q.bucket (key w)).idxOf w) false q.ring := by
  have hmem := h.mem_waiters.mp hw
  obtain ⟨hb, -⟩ := h.buckets_of_mem (h.key_mem_ring hw)
  simp only [ahead, hb, place, if_pos hmem]

/-- With every waiter eligible, it is the head of the bucket whose turn it is. -/
theorem Wf.popWhere_true (h : q.Wf key) : q.popWhere (fun _ => true) = q.pop := by
  unfold popWhere pick pop
  cases hring : q.ring with
  | nil => rfl
  | cons k ring =>
    obtain ⟨-, hne⟩ := h.buckets_of_mem (k := k) (by simp [hring])
    cases hb : q.bucket k with
    | nil => exact absurd hb hne
    | cons w l => simp [hb]

/-- A `pop` that returns another brings each waiter one place forward. -/
theorem Wf.ahead_pop (h : q.Wf key) (hw : w ∈ q.waiters) (hp : q.pop = some (x, q')) :
    x = w ∧ q.ahead key w = 0 ∨
      x ≠ w ∧ w ∈ q'.waiters ∧ q.ahead key w = q'.ahead key w + 1 := by
  obtain ⟨k, l', t⟩ := pop_took hp
  have hwf := t.wf h
  have hleft : x ≠ w → w ∈ q'.waiters := by
    intro hne
    rcases List.mem_cons.mp ((t.waiters h).mem_iff.mp hw) with heq | hmem
    · exact absurd heq.symm hne
    · exact hmem
  obtain ⟨ring, l, hring, hnot, hb, rfl, hring'⟩ := h.pop_eq_some hp
  have hmem := h.mem_waiters.mp hw
  -- the buckets behind the one that is served stay as they are
  have hsame (k : κ) (n : Nat) : turns (fun j => ((q.serve (key x) l).bucket j).length) k n false
      ring = turns (fun j => (q.bucket j).length) k n false ring := by
    refine turns_congr fun j hj _ => ?_
    rw [bucket_serve, if_neg (ne_of_mem_of_not_mem hj hnot)]
  rw [h.ahead_eq hw, hring]
  by_cases hkey : key x = key w
  · -- the bucket of `w` is served
    rw [← hkey, hb]
    by_cases hxw : x = w
    · subst hxw
      left
      simp [turns, turns_first]
    right
    have hw' := hleft hxw
    refine ⟨hxw, hw', ?_⟩
    have hl : l.isEmpty = false := by
      rw [← hkey, hb] at hmem
      cases l with
      | nil => simp [Ne.symm hxw] at hmem
      | cons => rfl
    have hsame := hsame (key x) (l.idxOf w)
    rw [hwf.ahead_eq hw', ← hkey, hring', bucket_serve, if_pos rfl, hl,
      List.idxOf_cons_ne l hxw]
    simp only [turns, if_true, Bool.false_eq_true, if_false, turns_append, Nat.add_zero]
    rw [turns_shift hnot]
    omega
  · right
    have hxw : x ≠ w := fun he => hkey (he ▸ rfl)
    have hw' := hleft hxw
    refine ⟨hxw, hw', ?_⟩
    have hkr := h.key_mem_ring hw
    rw [hring, List.mem_cons, or_iff_right (Ne.symm hkey)] at hkr
    rw [hwf.ahead_eq hw', hring', bucket_serve, if_neg (Ne.symm hkey), turns_append]
    rw [hsame]
    cases l with
    | nil => simp [turns, hkey, hb]; omega
    | cons y l => simp [turns, hkey, hb, bucket_serve, hkr]; omega

end Ahead

/-! ## Turns in the ring -/

/-- The buckets whose turn comes before that of `k`. -/
def before (k : κ) (q : Rotation κ ω) : List κ := q.ring.takeWhile (· ≠ k)

theorem before_of_append (hk : k ∈ ring) :
    (ring ++ ring').takeWhile (· ≠ k) = ring.takeWhile (· ≠ k) := by
  induction ring with
  | nil => cases hk
  | cons j ring ih =>
    by_cases hjk : j = k
    · simp [hjk]
    · have hmem : k ∈ ring := (List.mem_cons.mp hk).resolve_left (Ne.symm hjk)
      simpa [hjk] using ih hmem

theorem takeWhile_sublist (h : ring.Sublist ring') (hnodup : ring'.Nodup) (hk : k ∈ ring) :
    (ring.takeWhile (· ≠ k)).Sublist (ring'.takeWhile (· ≠ k)) := by
  induction h with
  | slnil => cases hk
  | @cons r r' j hsub ih =>
    have hkr' : k ∈ r' := hsub.subset hk
    have hjk : j ≠ k := by
      rintro rfl
      exact (List.nodup_cons.mp hnodup).1 hkr'
    simpa [hjk] using (ih (List.nodup_cons.mp hnodup).2 hk).cons j
  | @cons_cons r r' j hsub ih =>
    by_cases hjk : j = k
    · simp [hjk]
    · have hmem : k ∈ r := (List.mem_cons.mp hk).resolve_left (Ne.symm hjk)
      simpa [hjk] using (ih (List.nodup_cons.mp hnodup).2 hmem).cons_cons j

/-- A newcomer's turn comes after those that wait. -/
theorem before_push (hk : k ∈ q.ring) : (q.push key w).before k = q.before k := by
  unfold push before
  cases q.buckets (key w) with
  | none => exact before_of_append hk
  | some l => rfl

/-- Serving another bucket takes it from before `k`. -/
theorem Wf.before_pop (h : q.Wf key) (hk : k ∈ q.ring) (hp : q.pop = some (x, q'))
    (hne : key x ≠ k) : q.before k = key x :: q'.before k := by
  obtain ⟨ring, l, hring, -, -, rfl, hring'⟩ := h.pop_eq_some hp
  rw [hring] at hk
  have hmem : k ∈ ring := (List.mem_cons.mp hk).resolve_left (Ne.symm hne)
  unfold before
  rw [hring', before_of_append hmem, hring]
  simp [hne]

theorem Wf.nodup_before (h : q.Wf key) : (q.before k).Nodup :=
  h.nodup.sublist (List.takeWhile_sublist _)

/-! ## One bucket -/

theorem Wf.bucket_pop (h : q.Wf key) (hp : q.pop = some (x, q')) (k : κ) :
    q.bucket k = (if key x = k then [x] else []) ++ q'.bucket k := by
  obtain ⟨ring, l, -, -, hb, rfl, -⟩ := h.pop_eq_some hp
  rw [bucket_serve]
  by_cases hkey : key x = k
  · subst hkey
    simp [hb]
  · simp [hkey, Ne.symm hkey]

/-! ## Withdrawing -/

variable [DecidableEq ω]

theorem Wf.before_remove (h : q.Wf key) (hr : q.remove key w = some q') (hk : k ∈ q'.ring) :
    (q'.before k).Sublist (q.before k) := by
  have hsub : q'.ring.Sublist q.ring := by
    unfold remove at hr
    split at hr
    · cases hr
    split at hr
    · cases hr
      split
      · exact List.erase_sublist
      · exact List.Sublist.refl _
    · cases hr
  exact takeWhile_sublist hsub h.nodup hk

theorem bucket_remove (hr : q.remove key w = some q') (k : κ) :
    q'.bucket k = if k = key w then (q.bucket k).erase w else q.bucket k := by
  unfold remove at hr
  split at hr
  · cases hr
  next l hl =>
  split at hr
  · cases hr
    unfold bucket
    dsimp only
    by_cases hk : k = key w
    · subst hk
      rw [Function.update_self, rest_getD, if_pos rfl, hl]
      rfl
    · rw [Function.update_of_ne hk, if_neg hk]
  · cases hr

end RoundRobin.Rotation

end Loomcycle.Lib
