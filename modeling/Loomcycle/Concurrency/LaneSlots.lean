import Loomcycle.Concurrency.LaneLeases

/-! # Slot numbers of a lane

Every call in flight and every reservation has a slot number of its own, and the lane's
counters and table say which. A lane that shrinks keeps the calls in flight; until they
drain below the new cap it grants nothing and reserves nothing. -/

namespace Loomcycle.Concurrency
open Lib

namespace Lane

variable {l l' : Lane} {w : LaneWaiter} {c : CallInfo} {ls : Lease} {call : LaneCall}

/-- The reservations. -/
def idles (l : Lane) : List Lease := l.leases.filter fun ls => !ls.busy

/-- The slot numbers of the calls in flight and of the reservations. -/
def slots (l : Lane) : List Nat := l.calls.map LaneCall.slot ++ l.idles.map Lease.slot

/-- The counters and the table of a lane are those of its calls and reservations. -/
structure Slotted (l : Lane) : Prop where
  active : l.active = l.calls.length
  reserved : l.reserved = l.idles.length
  marks : Slots.Marks l.inUse l.slots

theorem Slotted.inUse (h : l.Slotted) : (l.slots.length : Int) = l.active + l.reserved := by
  rw [slots, List.length_append, List.length_map, List.length_map, h.active, h.reserved]
  omega

/-- A counter that loses one. -/
theorem sub_one_of_perm {α : Type*} {x : α} {xs ys : List α} {n : Int} (hn : n = xs.length)
    (h : xs.Perm (x :: ys)) : n - 1 = ys.length := by
  have hlen := h.length_eq
  rw [List.length_cons] at hlen
  omega

/-- The reservations, those of `leases.erase ls` apart. -/
theorem idles_erase (hm : ls ∈ l.leases) :
    l.idles.Perm ((ls :: l.leases.erase ls).filter fun ls => !ls.busy) :=
  (List.perm_cons_erase hm).filter _

theorem idles_delete (hk : l.Keyed) (hm : ls ∈ l.leases) :
    (l.deleteLease ls.owner).idles.Perm ((l.leases.erase ls).filter fun ls => !ls.busy) :=
  (Lib.Keyed.filter_ne_perm hk.owners hm).filter _

/-- A lease in flight ends, which is no reservation. -/
theorem idles_delete_busy (hk : l.Keyed) (hm : ls ∈ l.leases) (hb : ls.busy = true) :
    l.idles.Perm (l.deleteLease ls.owner).idles := by
  have hold := idles_erase hm
  rw [List.filter_cons_of_neg (by simp [hb])] at hold
  exact hold.trans (idles_delete hk hm).symm

/-- A lease changes. -/
theorem idles_set (hl : l.Leased) (hm : ls ∈ l.leases) (f : Lease → Lease) :
    (l.setLease ls.id f).idles.Perm ((f ls :: l.leases.erase ls).filter fun ls => !ls.busy) :=
  (Lib.Keyed.map_set_perm hl.pairing.ids hm f).filter _

theorem idles_grant (l : Lane) (id : Nat) (c : CallInfo) : (l.grant id c).idles = l.idles := by
  unfold idles Lane.grant
  split
  · simp
  · rfl

theorem Slotted.drop (h : l.Slotted) (hk : l.Keyed) (hm : ls ∈ l.leases) (hi : ls.busy = false) :
    (l.dropIdle ls).Slotted := by
  have hold := idles_erase hm
  rw [List.filter_cons_of_pos (by simp [hi])] at hold
  have hp := hold.trans ((idles_delete hk hm).symm.cons ls)
  refine ⟨h.active, sub_one_of_perm h.reserved hp, (h.marks.perm ?_).free⟩
  exact ((hp.map _).append_left _).trans List.perm_middle

theorem Slotted.grant (h : l.Slotted) (id : Nat) (c : CallInfo) : (l.grant id c).Slotted := by
  refine ⟨?_, ?_, ?_⟩
  · have := h.active
    simp only [Lane.grant, List.length_append, List.length_singleton]
    omega
  · rw [idles_grant]
    exact h.reserved
  · refine Slots.Marks.perm h.marks.take ?_
    change (_ :: l.slots).Perm ((l.calls ++ [_]).map LaneCall.slot ++ (l.grant id c).idles.map _)
    rw [idles_grant, List.map_append, List.append_assoc]
    exact List.perm_middle.symm

variable {leases : List Lease} {order : List String}

section

variable (h : l.Slotted)
include h

theorem Slotted.endFree (hl : l.Leased) (hm : call ∈ l.calls)
    (hi : l.idles.Perm (leases.filter fun ls => !ls.busy)) :
    Slotted { l.endCall call with leases, inUse := Slots.free l.inUse call.slot } := by
  have hp := calls_perm_endCall hl hm
  refine ⟨sub_one_of_perm h.active hp, ?_, (h.marks.perm ((hp.map _).append (hi.map _))).free⟩
  change l.reserved = (leases.filter fun ls => !ls.busy).length
  rw [h.reserved, hi.length_eq]

/-- A call comes back to its reservation and keeps the number. -/
theorem Slotted.resume (hl : l.Leased) (hm : ls ∈ l.leases)
    (hi : ls.busy = false) : (l.resume ls c).Slotted := by
  have hold := idles_erase hm
  have hnew := idles_set hl hm fun ls => { ls with busy := true, used := ls.used + 1 }
  rw [List.filter_cons_of_pos (by simp [hi])] at hold
  have hp := hold.trans (hnew.symm.cons ls)
  refine ⟨?_, sub_one_of_perm h.reserved hp, h.marks.perm ?_⟩
  · have := h.active
    simp only [Lane.resume, List.length_append, List.length_singleton]
    omega
  · change l.slots.Perm ((l.calls ++ [_]).map LaneCall.slot ++ (l.setLease ls.id _).idles.map _)
    rw [List.map_append, List.append_assoc]
    exact (hp.map Lease.slot).append_left _

/-- A call ends and its slot stays its owner's. -/
theorem Slotted.reserve (hl : l.Leased) (hm : call ∈ l.calls)
    (hheld : l.leaseHeld call = some ls) (now : Int) :
    ((l.endCall call).reserve ls.id now).Slotted := by
  obtain ⟨hls, -, he⟩ := leaseHeld_eq_some hheld
  obtain ⟨hb, -, hslot⟩ := hl.pairing.holder call hm ls hls he
  have hcalls := calls_perm_endCall hl hm
  have hold := idles_erase hls
  have hnew := idles_set hl hls fun ls =>
    { ls with busy := false, deadline := now + (l.endCall call).cfg.affinityHold }
  rw [List.filter_cons_of_neg (by simp [hb])] at hold
  have hp := hnew.trans (hold.symm.cons _)
  refine ⟨sub_one_of_perm h.active hcalls, ?_, h.marks.perm ?_⟩
  · have hlen := sub_one_of_perm rfl hp
    have := h.reserved
    change l.reserved + 1 = (l.setLease ls.id _).idles.length
    omega
  · have hslots : l.slots.Perm
        (ls.slot :: ((l.endCall call).calls.map LaneCall.slot ++ l.idles.map Lease.slot)) := by
      rw [hslot]
      exact (hcalls.map _).append_right _
    refine hslots.trans (List.Perm.trans ?_ ((hp.symm.map Lease.slot).append_left _))
    exact List.perm_middle.symm

theorem Slotted.move (hl : l.Leased) (hmove : Move l l') : l'.Slotted := by
  cases hmove with
  | drop hm hi => exact h.drop hl.keyed hm hi
  | grant =>
    have hs : ({ l with nextId := l.nextId + 1 } : Lane).Slotted := ⟨h.active, h.reserved, h.marks⟩
    exact hs.grant _ _
  | @serve w l₁ _ _ frame =>
    have hs : (l₁.decOwnerQueued w.info.owner).Slotted := by
      rw [frame]
      exact ⟨h.active, h.reserved, h.marks⟩
    exact hs.grant _ _
  | resume hm hi => exact h.resume hl hm hi
  | free hm => exact h.endFree hl hm (.refl _)
  | @forgo call ls hm hheld =>
    obtain ⟨hls, -, he⟩ := leaseHeld_eq_some hheld
    obtain ⟨hb, -⟩ := hl.pairing.holder call hm ls hls he
    exact h.endFree hl hm (idles_delete_busy hl.keyed hls hb)
  | reserve hm hheld => exact h.reserve hl hm hheld _
  | @forget ls hm hb =>
    have hp := idles_delete_busy hl.keyed hm hb
    refine ⟨h.active, ?_, h.marks.perm ((hp.map _).append_left _)⟩
    change l.reserved = _
    rw [h.reserved, hp.length_eq]
  | _ => exact ⟨h.active, h.reserved, h.marks⟩

theorem Slotted.moves (hl : l.Leased) (hm : Moves l l') : l'.Leased ∧ l'.Slotted :=
  Transition.moves_invariant hm (I := fun l => l.Leased ∧ l.Slotted)
    (fun h hm => ⟨h.1.move hm, h.2.move h.1 hm⟩) ⟨hl, h⟩

theorem Slotted.retune {l₀ : Lane} {a : Label} (hr : Retunes l a l₀) :
    l₀.Slotted := by
  cases hr with
  | same => exact h
  | reconfigure | retire => exact ⟨h.active, h.reserved, h.marks⟩

theorem Slotted.reserved_pos (hm : ls ∈ l.leases) (hi : ls.busy = false) :
    0 < l.reserved := by
  have hmem : ls ∈ l.idles := List.mem_filter.mpr ⟨hm, by simp [hi]⟩
  have hpos := List.length_pos_of_mem hmem
  have := h.reserved
  omega

end

/-! ## The cap -/

/-- What `MaxConcurrent` bounds. A lane over its cap is draining: it has no reservation, and
the calls in flight are those a `Reconfigure` caught. -/
structure Fits (l : Lane) : Prop where
  range : ∀ ls ∈ l.leases, ls.busy = false → (ls.slot : Int) < l.cfg.maxConcurrent
  under : ∀ c ∈ l.calls, (c.slot : Int) < c.under
  draining : l.cfg.maxConcurrent < l.active + l.reserved →
    l.reserved = 0 ∧ ∀ c ∈ l.calls, c.id ∈ l.atShrink

theorem Fits.grant (h : l.Fits) (hs : l.Slotted)
    (hfree : l.active + l.reserved < l.cfg.maxConcurrent) (id : Nat) (c : CallInfo) :
    (l.grant id c).Fits := by
  refine ⟨fun ls hm hi => h.range ls (idle_of_grant hm hi) hi, fun x hx => ?_, fun hover => ?_⟩
  · rcases List.mem_append.mp hx with hx | hx
    · exact h.under x hx
    · have hle := hs.marks.lowest_le
      have := hs.inUse
      rw [List.mem_singleton.mp hx]
      change (Slots.lowest l.inUse : Int) < l.cfg.maxConcurrent
      omega
  · change l.cfg.maxConcurrent < l.active + 1 + l.reserved at hover
    omega

theorem Fits.endFree (h : l.Fits) {inUse : List Bool} (hsub : ∀ ls ∈ leases, ls ∈ l.leases) :
    Fits { l.endCall call with leases, inUse } := by
  refine ⟨fun ls hm hi => h.range ls (hsub ls hm) hi,
    fun x hx => h.under x (List.mem_filter.mp hx).1, fun hover => ?_⟩
  change l.cfg.maxConcurrent < l.active - 1 + l.reserved at hover
  obtain ⟨hnone, hcalls⟩ := h.draining (by omega)
  exact ⟨hnone, fun x hx => hcalls x (List.mem_filter.mp hx).1⟩

theorem Fits.move (h : l.Fits) (hl : l.Leased) (hs : l.Slotted) (hmove : Move l l') : l'.Fits := by
  cases hmove with
  | @drop ls hm hi =>
    refine ⟨fun x hx => h.range x (List.mem_filter.mp hx).1, h.under, fun hover => ?_⟩
    change l.cfg.maxConcurrent < l.active + (l.reserved - 1) at hover
    have hpos := hs.reserved_pos hm hi
    have := (h.draining (by omega)).1
    omega
  | grant hfree =>
    have hf : ({ l with nextId := l.nextId + 1 } : Lane).Fits := ⟨h.range, h.under, h.draining⟩
    exact hf.grant ⟨hs.active, hs.reserved, hs.marks⟩ hfree _ _
  | @serve w l₁ hfree _ frame =>
    have hf : (l₁.decOwnerQueued w.info.owner).Fits := by
      rw [frame]
      exact ⟨h.range, h.under, h.draining⟩
    refine hf.grant ?_ ?_ _ _
    · rw [frame]
      exact ⟨hs.active, hs.reserved, hs.marks⟩
    · rw [frame]
      exact hfree
  | @resume ls c hm hi =>
    refine ⟨fun x hx hxi => ?_, fun x hx => ?_, fun hover => ?_⟩
    · rcases List.mem_cons.mp ((Lib.Keyed.map_set_perm hl.pairing.ids hm _).mem_iff.mp hx)
        with rfl | hx
      · cases hxi
      · exact h.range x (List.mem_of_mem_erase hx) hxi
    · rcases List.mem_append.mp hx with hx | hx
      · exact h.under x hx
      · rw [List.mem_singleton.mp hx]
        exact h.range ls hm hi
    · change l.cfg.maxConcurrent < l.active + 1 + (l.reserved - 1) at hover
      have hpos := hs.reserved_pos hm hi
      have := (h.draining (by omega)).1
      omega
  | free => exact h.endFree fun _ hm => hm
  | forgo => exact h.endFree fun _ hm => (List.mem_filter.mp hm).1
  | @reserve call ls now hm hheld hkeep =>
    obtain ⟨hls, -, he⟩ := leaseHeld_eq_some hheld
    obtain ⟨-, -, hslot⟩ := hl.pairing.holder call hm ls hls he
    obtain ⟨hroom, hcall⟩ : ¬ l.cfg.maxConcurrent ≤ l.active - 1 + l.reserved ∧
        ¬ l.cfg.maxConcurrent ≤ call.slot := by
      simp only [givesUp, Bool.or_eq_false_iff, decide_eq_false_iff_not] at hkeep
      exact ⟨hkeep.1.1.2, hkeep.1.2⟩
    refine ⟨fun x hx hxi => ?_, fun x hx => h.under x (List.mem_filter.mp hx).1, fun hover => ?_⟩
    · rcases List.mem_cons.mp ((Lib.Keyed.map_set_perm hl.pairing.ids hls _).mem_iff.mp hx)
        with rfl | hx
      · change (ls.slot : Int) < l.cfg.maxConcurrent
        omega
      · exact h.range x (List.mem_of_mem_erase hx) hxi
    · change l.cfg.maxConcurrent < l.active - 1 + (l.reserved + 1) at hover
      omega
  | forget => exact ⟨fun x hx => h.range x (List.mem_filter.mp hx).1, h.under, h.draining⟩
  | _ => exact ⟨h.range, h.under, h.draining⟩

/-! ## Reconfiguration -/

section Loops

variable {drop : Lane → Lease → Bool} {order : List String}

theorem mem_of_mem_forLeases (hm : ls ∈ (forLeases drop order l).leases) : ls ∈ l.leases := by
  refine forLeases_invariant (I := fun r => ∀ x ∈ r.leases, x ∈ l.leases) ?_ order
    (fun _ hx => hx) ls hm
  exact fun _ _ hsub _ _ x hx => hsub x (List.mem_filter.mp hx).1

/-- A loop whose condition holds of fewer leases the more it drops leaves none it holds of. -/
theorem forLeases_done (hanti : ∀ l x y, drop (l.dropIdle x) y = true → drop l y = true)
    (hk : l.Keyed) (hm : ls ∈ (forLeases drop order l).leases) (ho : ls.owner ∈ order) :
    drop (forLeases drop order l) ls = false := by
  induction order generalizing l with
  | nil => cases ho
  | cons owner order ih =>
    by_cases ho' : ls.owner ∈ order
    · rw [forLeases, List.foldl_cons] at hm ⊢
      cases hx : l.leaseOf owner with
      | none => exact ih hk (by rwa [hx] at hm) ho'
      | some x =>
        rw [hx] at hm
        dsimp only [Option.elim] at hm ⊢
        split at hm
        · next hd =>
          rw [if_pos hd]
          have hkd := hk.delete x.owner
          exact ih ⟨hkd.owners, hkd.named⟩ hm ho'
        · next hd =>
          rw [if_neg hd]
          exact ih hk hm ho'
    · obtain rfl : ls.owner = owner := (List.mem_cons.mp ho).resolve_right ho'
      -- the loop met it at once and left it
      have hls := hk.leaseOf (mem_of_mem_forLeases hm)
      rw [forLeases, List.foldl_cons, hls] at hm ⊢
      dsimp only [Option.elim] at hm ⊢
      split at hm
      · have hmem : ls ∈ (l.dropIdle ls).leases := mem_of_mem_forLeases hm
        exact absurd rfl (mem_deleteLease.mp hmem).2
      · next hd =>
        rw [if_neg hd]
        refine Bool.not_eq_true _ |>.mp fun hlater => hd ?_
        exact forLeases_invariant (I := fun r => drop r ls = true → drop l ls = true)
          (fun r x hr _ _ h => hr (hanti r x ls h)) order id hlater

end Loops

theorem excess_anti (l : Lane) (x y : Lease) (h : (l.dropIdle x).excess y = true) :
    l.excess y = true := by
  simp only [excess, Bool.and_eq_true, Bool.not_eq_true', decide_eq_false_iff_not] at h ⊢
  obtain ⟨hover, hidle⟩ := h
  change ¬ l.active + (l.reserved - 1) ≤ l.cfg.maxConcurrent at hover
  exact ⟨by omega, hidle⟩

/-- The first loop leaves no reservation outside the new range. -/
theorem range_homeless (hk : l.Keyed) (hperm : order.Perm l.owners)
    (hm : ls ∈ (forLeases homeless order l).leases) (hi : ls.busy = false) :
    (ls.slot : Int) < l.cfg.maxConcurrent := by
  have howner : ls.owner ∈ order :=
    hperm.mem_iff.mpr (List.mem_map_of_mem (mem_of_mem_forLeases hm))
  have hdone : homeless _ ls = false := forLeases_done (fun _ _ _ h => h) hk hm howner
  obtain ⟨_, _, _, he⟩ := forLeases_frame homeless order l
  rw [he] at hdone
  simp only [homeless, hi, Bool.not_false, Bool.true_and, Bool.or_eq_false_iff,
    decide_eq_false_iff_not] at hdone
  omega

/-- The second loop leaves none at all on a lane that is over its cap. -/
theorem reserved_excess (hl : l.Leased) (hs : l.Slotted) (hperm : order.Perm l.owners)
    (hl' : l' = forLeases excess order l) (hover : l'.cfg.maxConcurrent < l'.active + l'.reserved) :
    l'.reserved = 0 := by
  subst hl'
  have hs' := (hs.moves hl (moves_forLeases excess_idle order l)).2
  rw [hs'.reserved, List.length_eq_zero_iff.mpr]
  · rfl
  · refine List.filter_eq_nil_iff.mpr fun ls hm hi => ?_
    have howner : ls.owner ∈ order :=
      hperm.mem_iff.mpr (List.mem_map_of_mem (mem_of_mem_forLeases hm))
    have hdone := forLeases_done excess_anti hl.keyed hm howner
    rw [excess, hi, Bool.and_true, Bool.not_eq_false', decide_eq_true_eq] at hdone
    omega

/-- A `Reconfigure` up to its `dispatch`; `l₀` has the new config. -/
theorem Fits.loops {l₀ : Lane} {order' : List String} (hl : l₀.Leased) (hs : l₀.Slotted)
    (hunder : ∀ c ∈ l₀.calls, (c.slot : Int) < c.under)
    (hover : l₀.cfg.maxConcurrent < l₀.active → ∀ c ∈ l₀.calls, c.id ∈ l₀.atShrink)
    (hperm : order.Perm l₀.owners) (hperm' : order'.Perm (forLeases homeless order l₀).owners)
    (hl' : l' = forLeases excess order' (forLeases homeless order l₀)) :
    l'.Leased ∧ l'.Slotted ∧ l'.Fits := by
  obtain ⟨hl₁, hs₁⟩ := hs.moves hl (moves_forLeases homeless_idle order l₀)
  obtain ⟨hl₂, hs₂⟩ := hs₁.moves hl₁ (moves_forLeases excess_idle order' _)
  rw [← hl'] at hl₂ hs₂
  obtain ⟨_, _, _, he₁⟩ := forLeases_frame homeless order l₀
  obtain ⟨_, _, _, he₂⟩ := forLeases_frame excess order' (forLeases homeless order l₀)
  rw [← hl'] at he₂
  have hcfg : l'.cfg = l₀.cfg := by rw [he₂, he₁]
  have hcalls : l'.calls = l₀.calls := by rw [he₂, he₁]
  have hactive : l'.active = l₀.active := by rw [he₂, he₁]
  have hshrink : l'.atShrink = l₀.atShrink := by rw [he₂, he₁]
  refine ⟨hl₂, hs₂, ?_, ?_, ?_⟩
  · intro ls hm hi
    rw [hcfg]
    rw [hl'] at hm
    exact range_homeless hl.keyed hperm (mem_of_mem_forLeases hm) hi
  · rwa [hcalls]
  · intro hover'
    have hnone := reserved_excess hl₁ hs₁ hperm' hl' hover'
    refine ⟨hnone, ?_⟩
    rw [hcalls, hshrink]
    rw [hcfg, hactive, hnone, Int.add_zero] at hover'
    exact hover hover'

/-- A cap that is not lowered leaves a lane over it only if it was over the old one. -/
theorem Fits.setConfig (h : l.Fits) (hs : l.Slotted) (cfg : LaneConfig)
    (hover : cfg.maxConcurrent < l.active) : ∀ c ∈ l.calls, c.id ∈ (l.setConfig cfg).atShrink := by
  intro c hc
  simp only [Lane.setConfig]
  split
  · exact List.mem_map_of_mem hc
  · have := hs.reserved
    exact (h.draining (by omega)).2 c hc

/-! ## Runs -/

/-- The agreements of a lane between its sections. -/
structure Steady (l : Lane) : Prop where
  leased : l.Leased
  slotted : l.Slotted
  fits : l.Fits

theorem Steady.moves (h : l.Steady) (hm : Moves l l') : l'.Steady :=
  Transition.moves_invariant hm
    (fun h hm => ⟨h.leased.move hm, h.slotted.move h.leased hm, h.fits.move h.leased h.slotted hm⟩) h

theorem steady_new (cfg : LaneConfig) : (NewLane cfg).Steady where
  leased := leased_new cfg
  slotted := ⟨rfl, rfl, Slots.marks_nil⟩
  fits := by
    refine ⟨nofun, nofun, fun hover => ?_⟩
    change (if cfg.maxConcurrent < 1 then 1 else cfg.maxConcurrent) < 0 + 0 at hover
    split at hover <;> omega

theorem steady_step {a : Label} (h : l.Steady) (hstep : l.step a = some l') : l'.Steady := by
  obtain ⟨l₀, hr, hm⟩ := step_moves h.leased.keyed hstep
  have hl₀ := h.leased.retune hr
  have hs₀ := h.slotted.retune hr
  cases hr with
  | same => exact h.moves hm
  | retire => exact Steady.moves ⟨hl₀, hs₀, h.fits.range, h.fits.under, h.fits.draining⟩ hm
  | @reconfigure cfg order order' =>
    simp only [Lane.step] at hstep
    split at hstep
    · next hperm =>
      cases hstep
      obtain ⟨hl, hs, hf⟩ := Fits.loops hl₀ hs₀ h.fits.under (h.fits.setConfig h.slotted _)
        hperm.1 hperm.2 rfl
      exact Steady.moves ⟨hl, hs, hf⟩ (moves_dispatch _)
    · cases hstep

theorem steady_of_run {P : Lane → Label → Prop} {cfg : LaneConfig}
    (h : Transition.Run Lane.step P (NewLane cfg) l) : l.Steady :=
  h.invariant (fun _ _ _ hl _ hs => steady_step hl hs) (steady_new cfg)

/-- In every reachable state of a lane: the counters count the reservations and the calls in
flight; the numbers marked in use are theirs, each used once; every call was given a number
below the cap of that moment; and only calls that a lowering of the cap caught in flight
keep the lane over it. -/
theorem slots_of_run {cfg : LaneConfig}
    (h : Transition.Run Lane.step Transition.Any (NewLane cfg) l) :
    l.reserved = (l.leases.filter fun ls => !ls.busy).length ∧
    l.active = l.calls.length ∧
    (∀ i, l.inUse[i]? = some true ↔ i ∈ l.slots) ∧ l.slots.Nodup ∧
    (∀ c ∈ l.calls, (c.slot : Int) < c.under) ∧
    (l.cfg.maxConcurrent < l.active + l.reserved →
      l.reserved = 0 ∧ ∀ c ∈ l.calls, c.id ∈ l.atShrink) := by
  obtain ⟨-, hs, hf⟩ := steady_of_run h
  exact ⟨hs.reserved, hs.active, hs.marks.mem, hs.marks.nodup, hf.under, hf.draining⟩

/-- Three calls, then a cap of one. -/
def shrinkTrace : List Label :=
  [.acquire { owner := "a" } (-1), .acquire { owner := "b" } (-1),
    .acquire { owner := "c" } (-1), .release 0 0,
    .reconfigure { maxConcurrent := 1, affinityHold := 5 } ["a", "b", "c"] ["a", "b", "c"]]

theorem slots_of_shrunk :
    ∃ l, Transition.Run Lane.step Transition.Any
        (NewLane { maxConcurrent := 3, affinityHold := 5 }) l ∧
      l.cfg.maxConcurrent = 1 ∧ l.active = 2 ∧ l.slots = [1, 2] ∧
      l.reserved = 0 ∧ ∀ c ∈ l.calls, c.id ∈ l.atShrink := by
  obtain ⟨l, hrun, hmax, hactive, hreserved, hslots⟩ := Transition.exists_run Lane.step
    (NewLane { maxConcurrent := 3, affinityHold := 5 }) shrinkTrace
    (p := fun l => l.cfg.maxConcurrent = 1 ∧ l.active = 2 ∧ l.reserved = 0 ∧ l.slots = [1, 2])
    (by decide +kernel)
  have hover := (slots_of_run hrun).2.2.2.2.2
  exact ⟨l, hrun, hmax, hactive, hslots, hover (by omega)⟩

end Lane

end Loomcycle.Concurrency
