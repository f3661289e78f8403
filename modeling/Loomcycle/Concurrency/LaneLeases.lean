import Loomcycle.Concurrency.LaneMoves

/-! # Leases and their calls

Each lease in flight belongs to one call of its owner, and an idle one to none. A run that
holds a reservation never waits in the lane for a call the reservation was made for. -/

namespace Loomcycle.Concurrency
open Lib

/-- The leases of the map and the calls in flight agree; lease pointers below `next` have
been used. -/
structure Pairing (leases : List Lease) (calls : List LaneCall) (next : Nat) : Prop where
  ids : (leases.map Lease.id).Nodup
  fresh : ∀ ls ∈ leases, ls.id < next
  callFresh : ∀ c ∈ calls, ∀ id ∈ c.lease, id < next
  one : (calls.filterMap LaneCall.lease).Nodup
  held : ∀ ls ∈ leases, ls.busy = true → ∃ c ∈ calls, c.lease = some ls.id
  holder : ∀ c ∈ calls, ∀ ls ∈ leases, c.lease = some ls.id →
    ls.busy = true ∧ ls.owner = c.info.owner ∧ ls.slot = c.slot

namespace Pairing

variable {leases leases' : List Lease} {calls calls' : List LaneCall} {next : Nat} {ls : Lease}
  {call : LaneCall}

section

variable (h : Pairing leases calls next)
include h

theorem perm (hl : leases.Perm leases') (hc : calls.Perm calls') : Pairing leases' calls' next where
  ids := (hl.map _).nodup_iff.mp h.ids
  fresh ls hm := h.fresh ls (hl.mem_iff.mpr hm)
  callFresh c hm := h.callFresh c (hc.mem_iff.mpr hm)
  one := (hc.filterMap _).nodup_iff.mp h.one
  held ls hm hb := by
    obtain ⟨c, hcm, he⟩ := h.held ls (hl.mem_iff.mpr hm) hb
    exact ⟨c, hc.mem_iff.mp hcm, he⟩
  holder c hcm ls hm := h.holder c (hc.mem_iff.mpr hcm) ls (hl.mem_iff.mpr hm)

/-- Leases go; their calls run on without them. -/
theorem sublist (hs : leases'.Sublist leases) : Pairing leases' calls next where
  ids := h.ids.sublist (hs.map _)
  fresh ls hm := h.fresh ls (hs.subset hm)
  callFresh := h.callFresh
  one := h.one
  held ls hm := h.held ls (hs.subset hm)
  holder c hcm ls hm := h.holder c hcm ls (hs.subset hm)

omit h in
/-- A call without a lease ends. -/
theorem endCall (h : Pairing leases (call :: calls) next)
    (hnone : ∀ ls ∈ leases, call.lease ≠ some ls.id) : Pairing leases calls next where
  ids := h.ids
  fresh := h.fresh
  callFresh c hm := h.callFresh c (List.mem_cons_of_mem _ hm)
  one := h.one.sublist ((List.sublist_cons_self call calls).filterMap _)
  held ls hm hb := by
    obtain ⟨c, hcm, he⟩ := h.held ls hm hb
    rcases List.mem_cons.mp hcm with rfl | hcm
    · exact absurd he (hnone ls hm)
    · exact ⟨c, hcm, he⟩
  holder c hcm := h.holder c (List.mem_cons_of_mem _ hcm)

/-- A call starts, on a lease that is none of the map or on none. -/
theorem cons_call (hcall : ∀ id ∈ call.lease, id < next ∧ ∀ c ∈ calls, c.lease ≠ some id)
    (hnone : ∀ ls ∈ leases, call.lease ≠ some ls.id) : Pairing leases (call :: calls) next where
  ids := h.ids
  fresh := h.fresh
  callFresh := List.forall_mem_cons.mpr ⟨fun id hid => (hcall id hid).1, h.callFresh⟩
  one := by
    cases hid : call.lease with
    | none =>
      rw [List.filterMap_cons_none hid]
      exact h.one
    | some id =>
      rw [List.filterMap_cons_some hid, List.nodup_cons]
      refine ⟨fun hm => ?_, h.one⟩
      obtain ⟨c, hcm, he⟩ := List.mem_filterMap.mp hm
      exact (hcall id hid).2 c hcm he
  held ls hm hb := by
    obtain ⟨c, hcm, he⟩ := h.held ls hm hb
    exact ⟨c, List.mem_cons_of_mem _ hcm, he⟩
  holder := List.forall_mem_cons.mpr ⟨fun ls hm he => absurd he (hnone ls hm), h.holder⟩

/-- A lease comes into the map. -/
theorem cons_lease (hnext : ls.id < next) (hl : ∀ x ∈ leases, x.id ≠ ls.id)
    (hheld : ls.busy = true → ∃ c ∈ calls, c.lease = some ls.id)
    (hholder : ∀ c ∈ calls, c.lease = some ls.id →
      ls.busy = true ∧ ls.owner = c.info.owner ∧ ls.slot = c.slot) :
    Pairing (ls :: leases) calls next where
  ids := by
    rw [List.map_cons, List.nodup_cons]
    refine ⟨fun hm => ?_, h.ids⟩
    obtain ⟨x, hx, he⟩ := List.mem_map.mp hm
    exact hl x hx he
  fresh := List.forall_mem_cons.mpr ⟨hnext, h.fresh⟩
  callFresh := h.callFresh
  one := h.one
  held := List.forall_mem_cons.mpr ⟨hheld, h.held⟩
  holder c hcm := List.forall_mem_cons.mpr ⟨hholder c hcm, h.holder c hcm⟩

/-- A lease with the call that runs on it. -/
theorem busy (hb : ls.busy = true) (hnext : ls.id < next)
    (hl : ∀ x ∈ leases, x.id ≠ ls.id) (hc : ∀ c ∈ calls, c.lease ≠ some ls.id)
    (hcall : call.lease = some ls.id) (howner : ls.owner = call.info.owner)
    (hslot : ls.slot = call.slot) : Pairing (ls :: leases) (call :: calls) next := by
  refine (h.cons_call (fun id hid => ?_) fun x hx he => ?_).cons_lease hnext hl
    (fun _ => ⟨call, List.mem_cons_self, hcall⟩) (List.forall_mem_cons.mpr
      ⟨fun _ => ⟨hb, howner, hslot⟩, fun c hcm he => absurd he (hc c hcm)⟩)
  · obtain rfl := Option.mem_unique hcall hid
    exact ⟨hnext, hc⟩
  · exact hl x hx (Option.mem_unique he hcall)

/-- No other call runs on a call's lease. -/
theorem no_other {id : Nat} (hm : call ∈ calls)
    (he : call.lease = some id) : ∀ c ∈ calls.erase call, c.lease ≠ some id := by
  intro c hc hce
  have hone := ((List.perm_cons_erase hm).filterMap LaneCall.lease).nodup_iff.mp h.one
  rw [List.filterMap_cons_some he, List.nodup_cons] at hone
  exact hone.1 (List.mem_filterMap.mpr ⟨c, hc, hce⟩)

end

end Pairing

namespace Lane

variable {l l' : Lane} {w : LaneWaiter} {c : CallInfo}

/-- The calls in flight and the waiters, by their pointers. -/
def ids (l : Lane) : List Nat := l.calls.map LaneCall.id ++ l.waiters.map LaneWaiter.id

/-- The owners of the waiters that have one. -/
def queuedOwners (ws : List LaneWaiter) : List String :=
  (ws.map fun w => w.info.owner).filter fun o => o ≠ ""

/-- Leases, calls and waiters agree. -/
structure Leased (l : Lane) : Prop where
  keyed : l.Keyed
  pairing : Pairing l.leases l.calls l.nextLease
  nodup : l.ids.Nodup
  fresh : ∀ i ∈ l.ids, i < l.nextId
  classes : (∀ w ∈ l.fg.waiters, w.info.background = false) ∧
    ∀ w ∈ l.bg.waiters, w.info.background = true
  queued : l.ownerQueued.Perm (queuedOwners l.waiters)
  alone : ∀ ls ∈ l.leases, ls.busy = false → ∀ w ∈ l.waiters, w.info.owner = ls.owner →
    w.info.noLease = true ∧ w.info.background = true

section

variable (h : l.Leased)
include h

theorem Leased.callIds : (l.calls.map LaneCall.id).Nodup :=
  (List.nodup_append.mp h.nodup).1

omit h in
theorem pairing_grant (h : Pairing l.leases l.calls l.nextLease) (id : Nat) (c : CallInfo) :
    Pairing (l.grant id c).leases (l.grant id c).calls (l.grant id c).nextLease := by
  have hnew : ∀ {calls : List LaneCall} {x : LaneCall}, (calls ++ [x]).Perm (x :: calls) :=
    List.perm_append_comm
  unfold Lane.grant
  split
  · refine Pairing.perm ?_ (List.perm_append_singleton _ _).symm hnew.symm
    have hnext : Pairing l.leases l.calls (l.nextLease + 1) :=
      { h with
        fresh := fun ls hm => Nat.lt_succ_of_lt (h.fresh ls hm)
        callFresh := fun c hm id hid => Nat.lt_succ_of_lt (h.callFresh c hm id hid) }
    refine Pairing.busy hnext rfl (Nat.lt_succ_self _) (fun x hx he => ?_) (fun x hx he => ?_)
      rfl rfl rfl
    · exact absurd he (Nat.ne_of_lt (h.fresh x hx))
    · exact Nat.lt_irrefl _ (h.callFresh x hx _ he)
  · refine Pairing.perm (h.cons_call ?_ ?_) (.refl _) hnew.symm
    · nofun
    · nofun

/-- No call runs on an idle lease. -/
theorem Leased.not_held {ls : Lease} (hm : ls ∈ l.leases) (hi : ls.busy = false) :
    ∀ c ∈ l.calls, c.lease ≠ some ls.id := by
  intro c hc he
  rw [(h.pairing.holder c hc ls hm he).1] at hi
  cases hi

/-- A call whose lease is not its owner's any more has none in the map. -/
theorem Leased.no_lease {call : LaneCall} (hm : call ∈ l.calls)
    (hnone : l.leaseHeld call = none) : ∀ ls ∈ l.leases, call.lease ≠ some ls.id := by
  intro ls hls he
  obtain ⟨-, howner, -⟩ := h.pairing.holder call hm ls hls he
  rw [leaseHeld, he, Option.bind_some, ← howner, h.keyed.leaseOf hls] at hnone
  simp [Option.filter] at hnone

theorem calls_endCall {call : LaneCall} (hm : call ∈ l.calls) :
    (l.endCall call).calls.Perm (l.calls.erase call) :=
  Lib.Keyed.filter_ne_perm h.callIds hm

omit h in
theorem calls_perm_endCall {call : LaneCall} (hl : l.Leased) (hm : call ∈ l.calls) :
    l.calls.Perm (call :: (l.endCall call).calls) :=
  (List.perm_cons_erase hm).trans ((calls_endCall hl hm).symm.cons call)

theorem pairing_move (hmove : Move l l') : Pairing l'.leases l'.calls l'.nextLease := by
  have hp := h.pairing
  cases hmove with
  | tally => exact hp
  | drop | forget => exact hp.sublist List.filter_sublist
  | grant => exact pairing_grant (l := { l with nextId := l.nextId + 1 }) hp _ _
  | @serve w l₁ _ _ frame =>
    have hl₁ : Pairing l₁.leases l₁.calls l₁.nextLease := by
      rw [frame]
      exact hp
    exact pairing_grant (l := l₁.decOwnerQueued w.info.owner) hl₁ _ _
  | @resume ls c hm hi howner =>
    have hrest := hp.sublist (List.erase_sublist (a := ls))
    have hne : ∀ x ∈ l.leases.erase ls, x.id ≠ ls.id := fun x hx =>
      Lib.Keyed.ne_of_mem_erase hp.ids hm hx
    have hnone := h.not_held hm hi
    refine Pairing.perm ?_ (Lib.Keyed.map_set_perm hp.ids hm _).symm
      (List.perm_append_singleton _ _).symm
    exact hrest.busy rfl (hp.fresh ls hm) hne hnone rfl howner rfl
  | @free call hm hnone =>
    have hc := hp.perm (.refl _) (List.perm_cons_erase hm)
    exact (hc.endCall (h.no_lease hm hnone)).perm (.refl _) (calls_endCall h hm).symm
  | @forgo call ls hm hheld =>
    obtain ⟨hls, -, he⟩ := leaseHeld_eq_some hheld
    have hc := (hp.perm (.refl _) (List.perm_cons_erase hm)).sublist
      (List.filter_sublist (p := fun x => decide (x.owner ≠ ls.owner)))
    refine (hc.endCall fun x hx hxe => ?_).perm (.refl _) (calls_endCall h hm).symm
    obtain ⟨hx, hne⟩ := List.mem_filter.mp hx
    have hid : x.id = ls.id := Option.mem_unique hxe he
    rw [List.inj_on_of_nodup_map hp.ids hx hls hid] at hne
    simp at hne
  | @reserve call ls now hm hheld =>
    obtain ⟨hls, -, he⟩ := leaseHeld_eq_some hheld
    have hne : ∀ x ∈ l.leases.erase ls, x.id ≠ ls.id := fun x hx =>
      Lib.Keyed.ne_of_mem_erase hp.ids hls hx
    have hc := (hp.perm (.refl _) (List.perm_cons_erase hm)).sublist (List.erase_sublist (a := ls))
    have hend := hc.endCall fun x hx hxe => hne x hx (Option.mem_unique hxe he)
    have hother := hp.no_other hm he
    refine Pairing.perm ?_ (Lib.Keyed.map_set_perm hp.ids hls _).symm (calls_endCall h hm).symm
    exact hend.cons_lease (hp.fresh ls hls) hne nofun fun c hc he => absurd he (hother c hc)
  | enqueue => exact hp
  | unqueue => exact hp

theorem waiters_unqueue (hw : w ∈ l.waiters) : l.waiters.Perm (w :: (l.unqueue w).waiters) := by
  simp only [Lane.unqueue, decOwnerQueued, waiters]
  cases hb : w.info.background with
  | false =>
    have hfg : w ∈ l.fg.waiters := (List.mem_append.mp hw).resolve_right fun hbg => by
      rw [h.classes.2 w hbg] at hb
      cases hb
    exact (LaneQueue.waiters_remove hfg).append_right _
  | true =>
    have hbg : w ∈ l.bg.waiters := (List.mem_append.mp hw).resolve_left fun hfg => by
      rw [h.classes.1 w hfg] at hb
      cases hb
    exact ((LaneQueue.waiters_remove hbg).append_left _).trans List.perm_middle

omit h in
theorem ownerQueued_dec {ws : List LaneWaiter} (h : l.ownerQueued.Perm (queuedOwners (w :: ws))) :
    (l.decOwnerQueued w.info.owner).ownerQueued.Perm (queuedOwners ws) := by
  simp only [decOwnerQueued]
  split
  · next howner => simpa [queuedOwners, howner] using h
  · next howner =>
    have he := h.erase w.info.owner
    simpa [queuedOwners, howner] using he

theorem ids_sublist {ids : List Nat} (hs : ids.Subperm l.ids) :
    ids.Nodup ∧ ∀ i ∈ ids, i < l.nextId := by
  obtain ⟨ids', hp, hs⟩ := hs
  exact ⟨hp.nodup_iff.mp (h.nodup.sublist hs), fun i hi => h.fresh i (hs.subset (hp.mem_iff.mpr hi))⟩

theorem ids_move (hmove : Move l l') : l'.ids.Nodup ∧ ∀ i ∈ l'.ids, i < l'.nextId := by
  have hcons : ∀ {x : LaneCall}, ((l.calls ++ [x]).map LaneCall.id ++
      l.waiters.map LaneWaiter.id).Perm (x.id :: l.ids) := by
    intro x
    rw [List.map_append, List.append_assoc]
    exact List.perm_middle
  cases hmove with
  | grant | resume => exact Lib.Keyed.fresh_cons h.nodup h.fresh hcons
  | free | forgo | reserve =>
    exact ids_sublist h ((List.filter_sublist.map _).append_right _).subperm
  | @serve w l₁ _ _ frame perm =>
    have hnext : l₁.nextId = l.nextId := by rw [frame]
    have hcalls : l₁.calls = l.calls := by rw [frame]
    change (Lane.ids _).Nodup ∧ ∀ i ∈ Lane.ids _, i < l₁.nextId
    rw [hnext]
    refine ids_sublist h (List.Perm.subperm ?_)
    change ((l₁.calls ++ [_]).map LaneCall.id ++ l₁.waiters.map LaneWaiter.id).Perm l.ids
    rw [hcalls, List.map_append, List.append_assoc]
    exact ((perm.map LaneWaiter.id).append_left (l.calls.map LaneCall.id)).symm
  | @enqueue c =>
    refine Lib.Keyed.fresh_cons h.nodup h.fresh ?_
    exact (((waiters_enqueue l c).map _).append_left _).trans List.perm_middle
  | @unqueue w hw =>
    refine ids_sublist h (List.Subperm.trans ?_
      (((waiters_unqueue h hw).map _).append_left _).symm.subperm)
    exact ((List.sublist_cons_self _ _).append_left _).subperm
  | _ => exact ⟨h.nodup, h.fresh⟩

theorem classes_move (hmove : Move l l') : (∀ w ∈ l'.fg.waiters, w.info.background = false) ∧
      ∀ w ∈ l'.bg.waiters, w.info.background = true := by
  have hc := h.classes
  have hpush : ∀ {q : LaneQueue} {w : LaneWaiter}, (∀ x ∈ q.waiters, x.info.background =
      w.info.background) → ∀ x ∈ (q.push w).waiters, x.info.background = w.info.background := by
    intro q w hq x hx
    rw [(LaneQueue.waiters_push _ _).mem_iff] at hx
    exact List.forall_mem_append.mpr ⟨hq, List.forall_mem_singleton.mpr rfl⟩ x hx
  cases hmove with
  | @serve w l₁ _ _ _ _ kept =>
    exact ⟨fun x hx => hc.1 x (kept.1 x hx), fun x hx => hc.2 x (kept.2 x hx)⟩
  | @enqueue c =>
    cases hb : c.background with
    | false =>
      simp only [Lane.enqueue, hb, Bool.false_eq_true, if_false]
      exact ⟨hb ▸ hpush (hb ▸ hc.1), hc.2⟩
    | true =>
      simp only [Lane.enqueue, hb, if_true]
      exact ⟨hc.1, hb ▸ hpush (hb ▸ hc.2)⟩
  | @unqueue w =>
    simp only [Lane.unqueue, decOwnerQueued]
    refine ⟨fun x hx => hc.1 x ?_, fun x hx => hc.2 x ?_⟩
    · split at hx
      · exact hx
      · exact LaneQueue.mem_of_mem_remove hx
    · split at hx
      · exact LaneQueue.mem_of_mem_remove hx
      · exact hx
  | _ => exact hc

theorem queued_move (hmove : Move l l') : l'.ownerQueued.Perm (queuedOwners l'.waiters) := by
  have hq := h.queued
  cases hmove with
  | @serve w l₁ _ _ frame perm =>
    refine ownerQueued_dec (l := l₁) (w := w) ?_
    rw [frame]
    exact hq.trans ((perm.map _).filter _)
  | @enqueue c =>
    refine List.Perm.trans ?_ (((waiters_enqueue l c).map _).filter _).symm
    simp only [Lane.enqueue, List.map_cons]
    split
    · next howner =>
      rw [List.filter_cons_of_neg (by simp [howner])]
      exact hq
    · next howner =>
      rw [List.filter_cons_of_pos (by simpa using howner)]
      exact List.perm_append_comm.trans (hq.cons _)
  | @unqueue w hw =>
    refine ownerQueued_dec (l := { l with fg := (l.unqueue w).fg, bg := (l.unqueue w).bg }) ?_
    exact hq.trans (((waiters_unqueue h hw).map _).filter _)
  | _ => exact hq

/-- An owner whose reservation begins has nobody queued. -/
theorem not_queued {owner : String} (hne : owner ≠ "")
    (hq : l.ownerQueued.contains owner = false) : ∀ w ∈ l.waiters, w.info.owner ≠ owner := by
  intro w hw he
  have hm : owner ∈ l.ownerQueued := by
    refine h.queued.mem_iff.mpr (List.mem_filter.mpr ⟨List.mem_map.mpr ⟨w, hw, he⟩, ?_⟩)
    simpa using hne
  simp [hm] at hq

theorem alone_move (hmove : Move l l') :
    ∀ ls ∈ l'.leases, ls.busy = false → ∀ w ∈ l'.waiters, w.info.owner = ls.owner →
      w.info.noLease = true ∧ w.info.background = true := by
  have ha := h.alone
  cases hmove with
  | drop | forgo | forget => exact fun ls hm => ha ls (List.mem_filter.mp hm).1
  | @grant c =>
    intro ls hm hi
    exact ha ls (idle_of_grant (l := { l with nextId := l.nextId + 1 }) hm hi) hi
  | @serve w l₁ _ _ frame perm =>
    intro ls hm hi x hx
    have hl₁ : l₁.leases = l.leases := by rw [frame]
    refine ha ls ?_ hi x (perm.mem_iff.mpr (List.mem_cons_of_mem w hx))
    rw [← hl₁]
    exact idle_of_grant (l := l₁.decOwnerQueued w.info.owner) hm hi
  | @resume ls c hm =>
    intro x hx hi
    rcases List.mem_cons.mp ((Lib.Keyed.map_set_perm h.pairing.ids hm _).mem_iff.mp hx) with rfl | hx
    · cases hi
    · exact ha x (List.mem_of_mem_erase hx) hi
  | @reserve call ls now hm hheld hkeep =>
    obtain ⟨hls, howner, -⟩ := leaseHeld_eq_some hheld
    intro x hx hi w hw he
    rcases List.mem_cons.mp ((Lib.Keyed.map_set_perm h.pairing.ids hls _).mem_iff.mp hx) with rfl | hx
    · have hno : l.ownerQueued.contains call.info.owner = false := by
        simp only [givesUp, Bool.or_eq_false_iff] at hkeep
        exact hkeep.2
      rw [← howner] at hno
      exact absurd he (not_queued h (h.keyed.named ls hls) hno w hw)
    · exact ha x (List.mem_of_mem_erase hx) hi w hw he
  | @enqueue c _ apart =>
    intro ls hm hi w hw he
    rcases List.mem_cons.mp ((waiters_enqueue l c).mem_iff.mp hw) with rfl | hw
    · exact apart ls hm hi he.symm
    · exact ha ls hm hi w hw he
  | @unqueue w hw =>
    intro ls hm hi x hx
    exact ha ls hm hi x ((waiters_unqueue h hw).mem_iff.mpr (List.mem_cons_of_mem w hx))
  | _ => exact ha

theorem Leased.move (hmove : Move l l') : l'.Leased where
  keyed := h.keyed.move hmove
  pairing := pairing_move h hmove
  nodup := (ids_move h hmove).1
  fresh := (ids_move h hmove).2
  classes := classes_move h hmove
  queued := queued_move h hmove
  alone := alone_move h hmove

/-- The agreement does not read the config. -/
theorem Leased.retune {l₀ : Lane} {a : Label} (hr : Retunes l a l₀) : l₀.Leased := by
  cases hr with
  | same => exact h
  | reconfigure | retire =>
    exact ⟨⟨h.keyed.owners, h.keyed.named⟩, h.pairing, h.nodup, h.fresh, h.classes, h.queued, h.alone⟩

end

theorem leased_new (cfg : LaneConfig) : (NewLane cfg).Leased where
  keyed := ⟨List.nodup_nil, nofun⟩
  pairing :=
    { ids := List.nodup_nil
      fresh := nofun
      callFresh := nofun
      one := List.nodup_nil
      held := nofun
      holder := nofun }
  nodup := List.nodup_nil
  fresh := nofun
  classes := ⟨nofun, nofun⟩
  queued := .refl _
  alone := nofun

theorem leased_step {a : Label} (hl : l.Leased) (h : l.step a = some l') : l'.Leased := by
  obtain ⟨l₀, hr, hm⟩ := step_moves hl.keyed h
  exact Transition.moves_invariant hm (fun h hm => h.move hm) (hl.retune hr)

/-- In every reachable state of a lane, whatever interleaves: an owner has at most one
lease; a busy one belongs to exactly one call in flight, which is its owner's; and an owner
whose lease is idle has nobody queued but background calls that take no lease. -/
theorem lease_of_run {cfg : LaneConfig}
    (h : Transition.Run Lane.step Transition.Any (NewLane cfg) l) :
    (l.leases.map Lease.owner).Nodup ∧
    (∀ ls ∈ l.leases, ls.busy = true →
      ∃ c ∈ l.calls, c.lease = some ls.id ∧ c.info.owner = ls.owner ∧
        ∀ c' ∈ l.calls, c'.lease = some ls.id → c' = c) ∧
    ∀ ls ∈ l.leases, ls.busy = false → ∀ w ∈ l.waiters, w.info.owner = ls.owner →
      w.info.noLease = true ∧ w.info.background = true := by
  have hl : l.Leased := h.invariant (fun _ _ _ hl _ hs => leased_step hl hs) (leased_new cfg)
  refine ⟨hl.keyed.owners, fun ls hm hb => ?_, hl.alone⟩
  obtain ⟨c, hc, he⟩ := hl.pairing.held ls hm hb
  refine ⟨c, hc, he, (hl.pairing.holder c hc ls hm he).2.1.symm, fun c' hc' he' => ?_⟩
  refine Classical.byContradiction fun hne => hl.pairing.no_other hc he c' ?_ he'
  exact (List.mem_erase_of_ne hne).mpr hc'

/-- Run `a` made a call and keeps its slot, run `b` is making one, and background work of
`a` waits. -/
def reservedTrace : List Label :=
  [.acquire { owner := "a" } (-1), .release 0 0, .acquire { owner := "b" } (-1),
    .acquire { owner := "a", noLease := true, background := true } (-1)]

theorem lease_of_reserved :
    ∃ l, Transition.Run Lane.step Transition.Any
        (NewLane { maxConcurrent := 2, affinityHold := 5 }) l ∧
      l.leases.map (fun ls => (ls.owner, ls.busy)) = [("a", false), ("b", true)] ∧
      l.waiters.map (fun w => w.info.owner) = ["a"] ∧
      ∀ ls ∈ l.leases, ls.busy = false → ∀ w ∈ l.waiters, w.info.owner = ls.owner →
        w.info.noLease = true ∧ w.info.background = true := by
  obtain ⟨l, hrun, hleases, hwaiters⟩ := Transition.exists_run Lane.step
    (NewLane { maxConcurrent := 2, affinityHold := 5 }) reservedTrace
    (p := fun l => l.leases.map (fun ls => (ls.owner, ls.busy)) = [("a", false), ("b", true)] ∧
      l.waiters.map (fun w => w.info.owner) = ["a"]) (by decide +kernel)
  exact ⟨l, hrun, hleases, hwaiters, (lease_of_run hrun).2.2⟩

end Lane

end Loomcycle.Concurrency
