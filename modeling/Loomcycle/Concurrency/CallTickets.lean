import Loomcycle.Concurrency.LaneModels
import Loomcycle.Concurrency.LaneSlots
import Loomcycle.Concurrency.ModelGateRuns
import Loomcycle.Lib.Tickets

/-! # Lanes and gates as queues of calls

The pointers of a lane's or a gate's calls are the numbers it has given out: a call in flight is
served and a queued one waits. What each section does to them is all that a caller of the lane
and the gate needs to know, together with when somebody can be waiting at all. -/

namespace Loomcycle.Concurrency
open Lib

namespace Lane

variable {l l' : Lane} {c : CallInfo} {id : Nat} {now : Int}

def tickets (l : Lane) : Tickets := ⟨l.calls.map LaneCall.id, l.waiters.map LaneWaiter.id⟩

theorem callOf_isSome : (l.callOf id).isSome = true ↔ id ∈ l.tickets.served := by
  simp [callOf, tickets, List.find?_isSome]

theorem serves_dispatchLoop (fuel : Nat) (l : Lane) :
    l.tickets.Serves (dispatchLoop fuel l).tickets := by
  induction fuel generalizing l with
  | zero => exact .refl _
  | succ fuel ih =>
    unfold dispatchLoop
    split
    · split
      · exact .refl _
      · next w l' hnext =>
        have ht := next_took hnext
        have hcalls : l'.calls = l.calls := by rw [ht.frame]
        refine Tickets.Serves.trans ⟨?_, ?_⟩ (ih _)
        · change (l.calls.map _ ++ l.waiters.map _).Perm
            ((l'.calls ++ [_]).map LaneCall.id ++ l'.waiters.map LaneWaiter.id)
          rw [hcalls, List.map_append, List.append_assoc]
          exact (ht.perm.map LaneWaiter.id).append_left _
        · change l.calls.map _ ⊆ (l'.calls ++ [_]).map LaneCall.id
          rw [hcalls, List.map_append]
          exact List.subset_append_left _ _
    · exact .refl _

theorem serves_dispatch (l : Lane) : l.tickets.Serves l.dispatch.tickets :=
  serves_dispatchLoop _ l

/-- What `acquire` does with the number it answers with. -/
inductive Answers (t : Tickets) : Granted → Tickets → Prop
  | granted {id : Nat} {t' : Tickets} (adds : t.Adds id t') (served : id ∈ t'.served) :
    Answers t (.granted id) t'
  | queued {id : Nat} {t' : Tickets} (adds : t.Adds id t') : Answers t (.queued id) t'
  | queueFull {n : Nat} {limit : Int} {t' : Tickets} (serves : t.Serves t') :
    Answers t (.queueFull n limit) t'

theorem Answers.after {t t' t'' : Tickets} {r : Granted} (h : Answers t' r t'')
    (h' : t.Serves t') : Answers t r t'' := by
  cases h with
  | granted adds served => exact .granted (adds.after h') served
  | queued adds => exact .queued (adds.after h')
  | queueFull serves => exact .queueFull (h'.trans serves)

variable {call : LaneCall} {a : Label}

/-- One more call is in flight. -/
theorem adds_call (l l' : Lane) (hcalls : l'.calls = l.calls ++ [call])
    (hwaiters : l'.waiters = l.waiters) (hid : call.id = id) :
    l.tickets.Adds id l'.tickets ∧ id ∈ l'.tickets.served := by
  refine Tickets.adds_served ?_ ?_
  · simp [tickets, hcalls, hid]
  · rw [tickets, tickets, hwaiters]

theorem answers_admitOrQueue (l : Lane) (c : CallInfo) (maxQueued : Int) :
    Answers l.tickets (l.admitOrQueue c maxQueued).2 (l.admitOrQueue c maxQueued).1.tickets := by
  unfold admitOrQueue
  split
  · obtain ⟨hadds, hserved⟩ := adds_call l
      ({ l with nextId := l.nextId + 1 }.grant l.nextId c) rfl rfl rfl
    exact .granted hadds hserved
  · split
    · exact .queueFull (.refl _)
    · exact .queued (Tickets.adds_waiting rfl ((waiters_enqueue l c).map LaneWaiter.id))

theorem answers_acquire (l : Lane) (c : CallInfo) (maxQueued : Int) :
    Answers l.tickets (l.acquire c maxQueued).2 (l.acquire c maxQueued).1.tickets := by
  unfold acquire
  split
  · exact answers_admitOrQueue l c maxQueued
  next ls hls =>
  split
  · next l₁ hleave =>
    refine (answers_admitOrQueue l₁ c maxQueued).after ?_
    obtain ⟨n, rfl⟩ | ⟨rfl, -⟩ := leaveReservation_some hleave
    · exact serves_dispatch { l.dropIdle ls with preemptions := n }
    · exact .refl _
  · obtain ⟨hadds, hserved⟩ := adds_call l (l.resume ls c) rfl rfl rfl
    exact .granted hadds hserved

theorem drops_endCall (hl : l.Leased) (hm : call ∈ l.calls) :
    l.tickets.Drops call.id (l.endCall call).tickets :=
  Tickets.drops_served ((calls_perm_endCall hl hm).map LaneCall.id) rfl

theorem tickets_settle (l : Lane) (call : LaneCall) (abandoned : Bool) (now : Int) :
    (l.settle call abandoned now).tickets = l.tickets := by
  unfold settle
  split
  · rfl
  · split
    · rfl
    · split
      · rfl
      · rfl

theorem drops_finish (hl : l.Leased) (hm : call ∈ l.calls) (abandoned : Bool) (now : Int) :
    l.tickets.Drops call.id (l.finish call abandoned now).tickets := by
  have hdrops := drops_endCall hl hm
  rw [← tickets_settle (l.endCall call) call abandoned now] at hdrops
  exact hdrops.before (serves_dispatch _)

theorem Leased.tally (hl : l.Leased) (grants : Int) : ({ l with grants } : Lane).Leased :=
  hl.move (.tally grants l.preemptions l.bgCredit)

/-- A call in flight ends. -/
theorem drops_endFn (hl : l.Leased) (hid : id ∈ l.tickets.served) (abandoned : Bool) (now : Int) :
    l.tickets.Drops id (l.endFn id abandoned now).tickets := by
  obtain ⟨call, hcall⟩ := Option.isSome_iff_exists.mp (callOf_isSome.mpr hid)
  obtain ⟨hm, rfl⟩ := mem_of_callOf hcall
  unfold endFn
  rw [hcall]
  exact drops_finish (l := { l with grants := if abandoned then l.grants - 1 else l.grants })
    (hl.tally _) hm abandoned now

/-- A call gives up waiting. -/
theorem drops_cancel (hl : l.Leased) (h : l.cancel id now = some l') :
    l.tickets.Drops id l'.tickets := by
  unfold cancel at h
  split at h
  · next call hcall =>
    cases h
    obtain ⟨hm, rfl⟩ := mem_of_callOf hcall
    exact drops_finish (l := { l with grants := l.grants - 1 }) (hl.tally _) hm true now
  next hnone =>
  obtain ⟨w, hw, he⟩ := Option.map_eq_some_iff.mp h
  cases he
  have hm := List.mem_of_find?_eq_some hw
  have hid : w.id = id := by simpa using List.find?_some hw
  rw [← hid]
  exact Tickets.drops_waiting rfl ((waiters_unqueue hl hm).map LaneWaiter.id)

theorem serves_ambient (ha : a.ambient = true) (h : l.step a = some l') :
    l.tickets.Serves l'.tickets := by
  cases ambient_step ha h with
  | same | forget => exact .refl _
  | @dispatch _ l₁ _ _ hcalls hwaiters =>
    have htickets : l₁.tickets = l.tickets := by rw [tickets, hcalls, hwaiters, tickets]
    rw [← htickets]
    exact serves_dispatch l₁

/-! ## When somebody waits -/

/-- The caps in force let something through. -/
structure Open (cfg : LaneConfig) : Prop where
  maxConcurrent : 0 < cfg.maxConcurrent
  modelCaps : ∀ m ∈ cfg.modelCaps, 0 < m.2

theorem open_normalize (cfg : LaneConfig) : Open (normalizeLaneConfig cfg) := by
  refine ⟨?_, fun m hm => ?_⟩
  · unfold normalizeLaneConfig
    dsimp only
    split
    · exact Int.one_pos
    · omega
  · obtain ⟨x, -, rfl⟩ := List.mem_map.mp hm
    exact Int.lt_of_lt_of_le Int.one_pos (Int.le_max_right _ _)

theorem open_step (hk : l.Keyed) (hopen : Open l.cfg) (h : l.step a = some l') : Open l'.cfg := by
  obtain ⟨l₀, hr, hm⟩ := step_moves hk h
  have hcfg : l'.cfg = l₀.cfg := Transition.moves_invariant hm (I := fun r => r.cfg = l₀.cfg)
    (fun hr hmove => (settings_move hmove).1.trans hr) rfl
  rw [hcfg]
  cases hr with
  | same => exact hopen
  | reconfigure => exact open_normalize _
  | retire => exact ⟨hopen.maxConcurrent, hopen.modelCaps⟩

/-- The agreements a call can rely on. -/
structure Attended (l : Lane) : Prop where
  steady : l.Steady
  metered : l.Metered
  conserving : l.WorkConserving
  isOpen : Open l.cfg

/-- While a call waits in a lane another is in flight or a slot is reserved. -/
theorem Attended.occupied (h : l.Attended) (hw : l.waiters ≠ []) :
    l.calls ≠ [] ∨ ∃ ls ∈ l.leases, ls.busy = false := by
  by_cases hfree : l.active + l.reserved < l.cfg.maxConcurrent
  · -- the waiter's model is at its cap, which is at least one
    obtain ⟨w, rest, he⟩ := List.exists_cons_of_ne_nil hw
    have hblocked := h.conserving hfree w (by rw [he]; exact List.mem_cons_self)
    obtain ⟨⟨key, n⟩, hcap, hle⟩ := modelBlocked_eq_true.mp hblocked
    obtain ⟨before, after, hcaps, -⟩ := List.lookup_eq_some_iff.mp (capFor_eq_some hcap)
    have hpos := h.isOpen.modelCaps (key, n) (by rw [hcaps]; simp)
    rw [modelInFlight_eq h.metered.modelled] at hle
    refine .inl fun hnil => ?_
    rw [hnil] at hle
    exact absurd (Int.lt_of_lt_of_le hpos hle) (Int.lt_irrefl 0)
  · have hslots := h.steady.slotted.inUse
    have hmax := h.isOpen.maxConcurrent
    have hpos : 0 < l.slots.length := by omega
    obtain ⟨slot, hslot⟩ := List.exists_mem_of_length_pos hpos
    rcases List.mem_append.mp hslot with hcall | hidle
    · exact .inl (List.ne_nil_of_mem (List.mem_map.mp hcall).choose_spec.1)
    · obtain ⟨ls, hls, -⟩ := List.mem_map.mp hidle
      obtain ⟨hm, hbusy⟩ := List.mem_filter.mp hls
      exact .inr ⟨ls, hm, by simpa using hbusy⟩

end Lane

namespace ModelGate

variable {g g' : ModelGate} {model : String} {id : Nat}

def tickets (g : ModelGate) : Tickets := ⟨g.calls.map GateCall.id, g.waiters.map GateWaiter.id⟩

theorem callOf_isSome : (g.callOf id).isSome = true ↔ id ∈ g.tickets.served := by
  simp [callOf, tickets, List.find?_isSome]

theorem serves_admitHeads (g : ModelGate) : g.tickets.Serves g.admitHeads.tickets := by
  refine admitLoop_invariant (I := fun r => g.tickets.Serves r.tickets) ?_ _ (.refl _)
  intro r w _ _ _ hr
  refine hr.trans ⟨ids_admitModel r w.model, ?_⟩
  change r.calls.map _ ⊆ (r.calls ++ _).map GateCall.id
  rw [List.map_append]
  exact List.subset_append_left _ _

theorem adds_start (g : ModelGate) (model : String) :
    g.tickets.Adds g.nextId (g.start model).tickets ∧
      g.nextId ∈ (g.start model).tickets.served :=
  Tickets.adds_served List.map_append rfl

theorem adds_enqueue (g : ModelGate) (model : String) :
    g.tickets.Adds g.nextId (g.enqueue model).tickets := by
  refine Tickets.adds_waiting rfl ?_
  change ((g.waiters ++ [_]).map GateWaiter.id).Perm _
  rw [List.map_append]
  exact List.perm_append_singleton _ _

/-- What `enter` does with the number it answers with. -/
inductive Answers (g : ModelGate) : Entered → ModelGate → Prop
  | uncounted : Answers g .uncounted g
  | ctx : Answers g .ctx g
  | queueFull {n : Nat} {limit : Int} : Answers g (.queueFull n limit) g
  | admitted {id : Nat} {g' : ModelGate} (adds : g.tickets.Adds id g'.tickets)
    (served : id ∈ g'.tickets.served) : Answers g (.admitted id) g'
  | queued {id : Nat} {g' : ModelGate} (adds : g.tickets.Adds id g'.tickets) :
    Answers g (.queued id) g'

theorem answers_enter (g : ModelGate) (model : String) (maxWaiting : Int) (done : Bool) :
    Answers g (g.enter model maxWaiting done).2 (g.enter model maxWaiting done).1 := by
  unfold enter
  split
  · exact .uncounted
  split
  · exact .uncounted
  split
  · exact .ctx
  · split
    · exact .admitted (adds_start g model).1 (adds_start g model).2
    · split
      · exact .queueFull
      · exact .queued (adds_enqueue g model)

theorem drops_endCall {c : GateCall} (ht : g.Tracked) (hm : c ∈ g.calls) :
    g.tickets.Drops c.id (g.endCall c).tickets := by
  have hdrop : g.tickets.Drops c.id (g.drop c).tickets :=
    Tickets.drops_served ((calls_drop ht hm).map GateCall.id) rfl
  rw [endCall_eq]
  split
  · exact hdrop
  · exact hdrop.before (serves_admitHeads _)

/-- A call in flight leaves. -/
theorem drops_leave (ht : g.Tracked) (hid : id ∈ g.tickets.served) :
    g.tickets.Drops id (g.leave id).tickets := by
  obtain ⟨c, hc⟩ := Option.isSome_iff_exists.mp (callOf_isSome.mpr hid)
  obtain ⟨hm, rfl⟩ := mem_of_callOf hc
  unfold leave
  rw [hc]
  exact drops_endCall ht hm

/-- A call gives up waiting. -/
theorem drops_cancel (ht : g.Tracked) (h : g.cancel id = some g') :
    g.tickets.Drops id g'.tickets := by
  unfold cancel at h
  split at h
  · next c hc =>
    cases h
    obtain ⟨hm, rfl⟩ := mem_of_callOf hc
    exact drops_endCall ht hm
  obtain ⟨w, hw, he⟩ := Option.map_eq_some_iff.mp h
  cases he
  have hm := List.mem_of_find?_eq_some hw
  have hid : w.id = id := by simpa using List.find?_some hw
  rw [← hid]
  have hp := (List.perm_cons_erase hm).trans
    ((Lib.Keyed.filter_ne_perm (List.nodup_append.mp ht.nodup).2.1 hm).symm.cons w)
  have hdrop : g.tickets.Drops w.id (g.unqueue w).tickets :=
    Tickets.drops_waiting rfl (hp.map GateWaiter.id)
  exact hdrop.before (serves_admitHeads _)

theorem serves_ambient {a : Label} (ha : a.ambient = true) (h : g.step a = some g') :
    g.tickets.Serves g'.tickets := by
  cases a with
  | setLimit maxModels maxWait =>
    cases h
    exact serves_admitHeads (g.setLimits maxModels maxWait)
  | tick d => cases h; exact .refl _
  | enter | leave | cancel => cases ha

/-- While a call waits at a gate another has its place. -/
theorem Steady.occupied (h : g.Steady) (hw : g.waiters ≠ []) : g.calls ≠ [] := by
  obtain ⟨w, rest, he⟩ := List.exists_cons_of_ne_nil hw
  obtain ⟨hpos, -, hfull⟩ := h.tracked.held.mp (h.settled w rest he)
  intro hnil
  have hzero : CountMap.distinct g.models = 0 := by rw [models, hnil]; rfl
  omega

end ModelGate

end Loomcycle.Concurrency
