import Loomcycle.Pause.Manager

/-! The manager of one replica of a cluster. Its state has three kinds of writers: the calls
made here, the events other replicas publish, and the refreshes of `State`, which read the
cluster's row in one step and store what they read in another. Only the first two move the
channels. The row changes at any time: other replicas write it, and writes made here may
fail or land late. -/

namespace Loomcycle.Pause
open Lib.Transition

/-- `reads` are the refreshes between their two steps, `finals` the number of pauses (a
shutdown's included) that have not stored their final state, `parked` the runs that wait,
with the resume signal each waits on. -/
structure Replica where
  mgr : Manager := {}
  row : RuntimeState := .running
  reads : List RuntimeState := []
  finals : Nat := 0
  parked : List (Nat × Nat) := []
deriving DecidableEq, Repr

namespace Replica

inductive Label
  | pause
  | finalizePause
  | resume
  | pauseForShutdown
  | remotePause
  | remoteResume
  /-- the cluster's row is written, here or elsewhere -/
  | setRow (v : RuntimeState)
  | readRow
  | storeRead (k : Nat)
  | beginPark (run : Nat)
  /-- a parked run finds its resume signal closed -/
  | wake (run ch : Nat)
deriving DecidableEq, Repr

def step (s : Replica) : Label → Option Replica
  | .pause =>
    match s.mgr.pause with
    | .ok m => some { s with mgr := m, finals := s.finals + 1 }
    | .error _ => some s
  | .finalizePause =>
    if s.finals = 0 then none
    else some { s with mgr := s.mgr.finalizePause, finals := s.finals - 1 }
  | .resume =>
    match s.mgr.resume with
    | .ok m => some { s with mgr := m }
    | .error _ => some s
  | .pauseForShutdown =>
    some { s with mgr := s.mgr.pauseForShutdown, finals := s.finals + 1 }
  | .remotePause => some { s with mgr := s.mgr.applyRemotePause }
  | .remoteResume => some { s with mgr := s.mgr.applyRemoteResume }
  | .setRow v => some { s with row := v }
  | .readRow => if s.mgr.shutdown then none else some { s with reads := s.reads ++ [s.row] }
  | .storeRead k =>
    (s.reads[k]?).map fun v => { s with mgr := s.mgr.refresh v, reads := s.reads.eraseIdx k }
  | .beginPark run =>
    match s.mgr.beginPark with
    | some ch => some { s with parked := (run, ch) :: s.parked }
    | none => some s
  | .wake run ch =>
    if (run, ch) ∈ s.parked ∧ ch ∈ s.mgr.closed then
      some { s with parked := s.parked.erase (run, ch) }
    else none

/-- A refresh stores `running` exactly when the state is running, and a pause stores its final
state only while the runtime has not been resumed. -/
def InStep (s : Replica) : Label → Prop
  | .storeRead k => s.mgr.shutdown = false →
      (s.reads[k]?.getD s.mgr.state = .running ↔ s.mgr.state = .running)
  | .finalizePause => s.mgr.state ≠ .running
  | _ => True

instance (s : Replica) : (a : Label) → Decidable (InStep s a)
  | .storeRead k => inferInstanceAs (Decidable (s.mgr.shutdown = false →
      (s.reads[k]?.getD s.mgr.state = .running ↔ s.mgr.state = .running)))
  | .finalizePause => inferInstanceAs (Decidable (s.mgr.state ≠ .running))
  | .pause | .resume | .pauseForShutdown | .remotePause | .remoteResume | .setRow _ | .readRow
  | .beginPark _ | .wake _ _ => .isTrue trivial

/-- The pause signal is closed exactly when the state is not running, no signal was closed twice,
and while the state is running nobody waits on a signal that is still open. -/
structure Agree (s : Replica) : Prop where
  signal : s.mgr.pauseCh ∈ s.mgr.closed ↔ s.mgr.state ≠ .running
  once : s.mgr.closed.Nodup
  woken : s.mgr.state = .running → ∀ p ∈ s.parked, p.2 ∈ s.mgr.closed

/-- A run waits on a signal that is closed, or on the one the next resume closes. -/
structure Sound (s : Replica) : Prop where
  coherent : s.mgr.Coherent
  waits : ∀ p ∈ s.parked, p.2 ∈ s.mgr.closed ∨ p.2 = s.mgr.resumeCh ∧ s.mgr.state ≠ .running

theorem Sound.agree {s : Replica} (h : Sound s) : Agree s where
  signal := h.coherent.pauseCh
  once := h.coherent.once
  woken := fun hrun p hp => (h.waits p hp).resolve_right fun hw => hw.2 hrun

variable {s s' : Replica} {a : Label}

/-- A section that leaves the resume signal alone. -/
theorem Sound.keep (h : Sound s) {m : Manager} (hm : m.Coherent)
    (hresume : m.resumeCh = s.mgr.resumeCh) (hclosed : ∀ c ∈ s.mgr.closed, c ∈ m.closed)
    (hstate : s.mgr.state ≠ .running → m.state ≠ .running) (finals : Nat)
    (reads : List RuntimeState) : Sound { s with mgr := m, finals, reads } :=
  ⟨hm, fun p hp => (h.waits p hp).imp (hclosed _) fun hw => ⟨hw.1.trans hresume.symm, hstate hw.2⟩⟩

theorem Sound.closePauseCh (h : Sound s) (hrun : s.mgr.state = .running) {state : RuntimeState}
    (hstate : state ≠ .running) (shutdown : Bool) (finals : Nat) :
    Sound { s with mgr := { s.mgr.closePauseCh state with shutdown }, finals } :=
  h.keep ((h.coherent.closePauseCh hrun hstate).setState Iff.rfl shutdown) rfl
    (fun _ hc => List.mem_append_left _ hc) (fun _ => hstate) finals s.reads

/-- Every run that waits on the resume signal finds it closed. -/
theorem Sound.wake (h : Sound s) : Sound { s with mgr := s.mgr.wake } := by
  refine ⟨h.coherent.wake, fun p hp => .inl ?_⟩
  obtain hc | ⟨hc, -⟩ := h.waits p hp
  · exact List.mem_append_left _ hc
  · rw [hc]
    exact List.mem_append_right _ List.mem_cons_self

theorem sound_step (hs : Sound s) (hin : InStep s a) (h : step s a = some s') : Sound s' := by
  cases a with
  | pause =>
    rw [step, Manager.pause] at h
    split_ifs at h with hrun
    · cases h
      exact hs
    · cases h
      exact hs.closePauseCh (not_not.mp hrun) (by decide) s.mgr.shutdown (s.finals + 1)
  | finalizePause =>
    rw [step] at h
    split at h
    · cases h
    · cases h
      have hsame : RuntimeState.paused = .running ↔ s.mgr.state = .running :=
        iff_of_false (by decide) hin
      exact hs.keep (hs.coherent.setState hsame s.mgr.shutdown) rfl (fun _ => id)
        (fun _ => nofun) (s.finals - 1) s.reads
  | resume =>
    rw [step, Manager.resume] at h
    split_ifs at h
    · cases h
      exact hs
    · cases h
      exact hs
    · cases h
      exact hs.wake
  | pauseForShutdown =>
    cases h
    rw [Manager.pauseForShutdown]
    split
    · next hrun => exact hs.closePauseCh hrun (by decide) true (s.finals + 1)
    · exact hs.keep (hs.coherent.setState Iff.rfl true) rfl (fun _ => id) id (s.finals + 1) s.reads
  | remotePause =>
    cases h
    rw [Manager.applyRemotePause]
    split
    · exact hs
    · next hrun => exact hs.closePauseCh (not_not.mp hrun) (by decide) s.mgr.shutdown s.finals
  | remoteResume =>
    cases h
    rw [Manager.applyRemoteResume]
    split
    · exact hs
    · exact hs.wake
  | setRow v =>
    cases h
    exact ⟨hs.coherent, hs.waits⟩
  | readRow =>
    rw [step] at h
    split at h
    · cases h
    · cases h
      exact ⟨hs.coherent, hs.waits⟩
  | storeRead k =>
    obtain ⟨v, hv, rfl⟩ := Option.map_eq_some_iff.mp h
    rw [Manager.refresh]
    split
    · exact ⟨hs.coherent, hs.waits⟩
    · next hshut =>
      have hsame := hin (Bool.eq_false_iff.mpr hshut)
      rw [hv, Option.getD_some] at hsame
      exact hs.keep (hs.coherent.setState hsame s.mgr.shutdown) rfl (fun _ => id)
        (fun hne heq => hne (hsame.mp heq)) s.finals (s.reads.eraseIdx k)
  | beginPark run =>
    rw [step, Manager.beginPark] at h
    split_ifs at h with hrun
    · cases h
      exact hs
    · cases h
      refine ⟨hs.coherent, List.forall_mem_cons.mpr ⟨.inr ⟨rfl, hrun⟩, hs.waits⟩⟩
  | wake run ch =>
    rw [step] at h
    split at h
    · cases h
      exact ⟨hs.coherent, fun p hp => hs.waits p (List.mem_of_mem_erase hp)⟩
    · cases h

/-- While refreshes and pauses are in step with the state: the pause signal is closed exactly
when the state is not running, no channel is closed twice, and in a running runtime every
run that parked finds its resume signal closed. -/
theorem signals_agree (h : Run step InStep {} s) : Agree s :=
  (h.invariant (fun _ _ _ hs hin he => sound_step hs hin he)
    ⟨Manager.coherent_init, nofun⟩).agree

/-- A pause made here and one made elsewhere, each with a refresh and a run that parks and is
woken by the resume. -/
theorem signals_agree_two_pauses :
    ∃ s, Run step InStep {} s ∧ s.mgr.state = .running ∧ s.mgr.closed = [0, 1, 2, 3] ∧
      s.parked = [(1, 3)] ∧ Agree s := by
  obtain ⟨s, hrun, hstate, hclosed, hparked⟩ := exists_run_guarded step InStep {}
    [.pause, .setRow .pausing, .beginPark 0, .readRow, .storeRead 0, .finalizePause, .resume,
      .setRow .running, .wake 0 1, .remotePause, .setRow .paused, .readRow, .beginPark 1,
      .storeRead 0, .remoteResume]
    (p := fun s => s.mgr.state = .running ∧ s.mgr.closed = [0, 1, 2, 3] ∧ s.parked = [(1, 3)])
    (by decide +kernel)
  exact ⟨s, hrun, hstate, hclosed, hparked, signals_agree hrun⟩

/-- A refresh reads another replica's pause before its event comes: the state is paused with
the pause signal open. A run parks, the row is set back and a refresh stores that too, so the
events find nothing to do: the runtime runs and the run stays parked. And a refresh that
stores an old `running` after a pause lets a second pause close the signal again. -/
theorem signals_disagree :
    (∃ s, Run step Any {} s ∧ s.mgr.state = .paused ∧ s.mgr.pauseCh ∉ s.mgr.closed) ∧
    (∃ s, Run step Any {} s ∧ s.mgr.state = .running ∧ s.row = .running ∧
      ∃ p ∈ s.parked, p.2 ∉ s.mgr.closed) ∧
    ∃ s, Run step Any {} s ∧ ¬ s.mgr.closed.Nodup := by
  refine ⟨?_, ?_, ?_⟩
  · exact exists_run step {} [.setRow .paused, .readRow, .storeRead 0] (by decide +kernel)
  · exact exists_run step {} [.setRow .paused, .readRow, .storeRead 0, .beginPark 0, .remotePause,
      .setRow .running, .readRow, .storeRead 0, .remoteResume] (by decide +kernel)
  · exact exists_run step {} [.readRow, .pause, .storeRead 0, .pause] (by decide +kernel)

end Replica

end Loomcycle.Pause
