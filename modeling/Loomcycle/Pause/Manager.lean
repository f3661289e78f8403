import Loomcycle.Lib.Transition
import Mathlib.Data.List.Nodup

/-! The pause manager: one atomic state and two broadcast channels, the pause signal, closed
while the runtime is not running, and the resume signal, closed to wake the runs parked on
it. Each function is one critical section. A channel is a number; closing one twice, at
which the process panics, shows as a repetition in `closed`. -/

namespace Loomcycle.Pause
inductive RuntimeState
  | running
  | pausing
  | paused
deriving DecidableEq, Repr

inductive PauseError
  | errAlreadyPausing
  | errNotPaused
  | shuttingDown
deriving DecidableEq, Repr

def PauseError.message : PauseError → String
  | .errAlreadyPausing => "pause: runtime is already pausing or paused"
  | .errNotPaused => "pause: runtime is not paused"
  | .shuttingDown => "pause: runtime is not paused: the runtime is shutting down"

structure Manager where
  state : RuntimeState := .running
  shutdown : Bool := false
  pauseCh : Nat := 0
  resumeCh : Nat := 1
  closed : List Nat := []
  fresh : Nat := 2
deriving DecidableEq, Repr

namespace Manager

def closePauseCh (m : Manager) (state : RuntimeState) : Manager :=
  { m with state, closed := m.closed ++ [m.pauseCh] }

/-- A new pause signal, and the runs parked on the old resume signal are woken. -/
def wake (m : Manager) : Manager :=
  { m with
    state := .running
    pauseCh := m.fresh
    resumeCh := m.fresh + 1
    closed := m.closed ++ [m.resumeCh]
    fresh := m.fresh + 2 }

/-- The section that declares a pause. -/
def pause (m : Manager) : Except PauseError Manager :=
  if m.state ≠ .running then .error .errAlreadyPausing else .ok (m.closePauseCh .pausing)

/-- The store of the final state, which is outside the lock. -/
def finalizePause (m : Manager) : Manager :=
  { m with state := .paused }

/-- The section that resumes, with its check of the state. -/
def resume (m : Manager) : Except PauseError Manager :=
  if m.shutdown then .error .shuttingDown
  else if m.state ≠ .paused then .error .errNotPaused
  else .ok m.wake

def applyRemotePause (m : Manager) : Manager :=
  if m.state ≠ .running then m else m.closePauseCh .paused

def applyRemoteResume (m : Manager) : Manager :=
  if m.state = .running ∨ m.shutdown = true then m else m.wake

def pauseForShutdown (m : Manager) : Manager :=
  if m.state = .running then { m.closePauseCh .pausing with shutdown := true }
  else { m with shutdown := true }

/-- `State` stores what it read of the cluster's row. -/
def refresh (m : Manager) (read : RuntimeState) : Manager :=
  if m.shutdown then m else { m with state := read }

/-- The resume signal a run that parks now waits on. -/
def beginPark (m : Manager) : Option Nat :=
  if m.state = .running then none else some m.resumeCh

/-! ## State and signals -/

/-- The pause signal is closed exactly while the runtime is not running, the resume signal is
open, and no channel was closed twice. -/
structure Coherent (m : Manager) : Prop where
  pauseCh : m.pauseCh ∈ m.closed ↔ m.state ≠ .running
  resumeCh : m.resumeCh ∉ m.closed
  once : m.closed.Nodup
  distinct : m.pauseCh ≠ m.resumeCh
  below : ∀ c ∈ m.pauseCh :: m.resumeCh :: m.closed, c < m.fresh

variable {m : Manager}

theorem coherent_init : Coherent {} :=
  ⟨by decide, nofun, List.nodup_nil, by decide, by decide⟩

variable {state : RuntimeState}

/-- A change between two states that are not running, or none. -/
theorem Coherent.setState (h : Coherent m) (hsame : state = .running ↔ m.state = .running)
    (shutdown : Bool) : Coherent { m with state, shutdown } :=
  ⟨h.pauseCh.trans (not_congr hsame.symm), h.resumeCh, h.once, h.distinct, h.below⟩

theorem Coherent.closePauseCh (h : Coherent m) (hrun : m.state = .running)
    (hstate : state ≠ .running) : Coherent (m.closePauseCh state) := by
  have hopen : m.pauseCh ∉ m.closed := fun hc => h.pauseCh.mp hc hrun
  refine ⟨⟨fun _ => hstate, fun _ => List.mem_append_right _ List.mem_cons_self⟩, ?_, ?_,
    h.distinct, ?_⟩
  · intro hc
    obtain hc | hc := List.mem_append.mp hc
    · exact h.resumeCh hc
    · exact h.distinct (List.mem_singleton.mp hc).symm
  · have honce := h.once.concat hopen
    rwa [List.concat_eq_append] at honce
  · intro c hc
    refine h.below c ?_
    simp only [Manager.closePauseCh, List.mem_cons, List.mem_append, List.not_mem_nil] at hc ⊢
    tauto

theorem Coherent.wake (h : Coherent m) : Coherent m.wake := by
  have hbelow : ∀ c ∈ m.closed ++ [m.resumeCh], c < m.fresh := by
    intro c hc
    obtain hc | hc := List.mem_append.mp hc
    · exact h.below c (List.mem_cons_of_mem _ (List.mem_cons_of_mem _ hc))
    · rw [List.mem_singleton.mp hc]
      exact h.below _ (List.mem_cons_of_mem _ List.mem_cons_self)
  refine ⟨⟨fun hc => ?_, fun hstate => absurd rfl hstate⟩, fun hc => ?_, ?_, ?_, ?_⟩
  · exact absurd (hbelow _ hc) (Nat.lt_irrefl m.fresh)
  · exact absurd (hbelow _ hc) (Nat.not_lt.mpr (Nat.le_succ m.fresh))
  · have honce := h.once.concat h.resumeCh
    rwa [List.concat_eq_append] at honce
  · exact Nat.ne_of_lt (Nat.lt_succ_self m.fresh)
  · intro c hc
    obtain rfl | hc := List.mem_cons.mp hc
    · exact Nat.lt_add_of_pos_right (by decide)
    · obtain rfl | hc := List.mem_cons.mp hc
      · exact Nat.lt_succ_self _
      · exact Nat.lt_add_right 2 (hbelow c hc)

end Manager

end Loomcycle.Pause
