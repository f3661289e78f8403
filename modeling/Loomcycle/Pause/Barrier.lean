import Loomcycle.Pause.Manager

/-! The pause barrier of a single replica. A run parks in steps: it takes the resume signal,
stores its row as paused, flags itself for the barrier and waits; woken, it clears the flag
and stores its row as running. `Pause` waits until every registered run is flagged, stores
the final state and returns; `Resume` lists the paused rows, wakes the runs and then writes
those rows back one by one. -/

namespace Loomcycle.Pause
open Lib.Transition

inductive PauseRow
  | running
  | paused
deriving DecidableEq, Repr

inductive ParkStage
  | idle
  | begun (resume : Nat)
  | stored (resume : Nat)
  | blocked (resume : Nat)
  | left
  | cleared
deriving DecidableEq, Repr

/-- A run of this process: its entry with the barrier's flag, where it stands in `Park` or
`PauseIdle`, and its stored pause state. -/
structure LiveRun where
  registered : Bool := true
  cancelled : Bool := false
  parked : Bool := false
  stage : ParkStage := .idle
  row : PauseRow := .running
deriving DecidableEq, Repr

namespace LiveRun

inductive Label
  | beginPark
  | storePaused
  | markParked
  /-- the select returns: the resume signal is closed, or the run is cancelled -/
  | wake
  /-- a run that was recorded as paused while it waited gets what it waits for -/
  | moveOn
  | endPark
  | storeRunning
  | cancel
  | deregister
deriving DecidableEq, Repr

def step (m : Manager) (r : LiveRun) (a : Label) : Option LiveRun :=
  match a, r.stage with
  | .beginPark, .idle =>
    if r.registered then
      match m.beginPark with
      | none => some r
      | some ch => some { r with stage := .begun ch }
    else none
  | .storePaused, .begun ch => some { r with stage := .stored ch, row := .paused }
  | .markParked, .stored ch => some { r with stage := .blocked ch, parked := r.registered }
  | .wake, .blocked ch =>
    if ch ∈ m.closed ∨ r.cancelled = true then some { r with stage := .left } else none
  | .moveOn, .blocked _ => some { r with stage := .left }
  | .endPark, .left => some { r with stage := .cleared, parked := false }
  | .storeRunning, .cleared => some { r with stage := .idle, row := .running }
  | .cancel, _ => some { r with cancelled := true }
  | .deregister, .idle =>
    if r.registered then some { r with registered := false, parked := false } else none
  | _, _ => none

/-! ## One run -/

/-- A flagged run stands in its park, past the flag. -/
def Flagged (r : LiveRun) : Prop :=
  r.parked = true → (∃ ch, r.stage = .blocked ch) ∨ r.stage = .left

/-- In a pause whose resume signal is `ch`, a run that is not cancelled parks on it, if at
all, and its row is paused once it stored it. -/
def Fits (ch : Nat) (r : LiveRun) : Prop :=
  r.cancelled = true ∨
    match r.stage with
    | .idle => True
    | .begun c => c = ch
    | .stored c => c = ch ∧ r.row = .paused
    | .blocked c => c = ch ∧ r.row = .paused
    | .left | .cleared => False

/-- What a step of a run does, with what it found. -/
inductive Effect (m : Manager) (r : LiveRun) : Label → LiveRun → Prop
  | refuse : Effect m r .beginPark r
  | beginPark {ch : Nat} (hidle : r.stage = .idle) (hch : m.beginPark = some ch) :
      Effect m r .beginPark { r with stage := .begun ch }
  | storePaused {ch : Nat} (hstage : r.stage = .begun ch) :
      Effect m r .storePaused { r with stage := .stored ch, row := .paused }
  | markParked {ch : Nat} (hstage : r.stage = .stored ch) :
      Effect m r .markParked { r with stage := .blocked ch, parked := r.registered }
  | wake {ch : Nat} (hstage : r.stage = .blocked ch)
      (hwake : ch ∈ m.closed ∨ r.cancelled = true) : Effect m r .wake { r with stage := .left }
  | moveOn {ch : Nat} (hstage : r.stage = .blocked ch) :
      Effect m r .moveOn { r with stage := .left }
  | endPark (hstage : r.stage = .left) :
      Effect m r .endPark { r with stage := .cleared, parked := false }
  | storeRunning (hstage : r.stage = .cleared) :
      Effect m r .storeRunning { r with stage := .idle, row := .running }
  | cancel : Effect m r .cancel { r with cancelled := true }
  | deregister (hidle : r.stage = .idle) :
      Effect m r .deregister { r with registered := false, parked := false }

variable {m : Manager} {r r' : LiveRun} {a : Label} {ch : Nat}

theorem effect_of_step (h : r.step m a = some r') : Effect m r a r' := by
  unfold step at h
  split at h
  · next hidle =>
    split at h
    · split at h
      · cases h
        exact .refuse
      · next ch hch =>
        cases h
        exact .beginPark hidle hch
    · cases h
  · next hstage => cases h; exact .storePaused hstage
  · next hstage => cases h; exact .markParked hstage
  · next hstage =>
    split at h
    · next hwake => cases h; exact .wake hstage hwake
    · cases h
  · next hstage => cases h; exact .moveOn hstage
  · next hstage => cases h; exact .endPark hstage
  · next hstage => cases h; exact .storeRunning hstage
  · cases h; exact .cancel
  · next hidle =>
    split at h
    · cases h; exact .deregister hidle
    · cases h
  · cases h

theorem Flagged.not_parked (hr : r.Flagged) (hleft : r.stage ≠ .left)
    (hblocked : ∀ ch, r.stage ≠ .blocked ch) : r.parked ≠ true := by
  intro hparked
  obtain ⟨ch, hch⟩ | hch := hr hparked
  · exact hblocked ch hch
  · exact hleft hch

theorem flagged_step (hr : r.Flagged) (h : r.step m a = some r') : r'.Flagged := by
  cases effect_of_step h with
  | refuse => exact hr
  | cancel => exact hr
  | beginPark hidle | storePaused hidle | storeRunning hidle =>
    exact fun hparked => absurd hparked (hr.not_parked (by simp [hidle]) (by simp [hidle]))
  | markParked => exact fun _ => .inl ⟨_, rfl⟩
  | wake => exact fun _ => .inr rfl
  | moveOn => exact fun _ => .inr rfl
  | endPark | deregister => exact nofun

/-- While the signal of the pause is open, a run only goes on towards it. -/
theorem fits_step (hopen : m.resumeCh ∉ m.closed) (ha : a ≠ .moveOn) (hr : r.Fits m.resumeCh)
    (h : r.step m a = some r') : r'.Fits m.resumeCh := by
  obtain hcancel | hr := hr
  · -- no step takes a cancellation back
    cases effect_of_step h with
    | cancel => exact .inl rfl
    | _ => exact .inl hcancel
  cases effect_of_step h with
  | refuse => exact .inr hr
  | cancel => exact .inl rfl
  | beginPark _ hch =>
    rw [Manager.beginPark] at hch
    split at hch
    · cases hch
    · exact .inr (Option.some.inj hch).symm
  | storePaused hstage =>
    rw [hstage] at hr
    exact .inr ⟨hr, rfl⟩
  | markParked hstage =>
    rw [hstage] at hr
    exact .inr hr
  | wake hstage hwake =>
    rw [hstage] at hr
    obtain hclosed | hcancel := hwake
    · exact absurd (hr.1 ▸ hclosed) hopen
    · exact .inl hcancel
  | moveOn => exact absurd rfl ha
  | endPark hstage =>
    rw [hstage] at hr
    exact hr.elim
  | storeRunning => exact .inr trivial
  | deregister hidle =>
    refine .inr ?_
    trivial

/-- A run waiting on the open signal of the pause goes on waiting, unless it is cancelled. -/
theorem blocked_step (hopen : m.resumeCh ∉ m.closed) (ha : a ≠ .moveOn)
    (hr : r.registered = true → r.cancelled = false →
      r.stage = .blocked m.resumeCh ∧ r.row = .paused)
    (h : r.step m a = some r') (hreg : r'.registered = true) (hcancel : r'.cancelled = false) :
    r'.stage = .blocked m.resumeCh ∧ r'.row = .paused := by
  have hback : r.registered = true ∧ r.cancelled = false := by
    cases effect_of_step h with
    | cancel => cases hcancel
    | deregister => cases hreg
    | _ => exact ⟨hreg, hcancel⟩
  obtain ⟨hstage, hrow⟩ := hr hback.1 hback.2
  cases effect_of_step h with
  | refuse | cancel => exact ⟨hstage, hrow⟩
  | wake hblocked hwake =>
    rw [hstage] at hblocked
    cases hblocked
    obtain hclosed | hcancelled := hwake
    · exact absurd hclosed hopen
    · rw [hback.2] at hcancelled
      cases hcancelled
  | moveOn => exact absurd rfl ha
  | beginPark hother
  | storePaused hother
  | markParked hother
  | endPark hother
  | storeRunning hother
  | deregister hother =>
    rw [hstage] at hother; cases hother

/-- What the flag tells the barrier. -/
theorem Fits.blocked (hr : r.Fits ch) (hflag : r.Flagged) (hparked : r.parked = true)
    (hcancel : r.cancelled = false) : r.stage = .blocked ch ∧ r.row = .paused := by
  have hr := hr.resolve_left (by rw [hcancel]; decide)
  obtain ⟨c, hc⟩ | hc := hflag hparked
  · rw [hc] at hr
    exact ⟨hr.1 ▸ hc, hr.2⟩
  · rw [hc] at hr
    exact hr.elim

end LiveRun

/-! ## The calls -/

inductive PauseStage
  | waiting
  | passed
  | stored
deriving DecidableEq, Repr

/-- A `Pause` past its first section. `ids` are the runs registered when it passed the
barrier, `warned` tells that it gave up waiting. -/
structure PauseCall where
  stage : PauseStage := .waiting
  ids : List Nat := []
  warned : Bool := false
deriving DecidableEq, Repr

/-- A `Resume` that has listed the paused rows. -/
structure ResumeCall where
  listed : List Nat
  woke : Bool := false
deriving DecidableEq, Repr

/-- The manager, the runs by their number, and the calls in progress. `confirmed` holds the
runs of the last pause that returned without a warning, until `Resume` is called. -/
structure Quiesce where
  mgr : Manager := {}
  runs : List LiveRun := []
  pauses : List PauseCall := []
  resumes : List ResumeCall := []
  confirmed : Option (List Nat) := none
deriving DecidableEq, Repr

namespace Quiesce

def registeredRuns (s : Quiesce) : List Nat :=
  (List.range s.runs.length).filter fun i => s.runs[i]?.any (·.registered)

def runsQuiesced (s : Quiesce) : Bool :=
  s.runs.all fun r => !r.registered || r.parked

def listPausedRuns (s : Quiesce) : List Nat :=
  (List.range s.runs.length).filter fun i => s.runs[i]?.any (·.row == .paused)

inductive Label
  | pause
  | barrier (k : Nat)
  /-- the deadline passes, or the caller cancels, with a run not parked -/
  | giveUp (k : Nat)
  | finalizePause (k : Nat)
  | pauseReturn (k : Nat)
  | resume
  | resumeWake (k : Nat)
  | resumeFlip (k : Nat)
  | resumeReturn (k : Nat)
  | register
  | run (i : Nat) (a : LiveRun.Label)
deriving DecidableEq, Repr

def setPause (s : Quiesce) (k : Nat) (c : PauseCall) : Quiesce :=
  { s with pauses := s.pauses.set k c }

def step (s : Quiesce) : Label → Option Quiesce
  | .pause =>
    match s.mgr.pause with
    | .ok m => some { s with mgr := m, pauses := s.pauses ++ [{}] }
    | .error _ => some s
  | .barrier k =>
    match s.pauses[k]? with
    | some ⟨.waiting, _, _⟩ =>
      if s.runsQuiesced then some (s.setPause k ⟨.passed, s.registeredRuns, false⟩) else none
    | _ => none
  | .giveUp k =>
    match s.pauses[k]? with
    | some ⟨.waiting, _, _⟩ => some (s.setPause k ⟨.passed, s.registeredRuns, true⟩)
    | _ => none
  | .finalizePause k =>
    match s.pauses[k]? with
    | some ⟨.passed, ids, warned⟩ =>
      some { s.setPause k ⟨.stored, ids, warned⟩ with mgr := s.mgr.finalizePause }
    | _ => none
  | .pauseReturn k =>
    match s.pauses[k]? with
    | some ⟨.stored, ids, warned⟩ =>
      some { s with
        pauses := s.pauses.eraseIdx k
        confirmed := if warned then none else some ids }
    | _ => none
  | .resume =>
    if s.mgr.state ≠ .paused then none
    else some { s with resumes := s.resumes ++ [{ listed := s.listPausedRuns }], confirmed := none }
  | .resumeWake k =>
    match s.resumes[k]? with
    | some ⟨listed, false⟩ =>
      match s.mgr.resume with
      | .ok m => some { s with mgr := m, resumes := s.resumes.set k ⟨listed, true⟩ }
      | .error _ => some { s with resumes := s.resumes.eraseIdx k }
    | _ => none
  | .resumeFlip k =>
    match s.resumes[k]? with
    | some ⟨i :: rest, true⟩ =>
      some { s with
        runs := s.runs.modify i fun r => { r with row := .running }
        resumes := s.resumes.set k ⟨rest, true⟩ }
    | _ => none
  | .resumeReturn k =>
    match s.resumes[k]? with
    | some ⟨[], true⟩ => some { s with resumes := s.resumes.eraseIdx k }
    | _ => none
  | .register => some { s with runs := s.runs ++ [{}] }
  | .run i a =>
    match s.runs[i]? with
    | none => none
    | some r => (r.step s.mgr a).map fun r' => { s with runs := s.runs.set i r' }

/-- A pause begins when no run is in a park and no resume is under way, a resume when no pause
is, and no run moves on while it is recorded as paused. -/
def Orderly (s : Quiesce) : Label → Prop
  | .pause => s.mgr.state = .running → (∀ r ∈ s.runs, r.stage = .idle) ∧ s.resumes = []
  | .resume => s.pauses = []
  | .run _ .moveOn => False
  | _ => True

/-- A run that neither ended nor is cancelled waits on the resume signal of this pause, and its
row is paused. -/
def Stopped (s : Quiesce) (i : Nat) : Prop :=
  ∀ r, s.runs[i]? = some r → r.registered = true → r.cancelled = false →
    r.stage = .blocked s.mgr.resumeCh ∧ r.row = .paused

instance (s : Quiesce) : (a : Label) → Decidable (Orderly s a)
  | .pause => inferInstanceAs (Decidable (s.mgr.state = .running →
      (∀ r ∈ s.runs, r.stage = .idle) ∧ s.resumes = []))
  | .resume => inferInstanceAs (Decidable (s.pauses = []))
  | .run _ .moveOn => .isFalse id
  | .run _ .beginPark | .run _ .storePaused | .run _ .markParked | .run _ .wake | .run _ .endPark
  | .run _ .storeRunning | .run _ .cancel | .run _ .deregister | .barrier _ | .giveUp _
  | .finalizePause _ | .pauseReturn _ | .resumeWake _ | .resumeFlip _ | .resumeReturn _
  | .register => .isTrue trivial

/-! ## Whole runs -/

variable {s s' : Quiesce} {a : Label}

/-- A run the barrier was passed with. -/
def Held (s : Quiesce) (i : Nat) : Prop :=
  i < s.runs.length ∧ s.Stopped i

structure Sound (s : Quiesce) : Prop where
  coherent : s.mgr.Coherent
  flags : ∀ r ∈ s.runs, r.Flagged
  apart : s.pauses = [] ∨ s.resumes = []
  resumed : s.mgr.state = .running → s.pauses = [] ∧ s.confirmed = none
  asleep : s.mgr.state ≠ .running → ∀ c ∈ s.resumes, c.woke = false
  fits : s.mgr.state ≠ .running → ∀ r ∈ s.runs, r.Fits s.mgr.resumeCh
  passed : ∀ c ∈ s.pauses, c.stage ≠ .waiting → c.warned = false → ∀ i ∈ c.ids, s.Held i
  confirmed : ∀ ids, s.confirmed = some ids → s.resumes = [] ∧ ∀ i ∈ ids, s.Held i

theorem sound_init : Sound {} :=
  ⟨Manager.coherent_init, nofun, .inl rfl, fun _ => ⟨rfl, rfl⟩, nofun, nofun, nofun, nofun⟩

section

variable (hs : Sound s)
include hs

/-- A pause is declared. -/
theorem sound_pause (hrun : s.mgr.state = .running)
    (hidle : ∀ r ∈ s.runs, r.stage = .idle) (hresumes : s.resumes = []) :
    Sound { s with mgr := s.mgr.closePauseCh .pausing, pauses := s.pauses ++ [{}] } := by
  obtain ⟨hpauses, hconfirmed⟩ := hs.resumed hrun
  refine ⟨hs.coherent.closePauseCh hrun (by decide), hs.flags, .inr hresumes, nofun,
    by simp [hresumes], fun _ r hr => .inr ?_, by simp [hpauses], by simp [hconfirmed]⟩
  rw [hidle r hr]
  trivial

variable {k : Nat} {c : PauseCall}

theorem Sound.of_pause (hc : c ∈ s.pauses) : s.mgr.state ≠ .running ∧ s.resumes = [] := by
  have hpauses := List.ne_nil_of_mem hc
  exact ⟨fun hrun => hpauses (hs.resumed hrun).1, hs.apart.resolve_left hpauses⟩

/-- A pause call that goes on, in a pause. -/
theorem sound_setPause {c' : PauseCall} (hget : s.pauses[k]? = some c)
    {state : RuntimeState} (hstate : state ≠ .running)
    (hc : c'.warned = false → ∀ i ∈ c'.ids, s.Held i) :
    Sound { s with mgr := { s.mgr with state }, pauses := s.pauses.set k c' } := by
  obtain ⟨hpausing, hresumes⟩ := hs.of_pause (List.mem_of_getElem? hget)
  refine ⟨hs.coherent.setState (iff_of_false hstate hpausing) s.mgr.shutdown, hs.flags,
    .inr hresumes, fun hrun => absurd hrun hstate,
    fun _ => hs.asleep hpausing, fun _ => hs.fits hpausing, ?_, hs.confirmed⟩
  intro d hd hstage hwarned
  obtain hd | rfl := List.mem_or_eq_of_mem_set hd
  · exact hs.passed d hd hstage hwarned
  · exact hc hwarned

/-- The barrier is passed with every registered run flagged. -/
theorem held_of_quiesced (hpausing : s.mgr.state ≠ .running)
    (hquiesced : s.runsQuiesced = true) : ∀ i ∈ s.registeredRuns, s.Held i := by
  intro i hi
  refine ⟨List.mem_range.mp (List.mem_of_mem_filter hi), fun r hget hreg hcancel => ?_⟩
  have hmem := List.mem_of_getElem? hget
  have hparked := List.all_eq_true.mp hquiesced r hmem
  rw [hreg] at hparked
  exact (hs.fits hpausing r hmem).blocked (hs.flags r hmem) hparked hcancel

/-- What a change to the runs owes: each keeps its place in the pause. -/
theorem Sound.setRuns {runs : List LiveRun} (hlen : s.runs.length ≤ runs.length)
    (hflags : ∀ r ∈ runs, r.Flagged)
    (hfits : s.mgr.state ≠ .running → ∀ r ∈ runs, r.Fits s.mgr.resumeCh)
    (hstopped : s.mgr.state ≠ .running → ∀ i, s.Held i → Stopped { s with runs := runs } i) :
    Sound { s with runs := runs } := by
  refine ⟨hs.coherent, hflags, hs.apart, hs.resumed, hs.asleep, hfits,
    fun c hc hstage hwarned i hi => ?_, fun ids hids => ⟨(hs.confirmed ids hids).1, fun i hi => ?_⟩⟩
  · have hheld := hs.passed c hc hstage hwarned i hi
    exact ⟨Nat.lt_of_lt_of_le hheld.1 hlen, hstopped (hs.of_pause hc).1 i hheld⟩
  · have hheld := (hs.confirmed ids hids).2 i hi
    refine ⟨Nat.lt_of_lt_of_le hheld.1 hlen, hstopped (fun hrun => ?_) i hheld⟩
    rw [(hs.resumed hrun).2] at hids
    cases hids

theorem sound_run {i : Nat} {b : LiveRun.Label} (hb : b ≠ .moveOn) {r r' : LiveRun}
    (hget : s.runs[i]? = some r) (h : r.step s.mgr b = some r') :
    Sound { s with runs := s.runs.set i r' } := by
  have hmem := List.mem_of_getElem? hget
  refine hs.setRuns (Nat.le_of_eq (List.length_set ..).symm) (fun q hq => ?_) (fun hstate q hq => ?_) ?_
  · obtain hq | rfl := List.mem_or_eq_of_mem_set hq
    · exact hs.flags q hq
    · exact LiveRun.flagged_step (hs.flags r hmem) h
  · obtain hq | rfl := List.mem_or_eq_of_mem_set hq
    · exact hs.fits hstate q hq
    · exact LiveRun.fits_step hs.coherent.resumeCh hb (hs.fits hstate r hmem) h
  · intro _ j hj q hq
    rw [List.getElem?_set] at hq
    split at hq
    · next hij =>
      split at hq
      · cases hq
        exact LiveRun.blocked_step hs.coherent.resumeCh hb (hj.2 r (hij ▸ hget)) h
      · cases hq
    · exact hj.2 q hq

/-- A run that registers now is not one the barrier was passed with. -/
theorem sound_register : Sound { s with runs := s.runs ++ [{}] } := by
  refine hs.setRuns (by rw [List.length_append]; exact Nat.le_add_right ..) ?_ ?_ ?_
  · exact List.forall_mem_append.mpr ⟨hs.flags, List.forall_mem_singleton.mpr nofun⟩
  · intro hstate
    exact List.forall_mem_append.mpr
      ⟨hs.fits hstate, List.forall_mem_singleton.mpr (.inr trivial)⟩
  · intro _ i hheld r hget
    rw [List.getElem?_append_left hheld.1] at hget
    exact hheld.2 r hget

/-- A resume writes a row back: the pause it ended is over. -/
theorem sound_flip (hrun : s.mgr.state = .running) (i : Nat) :
    Sound { s with runs := s.runs.modify i fun r => { r with row := .running } } := by
  refine hs.setRuns (Nat.le_of_eq (List.length_modify ..).symm) (fun r hr => ?_) (fun hstate => absurd hrun hstate)
    (fun hstate => absurd hrun hstate)
  obtain ⟨j, hj⟩ := List.getElem?_of_mem hr
  rw [List.getElem?_modify] at hj
  obtain ⟨q, hq, rfl⟩ := Option.map_eq_some_iff.mp hj
  have hflag := hs.flags q (List.mem_of_getElem? hq)
  split
  · exact hflag
  · exact hflag

/-- A change to the resumes in progress that none of them can tell from a pause. -/
theorem Sound.setResumes {resumes : List ResumeCall} {confirmed : Option (List Nat)}
    (hpauses : s.pauses = []) (hasleep : s.mgr.state ≠ .running → ∀ c ∈ resumes, c.woke = false)
    (hconfirmed : confirmed = none) : Sound { s with resumes, confirmed } := by
  refine ⟨hs.coherent, hs.flags, .inl hpauses, fun _ => ⟨hpauses, hconfirmed⟩, hasleep, hs.fits,
    hs.passed, by simp [hconfirmed]⟩

/-- While a resume is in progress no pause is, and none is confirmed. -/
theorem Sound.of_resume {c : ResumeCall} (hget : s.resumes[k]? = some c) :
    s.pauses = [] ∧ s.confirmed = none := by
  have hresumes : s.resumes ≠ [] := fun hnil => by rw [hnil] at hget; cases hget
  refine ⟨hs.apart.resolve_right hresumes, ?_⟩
  cases hconfirmed : s.confirmed with
  | none => rfl
  | some ids => exact absurd (hs.confirmed ids hconfirmed).1 hresumes

/-- A resume wakes the runs. -/
theorem sound_wake (hpauses : s.pauses = []) (hconfirmed : s.confirmed = none)
    (resumes : List ResumeCall) : Sound { s with mgr := s.mgr.wake, resumes } := by
  refine ⟨hs.coherent.wake, hs.flags, .inl hpauses, fun _ => ⟨hpauses, hconfirmed⟩,
    fun hstate => absurd rfl hstate, fun hstate => absurd rfl hstate, by simp [hpauses],
    by simp [hconfirmed]⟩

theorem sound_pauseReturn {ids : List Nat} {warned : Bool}
    (hget : s.pauses[k]? = some ⟨.stored, ids, warned⟩) : Sound { s with
      pauses := s.pauses.eraseIdx k
      confirmed := if warned then none else some ids } := by
  have hmem := List.mem_of_getElem? hget
  obtain ⟨hpausing, hresumes⟩ := hs.of_pause hmem
  refine ⟨hs.coherent, hs.flags, .inr hresumes, fun hrun => absurd hrun hpausing, hs.asleep,
    hs.fits, fun c hc => hs.passed c (List.mem_of_mem_eraseIdx hc), fun ids' hids => ⟨hresumes, ?_⟩⟩
  split at hids
  · cases hids
  · next hwarned =>
    cases hids
    exact hs.passed _ hmem nofun (Bool.eq_false_iff.mpr hwarned)

theorem sound_step (ho : Orderly s a) (h : step s a = some s') : Sound s' := by
  cases a <;> rw [step] at h
  case pause =>
    rw [Manager.pause] at h
    split at h
    · next m hm =>
      split at hm
      · cases hm
      · next hrun =>
        cases hm
        cases h
        obtain ⟨hidle, hresumes⟩ := ho (not_not.mp hrun)
        exact sound_pause hs (not_not.mp hrun) hidle hresumes
    · cases h
      exact hs
  case barrier k =>
    split at h
    · next hget =>
      split at h
      · next hquiesced =>
        cases h
        have hpausing := (hs.of_pause (List.mem_of_getElem? hget)).1
        exact sound_setPause hs hget hpausing fun _ => held_of_quiesced hs hpausing hquiesced
      · cases h
    · cases h
  case giveUp k =>
    split at h
    · next hget =>
      cases h
      have hpausing := (hs.of_pause (List.mem_of_getElem? hget)).1
      exact sound_setPause hs hget hpausing nofun
    · cases h
  case finalizePause k =>
    split at h
    · next ids warned hget =>
      cases h
      have hpassed := hs.passed _ (List.mem_of_getElem? hget) nofun
      exact sound_setPause hs hget (by decide) hpassed
    · cases h
  case pauseReturn k =>
    split at h
    · next hget =>
      cases h
      exact sound_pauseReturn hs hget
    · cases h
  case resume =>
    split at h
    · cases h
    · cases h
      refine hs.setResumes ho (fun hstate => ?_) rfl
      exact List.forall_mem_append.mpr ⟨hs.asleep hstate, List.forall_mem_singleton.mpr rfl⟩
  case resumeWake k =>
    split at h
    · next hget =>
      obtain ⟨hpauses, hconfirmed⟩ := hs.of_resume hget
      rw [Manager.resume] at h
      split at h
      · next m hm =>
        split_ifs at hm
        cases hm
        cases h
        exact sound_wake hs hpauses hconfirmed _
      · cases h
        exact hs.setResumes hpauses
          (fun hstate c hc => hs.asleep hstate c (List.mem_of_mem_eraseIdx hc)) hconfirmed
    · cases h
  case resumeFlip k =>
    split at h
    · next i rest hget =>
      cases h
      obtain ⟨hpauses, hconfirmed⟩ := hs.of_resume hget
      -- a resume that has woken the runs is not answered by a pause before it returns
      have hrun : s.mgr.state = .running := by
        by_contra hstate
        cases hs.asleep hstate _ (List.mem_of_getElem? hget)
      exact (sound_flip hs hrun i).setResumes hpauses (fun hstate => absurd hrun hstate) hconfirmed
    · cases h
  case resumeReturn k =>
    split at h
    · next hget =>
      cases h
      obtain ⟨hpauses, hconfirmed⟩ := hs.of_resume hget
      exact hs.setResumes hpauses
        (fun hstate c hc => hs.asleep hstate c (List.mem_of_mem_eraseIdx hc)) hconfirmed
    · cases h
  case register =>
    cases h
    exact sound_register hs
  case run i b =>
    split at h
    · cases h
    · next r hget =>
      obtain ⟨r', hstep, rfl⟩ := Option.map_eq_some_iff.mp h
      refine sound_run hs (fun hb => ?_) hget hstep
      rw [hb] at ho
      exact ho

end

/-- When pauses, resumes and parks follow one another: after a pause that returned without a
warning, and until `Resume` is called, the runtime is not running, and every run that was
registered when the barrier was passed, and has not ended, waits on the open resume signal of
this pause with its row stored as paused. -/
theorem quiesced_after_pause (h : Run step Orderly {} s) {ids : List Nat}
    (hconfirmed : s.confirmed = some ids) :
    s.mgr.state ≠ .running ∧ s.mgr.resumeCh ∉ s.mgr.closed ∧ ∀ i ∈ ids, s.Stopped i := by
  have hs := h.invariant (fun _ _ _ hs ho he => sound_step hs ho he) sound_init
  refine ⟨fun hrun => ?_, hs.coherent.resumeCh, fun i hi => ((hs.confirmed ids hconfirmed).2 i hi).2⟩
  rw [(hs.resumed hrun).2] at hconfirmed
  cases hconfirmed

/-- What a run does to park, and what it does once its select returned. -/
def parks (i : Nat) : List Label :=
  [.run i .beginPark, .run i .storePaused, .run i .markParked]

def unparks (i : Nat) : List Label :=
  [.run i .wake, .run i .endPark, .run i .storeRunning]

/-- Two cycles of pause and resume with one run. -/
theorem quiesced_after_pause_twice :
    ∃ s, Run step Orderly {} s ∧ s.confirmed = some [0] ∧
      s.runs[0]? = some ⟨true, false, true, .blocked 3, .paused⟩ ∧ ∀ i ∈ [0], s.Stopped i := by
  obtain ⟨s, hrun, hconfirmed, hrow⟩ := exists_run_guarded step Orderly {}
    ([.register, .pause] ++ parks 0 ++
      [.barrier 0, .finalizePause 0, .pauseReturn 0, .resume, .resumeWake 0] ++ unparks 0 ++
      [.resumeFlip 0, .resumeReturn 0, .pause] ++ parks 0 ++
      [.barrier 0, .finalizePause 0, .pauseReturn 0])
    (p := fun s => s.confirmed = some [0] ∧
      s.runs[0]? = some ⟨true, false, true, .blocked 3, .paused⟩) (by decide +kernel)
  obtain ⟨-, -, hstopped⟩ := quiesced_after_pause hrun hconfirmed
  exact ⟨s, hrun, hconfirmed, hrow, hstopped⟩

/-- A run is woken by a resume and has not cleared its flag when the next pause begins: the
barrier counts it as parked, the pause returns without a warning, and the run goes on working
with its row running. And a resume whose rows are still to be written takes the row of a run
that has parked for the next pause back to running. -/
theorem not_quiesced_after_pause :
    (∃ s, Run step Any {} s ∧ s.confirmed = some [0] ∧
      s.runs[0]? = some ⟨true, false, false, .idle, .running⟩) ∧
    ∃ s, Run step Any {} s ∧ s.confirmed = some [0] ∧
      s.runs[0]? = some ⟨true, false, true, .blocked 3, .running⟩ := by
  constructor
  · exact exists_run step {}
      ([.register, .pause] ++ parks 0 ++
        [.barrier 0, .finalizePause 0, .pauseReturn 0, .resume, .resumeWake 0, .resumeFlip 0,
          .resumeReturn 0, .pause, .barrier 0, .finalizePause 0, .pauseReturn 0] ++
        unparks 0) (by decide +kernel)
  · exact exists_run step {}
      ([.register, .pause] ++ parks 0 ++
        [.barrier 0, .finalizePause 0, .pauseReturn 0, .resume, .resumeWake 0] ++ unparks 0 ++
        [.pause] ++ parks 0 ++
        [.barrier 0, .finalizePause 0, .pauseReturn 0, .resumeFlip 0]) (by decide +kernel)

end Quiesce

end Loomcycle.Pause
