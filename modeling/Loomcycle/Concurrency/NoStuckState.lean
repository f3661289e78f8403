import Loomcycle.Concurrency.ProviderRuns

/-! # No stuck state

Whoever waits for a global slot, at a gate or in a lane waits for somebody who does not wait, or
for a reservation that lapses. A waiter in a lane leads to a call that has a slot there, a waiter
at a gate to a call that has a place there, which may wait in a lane, and a waiter for a global
slot to a run that has one, whose calls may wait at a gate or in a lane: the chain has no way
back. A run that waits on its user's cap leads to a run of that user, wherever that one is. -/

namespace Loomcycle.Concurrency
open Lib Lib.Transition

/-- It waits in a queue of the semaphore. -/
def Proc.isQueued (s : Semaphore) : Proc → Bool
  | .userWaiting r w => w ∈ s.userWait.get r.key
  | .waiting w _ _ _ => w ∈ s.slotWaiters
  | .reclaiming w _ => w ∈ s.slotWaiters
  | _ => false

namespace Runtime

variable {s : Runtime} {c : ModelCall} {i : Nat} {p : Proc}

/-- The call blocks: nobody has handed it what it waits for. -/
def waits (s : Runtime) (c : ModelCall) : Bool :=
  match c.stage with
  | .gateWait place => !s.hasPlace c place
  | .laneWait _ slot => !s.hasSlot c slot
  | .reclaiming _ => (s.procOf c).any (Proc.isQueued s.runs.sem)
  | _ => false

/-- The run blocks, in the semaphore or in one of its calls. -/
def runWaits (s : Runtime) (i : Nat) : Bool :=
  s.runs.procs[i]?.any (Proc.isQueued s.runs.sem) || s.calls.any fun c => c.run == i && s.waits c

/-- The call has a place at a gate or a slot in a lane. -/
def occupies (s : Runtime) (c : ModelCall) : Bool :=
  (c.stage.place.any fun x => s.hasPlace c x.number) ||
    (c.stage.slot.any fun x => s.hasSlot c x.number)

/-- Somebody who has what others wait for does not wait. -/
inductive Moving (s : Runtime) : Prop
  | call {c : ModelCall} (mem : c ∈ s.calls) (occupies : s.occupies c = true)
    (awake : s.waits c = false)
  | run {i : Nat} {p : Proc} (proc : s.runs.procs[i]? = some p)
    (holds : p.holdsSlot s.runs.sem = true) (awake : s.runWaits i = false)
  | reservation {k : Nat} {ls : Lease} (mem : ls ∈ (s.lanes k).leases) (idle : ls.busy = false)

/-! ## Who a waiter waits for -/

section

variable (h : s.Linked s.calls)
include h

theorem moving_of_lane {k : Nat} (hw : (s.lanes k).waiters ≠ []) : s.Moving := by
  rcases (h.lanes k).occupied hw with hcalls | ⟨ls, hls, hidle⟩
  · obtain ⟨call, hcall⟩ := List.exists_mem_of_ne_nil _ hcalls
    have hserved : call.id ∈ (s.laneTickets k).served := List.mem_map_of_mem hcall
    obtain ⟨c, hc, hk, x, hx, hid⟩ := h.slots.owner (List.mem_append_left _ hserved)
    have hhas : s.hasSlot c x.number = true := hasSlot_iff.mpr ⟨k, hk, hid ▸ hserved⟩
    refine .call hc (by simp [occupies, hx, hhas]) ?_
    -- the one wait with a number in the lane is over, now that the number is served
    unfold waits
    split
    · next hstage => rw [hstage] at hx; cases hx
    · next hstage =>
      rw [hstage] at hx
      cases hx
      rw [hhas]
      rfl
    · next hstage => rw [hstage] at hx; cases hx
    · rfl
  · exact .reservation hls hidle

/-- A call that waits in a lane is in the lane's queue. -/
theorem lane_of_wait {place : Option Nat} {slot : Nat} (hc : c ∈ s.calls)
    (hstage : c.stage = .laneWait place slot) (hno : s.hasSlot c slot = false) :
    ∃ k, (s.lanes k).waiters ≠ [] := by
  have hslot : c.stage.slot = some ⟨slot, false⟩ := by rw [hstage]; rfl
  obtain ⟨k, hk⟩ := Option.ne_none_iff_exists'.mp
    (h.slots.placed c hc (by rw [hslot]; exact Option.some_ne_none _))
  refine ⟨k, fun hnil => ?_⟩
  rcases List.mem_append.mp (h.slots.mem hc hk hslot) with hs | hw
  · rw [hasSlot_iff.mpr ⟨k, hk, hs⟩] at hno
    cases hno
  · change slot ∈ (s.lanes k).waiters.map LaneWaiter.id at hw
    rw [hnil] at hw
    cases hw

theorem gate_of_wait {place : Nat} (hc : c ∈ s.calls)
    (hstage : c.stage = .gateWait place) (hno : s.hasPlace c place = false) :
    ∃ g, (s.gates g).waiters ≠ [] := by
  have hplace : c.stage.place = some ⟨place, false⟩ := by rw [hstage]; rfl
  obtain ⟨g, hg⟩ := Option.ne_none_iff_exists'.mp
    (h.places.placed c hc (by rw [hplace]; exact Option.some_ne_none _))
  refine ⟨g, fun hnil => ?_⟩
  rcases List.mem_append.mp (h.places.mem hc hg hplace) with hs | hw
  · rw [hasPlace_iff.mpr ⟨g, hg, hs⟩] at hno
    cases hno
  · change place ∈ (s.gates g).waiters.map GateWaiter.id at hw
    rw [hnil] at hw
    cases hw

theorem moving_of_gate {g : Nat} (hw : (s.gates g).waiters ≠ []) : s.Moving := by
  obtain ⟨call, hcall⟩ := List.exists_mem_of_ne_nil _ ((h.gates g).occupied hw)
  have hserved : call.id ∈ (s.gateTickets g).served := List.mem_map_of_mem hcall
  obtain ⟨c, hc, hg, x, hx, hid⟩ := h.places.owner (List.mem_append_left _ hserved)
  have hhas : s.hasPlace c x.number = true := hasPlace_iff.mpr ⟨g, hg, hid ▸ hserved⟩
  cases hwaits : s.waits c with
  | false => exact .call hc (by simp [occupies, hx, hhas]) hwaits
  | true =>
    -- it has its place, so it waits in the lane
    unfold waits at hwaits
    split at hwaits
    · next hstage =>
      rw [hstage] at hx
      cases hx
      rw [hhas] at hwaits
      cases hwaits
    · next hstage =>
      obtain ⟨k, hk⟩ := lane_of_wait h hc hstage (by simpa using hwaits)
      exact moving_of_lane h hk
    · next hstage => rw [hstage] at hx; cases hx
    · cases hwaits

/-- What a call waits for, other than for its run's slot, leads to somebody who moves. -/
theorem moving_of_wait (hc : c ∈ s.calls) (hw : s.waits c = true) :
    s.Moving ∨ ∃ p, s.procOf c = some p ∧ p.isQueued s.runs.sem = true := by
  unfold waits at hw
  split at hw
  · next hstage =>
    obtain ⟨g, hg⟩ := gate_of_wait h hc hstage (by simpa using hw)
    exact .inl (moving_of_gate h hg)
  · next hstage =>
    obtain ⟨k, hk⟩ := lane_of_wait h hc hstage (by simpa using hw)
    exact .inl (moving_of_lane h hk)
  · cases hp : s.procOf c with
    | none => rw [hp] at hw; cases hw
    | some p => exact .inr ⟨p, rfl, by rw [hp] at hw; exact hw⟩
  · cases hw

theorem moving_of_runWaits (hp : s.runs.procs[i]? = some p)
    (hw : s.runWaits i = true) : s.Moving ∨ p.isQueued s.runs.sem = true := by
  rcases Bool.or_eq_true_iff.mp hw with hw | hw
  · rw [hp] at hw
    exact .inr hw
  · obtain ⟨c, hc, hcw⟩ := List.any_eq_true.mp hw
    obtain ⟨hrun, hcw⟩ := Bool.and_eq_true_iff.mp hcw
    refine (moving_of_wait h hc hcw).imp_right fun ⟨q, hq, hqueued⟩ => ?_
    rw [procOf, eq_of_beq hrun, hp] at hq
    cases hq
    exact hqueued

end

theorem not_isQueued_of_holdsSlot {sem : Semaphore} (h : p.holdsSlot sem = true) :
    p.isQueued sem = false := by
  cases p <;> simp_all [Proc.holdsSlot, Proc.isQueued, Semaphore.slotWaiters]

theorem moving_of_slot (h : s.Sound) (hcap : 0 < s.runs.sem.maxConcurrent)
    (hw : s.runs.sem.slotWaiters ≠ []) : s.Moving := by
  have hb := h.tallied.balanced
  have hfull : s.runs.sem.maxConcurrent ≤ s.runs.sem.active :=
    Int.not_lt.mp fun hlt => hw (hb.idle hlt)
  have hactive := hb.accounts.active_eq
  have hpos : 0 < s.runs.procs.countP (Proc.holdsSlot s.runs.sem) := by omega
  obtain ⟨p, hp, hholds⟩ := List.countP_pos_iff.mp hpos
  obtain ⟨i, hi⟩ := List.getElem?_of_mem hp
  cases hwaits : s.runWaits i with
  | false => exact .run hi hholds hwaits
  | true =>
    refine (moving_of_runWaits h.linked hi hwaits).resolve_right fun hq => ?_
    rw [not_isQueued_of_holdsSlot hholds] at hq
    cases hq

/-- A run that waits on its user's cap waits for a run of that user. -/
theorem moving_of_cap {user : UserKey} (h : s.Sound) (hcap : 0 < s.runs.sem.maxConcurrent)
    (hw : s.runs.sem.userWait.get user ≠ []) :
    s.Moving ∨ ∃ i p, s.runs.procs[i]? = some p ∧ p.counted s.runs.sem user = true ∧
      s.runWaits i = false := by
  have hcount := ((h.manned.counts user).resolve_left hw).2
  rw [h.tallied.tallies.count, ← h.tallied.counted_eq] at hcount
  have hpos : 0 < s.runs.procs.countP (Proc.counted s.runs.sem user) := by omega
  obtain ⟨p, hp, hcounted⟩ := List.countP_pos_iff.mp hpos
  obtain ⟨i, hi⟩ := List.getElem?_of_mem hp
  cases hwaits : s.runWaits i with
  | false => exact .inr ⟨i, p, hi, hcounted, hwaits⟩
  | true =>
    refine .inl ((moving_of_runWaits h.linked hi hwaits).elim id fun hq => ?_)
    have hslot : s.runs.sem.slotWaiters ≠ [] := by
      cases p with
      | userWaiting r w =>
        obtain ⟨rfl, hno⟩ : r.key = user ∧ w ∉ s.runs.sem.userWait.get user := by
          simpa [Proc.counted] using hcounted
        exact absurd (by simpa [Proc.isQueued] using hq) hno
      | waiting w acct kind slot | reclaiming w acct =>
        exact List.ne_nil_of_mem (by simpa [Proc.isQueued] using hq)
      | _ => cases hq
    exact moving_of_slot h hcap hslot

/-! ## Who does not wait can go on -/

/-- The steps by which calls and runs go on and idle reservations are dropped, their hold over: no
new work, no end of a ctx, no change of the configuration. -/
def advances (s : Runtime) : Label → Bool
  | .proceed _ _ done => !done
  | .sem (.act _ .proceed) | .sem (.act _ .receive) | .sem (.act _ .release) => true
  | .lane k (.expire id now) => ((s.lanes k).leases.find? fun ls => ls.id = id).any fun ls =>
    !ls.busy && ls.deadline ≤ now
  | _ => false

def CanAdvance (s : Runtime) : Prop := ∃ a, s.advances a = true ∧ (s.step a).isSome = true

theorem canAdvance_of_act {a : Action} (hadv : s.advances (.sem (.act i a)) = true)
    (hp : s.runs.procs[i]? = some p) (hpermits : s.permits (.act i a) = true)
    (ha : (s.runs.sem.act p a).isSome = true) : s.CanAdvance := by
  obtain ⟨x, hx⟩ := Option.isSome_iff_exists.mp ha
  refine ⟨.sem (.act i a), hadv, ?_⟩
  simp [step, Concurrency.step, hpermits, hp, hx]

/-- What a run that is not queued waited for is in its channel. -/
theorem token_of_woken {w : World} {x : SemWaiter} (hb : w.Balanced) (hp : p ∈ w.procs)
    (hx : p.waiter? = some x) (hq : p.isQueued w.sem = false) : x ∈ w.sem.tokens := by
  have hok := hb.accounts.ok
  have hsound := hb.accounts.sound p hp
  have hmem := hok.pending.mem_iff.mp (List.mem_filterMap.mpr ⟨p, hp, hx⟩)
  have hcap : x ∈ w.sem.userWait.values → x ∈ w.sem.userWait.get x.key := fun hv => by
    obtain ⟨k, hk⟩ := Multimap.mem_values.mp hv
    exact (hok.cap k x hk).2 ▸ hk
  rcases List.mem_append.mp hmem with hslot | hmem
  · have hfor := hok.slot x hslot
    have hslot : x ∈ w.sem.slotWaiters := hslot
    cases p with
    | userWaiting r y =>
      cases hx
      exact absurd (hsound.1.symm.trans hfor) (by decide)
    | waiting y acct kind slot | reclaiming y acct => cases hx; simp [Proc.isQueued, hslot] at hq
    | _ => cases hx
  · rcases List.mem_append.mp hmem with hv | htoken
    · have hfor := hok.forCap_of_mem hv
      cases p with
      | userWaiting r y =>
        cases hx
        have hin := hcap hv
        rw [hsound.2.1] at hin
        simp [Proc.isQueued, hin] at hq
      | waiting y acct kind slot | reclaiming y acct =>
        cases hx; exact absurd (hfor.symm.trans hsound) (by decide)
      | _ => cases hx
    · exact htoken

theorem canAdvance_of_woken {x : SemWaiter} (h : s.Sound) (hp : s.runs.procs[i]? = some p)
    (hx : p.waiter? = some x) (hq : p.isQueued s.runs.sem = false) : s.CanAdvance := by
  have htoken := token_of_woken h.tallied.balanced (List.mem_of_getElem? hp) hx hq
  refine canAdvance_of_act (a := .receive) rfl hp rfl ?_
  cases p with
  | userWaiting r y | waiting y acct kind slot | reclaiming y acct =>
    cases hx; simp [Semaphore.act, Semaphore.receive, htoken]
  | _ => cases hx

/-- A call that does not wait runs its next section, unless its run is about to find that it has
its slot back. -/
theorem proceed_isSome (now : Int) (done : Bool) (hopen : c.isOpen = true)
    (hw : s.waits c = false)
    (hr : ∀ b, c.stage = .reclaiming b → ∀ x acct, s.procOf c ≠ some (.reclaiming x acct)) :
    (s.proceed c now done).isSome = true := by
  unfold waits at hw
  unfold proceed
  split
  · rfl
  · rfl
  · rfl
  · rfl
  · next hstage =>
    rw [hstage] at hw
    rw [if_pos (by simpa using hw)]
    rfl
  · rfl
  · rfl
  · next hstage =>
    rw [hstage] at hw
    rw [if_pos (by simpa using hw)]
    rfl
  · split <;> rfl
  · rfl
  · rfl
  · rfl
  · rfl
  · rfl
  · next b hstage =>
    split
    · next hproc => exact absurd hproc (hr b hstage _ _)
    · rfl
    · rfl
  · rfl
  · rfl
  · next hstage => simp [ModelCall.isOpen, hstage] at hopen

theorem canAdvance_of_proceed (hc : c ∈ s.calls) (hp : (s.proceed c 0 false).isSome = true) :
    s.CanAdvance := by
  obtain ⟨j, hj⟩ := List.getElem?_of_mem hc
  obtain ⟨y, hy⟩ := Option.isSome_iff_exists.mp hp
  exact ⟨.proceed j 0 false, rfl, by simp [step, stepCall, hj, hy]⟩

/-- A run with a call in progress, neither of which waits. -/
theorem canAdvance_of_call (h : s.Sound) (hc : c ∈ s.calls) (hopen : c.isOpen = true)
    (hw : s.waits c = false) (hp : s.procOf c = some p) (hq : p.isQueued s.runs.sem = false) :
    s.CanAdvance := by
  by_cases hr : ∃ x acct, p = .reclaiming x acct
  · obtain ⟨x, acct, rfl⟩ := hr
    exact canAdvance_of_woken h hp rfl hq
  · refine canAdvance_of_proceed hc (proceed_isSome 0 false hopen hw fun _ _ x acct hp' => ?_)
    exact hr ⟨x, acct, Option.mem_unique hp hp'⟩

theorem canAdvance_of_run (h : s.Sound) (hp : s.runs.procs[i]? = some p)
    (hlive : p.holdsSlot s.runs.sem = true ∨ ∃ user, p.counted s.runs.sem user = true)
    (hw : s.runWaits i = false) : s.CanAdvance := by
  obtain ⟨hq, hcalls⟩ := Bool.or_eq_false_iff.mp hw
  rw [hp] at hq
  have hq : p.isQueued s.runs.sem = false := hq
  cases hturn : s.inTurn i with
  | true =>
    obtain ⟨c, hc, hcturn⟩ := List.any_eq_true.mp hturn
    obtain ⟨⟨hrun, -⟩, hopen⟩ : (c.run = i ∧ c.turn = true) ∧ c.isOpen = true := by
      simpa using hcturn
    have hcw : s.waits c = false := by
      simpa [hrun] using List.any_eq_false.mp hcalls c hc
    exact canAdvance_of_call h hc hopen hcw (by rw [procOf, hrun]; exact hp) hq
  | false =>
    have hpermits : s.permits (.act i .release) = true := by simp [permits, hturn]
    cases p with
    | userWaiting r x | waiting x acct kind slot | reclaiming x acct =>
      exact canAdvance_of_woken h hp rfl hq
    | reserved acct | holding acct slot | lent acct =>
      exact canAdvance_of_act (a := .release) rfl hp hpermits rfl
    | admitGlobal key acct r place | endingLent acct =>
      exact canAdvance_of_act (a := .proceed) rfl hp rfl rfl
    | _ => simp [Proc.holdsSlot, Proc.counted, Proc.account?] at hlive

theorem Moving.canAdvance (h : s.Sound) (hm : s.Moving) : s.CanAdvance := by
  cases hm with
  | @call c hc hoccupies hawake =>
    have hplaced : ∀ {stage}, c.stage = stage → stage.place = none → stage.slot ≠ none := by
      rintro stage rfl hplace hslot
      rw [occupies, hplace, hslot] at hoccupies
      cases hoccupies
    refine canAdvance_of_proceed hc (proceed_isSome 0 false ?_ hawake fun b hstage => ?_)
    · exact decide_eq_true fun hstage => hplaced hstage rfl rfl
    · exact absurd rfl (hplaced hstage rfl)
  | run hp hholds hawake => exact canAdvance_of_run h hp (.inl hholds) hawake
  | @reservation k ls hls hidle =>
    -- no other lease has its number, so its timer finds it
    refine ⟨.lane k (.expire ls.id ls.deadline), ?_, rfl⟩
    have hfind : (s.lanes k).leases.find? (fun x => x.id = ls.id) = some ls :=
      Keyed.find?_key (h.linked.lanes k).steady.leased.pairing.ids hls
    simp [advances, hfind, hidle]

/-! ## Runs -/

/-- Somebody waits for a global slot, at a gate or in a lane. -/
def SomeoneWaits (s : Runtime) : Prop :=
  s.runs.sem.slotWaiters ≠ [] ∨ (∃ g, (s.gates g).waiters ≠ []) ∨ ∃ k, (s.lanes k).waiters ≠ []

/-- However runs, their calls and the configuration interleave, with a positive global cap: while
somebody waits for a global slot, at a gate or in a lane, a call that has a place or a slot there
does not wait, or a run that has a global slot does not, nor any of its calls, or a reservation
is idle. While a run waits on its user's cap, that is so, or a run counted against the user does
not wait. In both cases a step that brings work forward can be taken. And a run that waits in
`Reclaim` has nothing at a gate or in a lane for its turn. -/
theorem no_stuck_state {maxConcurrent maxQueue timeout : Int} {gates : Nat → Int × Int}
    {lanes : Nat → LaneConfig} {routes : String → String → Route}
    (h : Run step Any (init (World.init maxConcurrent maxQueue timeout) gates lanes routes) s)
    (hcap : 0 < s.runs.sem.maxConcurrent) :
    (s.SomeoneWaits → s.Moving ∧ s.CanAdvance) ∧
    (∀ user, s.runs.sem.userWait.get user ≠ [] →
      (s.Moving ∨ ∃ i p, s.runs.procs[i]? = some p ∧ p.counted s.runs.sem user = true ∧
        s.runWaits i = false) ∧ s.CanAdvance) ∧
    ∀ i x acct, s.runs.procs[i]? = some (.reclaiming x acct) → ∀ c ∈ s.calls, c.run = i →
      c.turn = true → c.stage.place = none ∧ c.stage.slot = none := by
  have hs : s.Sound :=
    h.invariant (fun _ _ _ hs _ hstep => sound_step hs hstep) (sound_init _ _ _ _ _ _)
  refine ⟨fun hw => ?_, fun user hw => ?_, fun i x acct hp c hc hrun hturn => ?_⟩
  · have hm : s.Moving := by
      rcases hw with hslot | ⟨g, hg⟩ | ⟨k, hk⟩
      · exact moving_of_slot hs hcap hslot
      · exact moving_of_gate hs.linked hg
      · exact moving_of_lane hs.linked hk
    exact ⟨hm, hm.canAdvance hs⟩
  · have hm := moving_of_cap hs hcap hw
    refine ⟨hm, hm.elim (Moving.canAdvance hs) ?_⟩
    rintro ⟨i, p, hp, hcounted, hawake⟩
    exact canAdvance_of_run hs hp (.inr ⟨user, hcounted⟩) hawake
  · cases hopen : c.isOpen with
    | true =>
      obtain ⟨b, hb⟩ := hs.inOrder.reclaims c hc hturn hopen x acct (by rw [hrun]; exact hp)
      rw [hb]
      exact ⟨rfl, rfl⟩
    | false =>
      have hover : c.stage = .over := by simpa [ModelCall.isOpen] using hopen
      rw [hover]
      exact ⟨rfl, rfl⟩

/-- The run's request passes to the point where it has a slot or waits for one. -/
def admitted (i : Nat) (userID : String) : List Label :=
  [.sem (.call (.admitRun { userID, slot := true })), .sem (.act i .proceed),
    .sem (.act i .proceed)]

/-- Three sections of a new call: it computes, or it waits in the lane. -/
def called (j run : Nat) (owner : String) (turn : Bool) : List Label :=
  [.call run turn { owner, noLease := !turn } "local" "chat" (-1), .proceed j 0 false,
    .proceed j 0 false, .proceed j 0 false]

def oneProvider (slots : Int) : Runtime :=
  init (World.init 2 5 0) (fun _ => (0, 0)) (fun _ => { maxConcurrent := slots })
    fun _ _ => { lane := some 0, lanes := [0] }

/-- Carol's call has the only slot of the lane, Alice's turn waits for it and lends, and Bob, who
took her global slot, waits behind her with a side call. Carol's run ends. -/
def handedTrace : List Label :=
  admitted 0 "carol" ++ admitted 1 "alice" ++ called 0 0 "carol" false ++
    called 1 1 "alice" true ++ admitted 2 "bob" ++ called 2 2 "bob" false ++
    [.proceed 0 0 false, .proceed 0 0 false, .sem (.act 0 .release)]

/-- Bob waits, and somebody moves. -/
theorem no_stuck_state_handed :
    ∃ s, Run step Any (oneProvider 1) s ∧ 0 < s.runs.sem.maxConcurrent ∧ s.SomeoneWaits ∧
      s.Moving ∧ s.CanAdvance := by
  obtain ⟨s, hrun, hpos, hlane⟩ := exists_run step (oneProvider 1) handedTrace
    (p := fun s => 0 < s.runs.sem.maxConcurrent ∧ (s.lanes 0).waiters ≠ []) (by decide +kernel)
  have hwaits : s.SomeoneWaits := .inr (.inr ⟨0, hlane⟩)
  exact ⟨s, hrun, hpos, hwaits, (no_stuck_state hrun hpos).1 hwaits⟩

/-- With two slots in the lane Alice has one for a side call when her turn is granted the other
and finds no global slot. -/
def besideTrace : List Label :=
  admitted 0 "alice" ++ admitted 1 "carol" ++ called 0 0 "alice" false ++
    called 1 1 "carol" false ++ called 2 0 "alice" true ++ admitted 2 "bob" ++
    [.proceed 1 0 false] ++
    List.replicate 5 (.proceed 2 0 false)

def computes (c : ModelCall) : Bool :=
  match c.stage with
  | .computing .. => true
  | _ => false

/-- A call waits in lane 0, nobody computes, and every run with a global slot waits. -/
def quiet (s : Runtime) : Bool :=
  0 < s.runs.sem.maxConcurrent && (s.lanes 0).waiters ≠ [] && s.calls.all (!computes ·) &&
    s.runs.procs.zipIdx.all fun x => !x.1.holdsSlot s.runs.sem || s.runWaits x.2

/-- No call goes to another lane than 0. -/
theorem quiet_of_exec {s₀ : Runtime} {trace : List Label} {P : Lease → Prop} [DecidablePred P]
    (h : (exec step s₀ trace).any
      (fun s => decide (s.quiet = true ∧ ∀ ls ∈ (s.lanes 0).leases, P ls)) = true)
    (hothers : ∀ k, (exec step s₀ trace).map (fun s => (s.lanes (k + 1)).leases) = some []) :
    ∃ s, exec step s₀ trace = some s ∧ s.quiet = true ∧
      ∀ k, ∀ ls ∈ (s.lanes k).leases, P ls := by
  obtain ⟨s, hs, hp⟩ := (Option.any_eq_true _ _).mp h
  obtain ⟨hquiet, hleases⟩ := of_decide_eq_true hp
  rw [hs] at hothers
  refine ⟨s, hs, hquiet, fun k => ?_⟩
  cases k with
  | zero => exact hleases
  | succ k =>
    have hnone : (s.lanes (k + 1)).leases = [] := Option.some.inj (hothers k)
    rw [hnone]
    exact nofun

/-- Alice's turn ends at time 0 and leaves the lane's only slot reserved until time 5. At time 9
she queues a side call in the background, which does not run on the reservation. -/
def lapsedProvider : Runtime :=
  init (World.init 2 5 0) (fun _ => (0, 0)) (fun _ => { maxConcurrent := 1, affinityHold := 5 })
    fun _ _ => { lane := some 0, lanes := [0] }

def lapsedTrace : List Label :=
  admitted 0 "alice" ++ called 0 0 "alice" true ++ List.replicate 2 (.proceed 0 0 false) ++
    [.call 0 false { owner := "alice", noLease := true, background := true } "local" "chat" (-1)] ++
    List.replicate 3 (.proceed 1 9 false)

/-- Three states that do occur. Bob, the one run with a global slot, waits in a call and nobody
computes: Alice has been handed the lane's slot and has yet to find out. The same with only a
reservation left whose hold is over and whose timer has yet to run. And Alice waits in `Reclaim`
while her side call computes in the lane. -/
theorem waits_beside_side_call :
    (∃ s, Run step Any (oneProvider 1) s ∧ s.quiet = true ∧
      ∀ k, ∀ ls ∈ (s.lanes k).leases, ls.busy = true) ∧
    (∃ s, exec step lapsedProvider lapsedTrace = some s ∧ s.quiet = true ∧
      ∀ k, ∀ ls ∈ (s.lanes k).leases, ls.deadline < 9) ∧
    ∃ s, Run step Any (oneProvider 2) s ∧ ∃ i p, s.runs.procs[i]? = some p ∧
      (∃ x acct, p = .reclaiming x acct) ∧ p.isQueued s.runs.sem = true ∧
      ∃ c ∈ s.calls, c.run = i ∧ s.occupies c = true ∧ computes c = true := by
  refine ⟨?_, ?_, ?_⟩
  · obtain ⟨s, hs, hquiet⟩ : ∃ s, exec step (oneProvider 1) handedTrace = some s ∧
        s.quiet = true ∧ ∀ k, ∀ ls ∈ (s.lanes k).leases, ls.busy = true :=
      quiet_of_exec (by decide +kernel) fun _ => rfl
    exact ⟨s, run_of_exec (fun _ _ _ => trivial) hs, hquiet⟩
  · exact quiet_of_exec (P := fun ls => ls.deadline < 9) (by decide +kernel) fun _ => rfl
  · obtain ⟨s, hrun, hproc, hcall⟩ := exists_run step (oneProvider 2) besideTrace (p := fun s =>
      (s.runs.procs[0]?.any fun p => (p matches .reclaiming ..) && p.isQueued s.runs.sem) = true ∧
      ∃ c ∈ s.calls, c.run = 0 ∧ s.occupies c = true ∧ computes c = true) (by decide +kernel)
    cases hp : s.runs.procs[0]? with
    | none => rw [hp] at hproc; cases hproc
    | some p =>
      rw [hp] at hproc
      obtain ⟨hr, hq⟩ := Bool.and_eq_true_iff.mp hproc
      refine ⟨s, hrun, 0, p, hp, ?_, hq, hcall⟩
      cases p with
      | reclaiming x acct => exact ⟨x, acct, rfl⟩
      | _ => cases hr

end Runtime

end Loomcycle.Concurrency
