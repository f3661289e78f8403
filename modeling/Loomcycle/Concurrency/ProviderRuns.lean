import Loomcycle.Concurrency.CallTickets
import Loomcycle.Concurrency.ProviderCall
import Loomcycle.Concurrency.UserCounts

/-! # Runs of the provider's calls

What holds between the sections of the semaphore, the gates and the lanes when calls go from one
to the next: each number a gate or a lane has given out belongs to the one call that stands
there, a run has one turn call, and while the run waits in `Reclaim` that call is in `Reclaim`. -/

namespace Loomcycle.Concurrency
open Lib

namespace Runtime

variable {s s' : Runtime} {c c' : ModelCall} {rest : List ModelCall}

def gateTickets (s : Runtime) (g : Nat) : Tickets := (s.gates g).tickets

def laneTickets (s : Runtime) (k : Nat) : Tickets := (s.lanes k).tickets

theorem hasPlace_iff {place : Nat} :
    s.hasPlace c place = true ↔ ∃ g, c.gate = some g ∧ place ∈ (s.gateTickets g).served := by
  unfold hasPlace gateTickets
  cases c.gate <;> simp [ModelGate.callOf_isSome]

theorem hasSlot_iff {slot : Nat} :
    s.hasSlot c slot = true ↔ ∃ k, c.lane = some k ∧ slot ∈ (s.laneTickets k).served := by
  unfold hasSlot laneTickets
  cases c.lane <;> simp [Lane.callOf_isSome]

/-! ## Gates and lanes -/

/-- The gates and lanes are in order, and what they have given out is the calls'. -/
structure Linked (s : Runtime) (calls : List ModelCall) : Prop where
  gates : ∀ g, (s.gates g).Steady
  lanes : ∀ k, (s.lanes k).Attended
  places : Tickets.Shared ModelCall.gate (fun c => c.stage.place) calls s.gateTickets
  slots : Tickets.Shared ModelCall.lane (fun c => c.stage.slot) calls s.laneTickets

namespace Linked

variable {calls' calls : List ModelCall}

theorem perm (h : s.Linked calls) (hp : calls.Perm calls') : s.Linked calls' :=
  ⟨h.gates, h.lanes, h.places.perm hp, h.slots.perm hp⟩

/-- A section of the semaphore. -/
theorem run (h : s.Linked calls) (hg : s'.gates = s.gates) (hl : s'.lanes = s.lanes) :
    s'.Linked calls where
  gates g := by rw [hg]; exact h.gates g
  lanes k := by rw [hl]; exact h.lanes k
  places := by unfold gateTickets; rw [hg]; exact h.places
  slots := by unfold laneTickets; rw [hl]; exact h.slots

theorem setGate {g : Nat} {gate : ModelGate} {a : ModelGate.Label} (h : s.Linked calls)
    (hstep : (s.gates g).step a = some gate)
    (hplaces : Tickets.Shared ModelCall.gate (fun c => c.stage.place) calls' (Function.update
      s.gateTickets g gate.tickets))
    (hslots : Tickets.Shared ModelCall.lane (fun c => c.stage.slot) calls' s.laneTickets) :
    (s.setGate g gate).Linked calls' where
  gates := (Function.forall_update_iff s.gates fun _ x => x.Steady).mpr
    ⟨ModelGate.steady_step (h.gates g) hstep, fun g' _ => h.gates g'⟩
  lanes := h.lanes
  places := by
    rw [show (s.setGate g gate).gateTickets = _ from Function.comp_update ModelGate.tickets _ g gate]
    exact hplaces
  slots := hslots

theorem setLane {k : Nat} {lane : Lane} {a : Lane.Label} (h : s.Linked calls)
    (hstep : (s.lanes k).step a = some lane)
    (hplaces : Tickets.Shared ModelCall.gate (fun c => c.stage.place) calls' s.gateTickets)
    (hslots : Tickets.Shared ModelCall.lane (fun c => c.stage.slot) calls' (Function.update
      s.laneTickets k lane.tickets)) : (s.setLane k lane).Linked calls' where
  gates := h.gates
  lanes := (Function.forall_update_iff s.lanes fun _ x => x.Attended).mpr
    ⟨⟨Lane.steady_step (h.lanes k).steady hstep, Lane.metered_step (h.lanes k).metered hstep,
      Lane.workConserving_step (h.lanes k).conserving hstep,
      Lane.open_step (h.lanes k).steady.leased.keyed (h.lanes k).isOpen hstep⟩,
      fun k' _ => h.lanes k'⟩
  places := hplaces
  slots := by
    rw [show (s.setLane k lane).laneTickets = _ from Function.comp_update Lane.tickets _ k lane]
    exact hslots

/-- A call goes on with the numbers it has. -/
theorem same {stage : Stage} (h : s.Linked (c :: rest)) (hstage : c.stage = stage)
    (hgate : c'.gate = c.gate) (hlane : c'.lane = c.lane) (hplace : c'.stage.place = stage.place)
    (hslot : c'.stage.slot = stage.slot) : s.Linked (c' :: rest) := by
  subst hstage
  exact ⟨h.gates, h.lanes, h.places.same hgate hplace, h.slots.same hlane hslot⟩

end Linked

/-! ## Sections of a call -/

theorem linked_enterGate {g : Nat} (h : s.Linked (c :: rest)) (hgate : c.gate = some g)
    (hplace : c.stage.place = none) (hslot : c.stage.slot = none) (done : Bool) :
    (s.enterGate c g done).1.Linked ((s.enterGate c g done).2 :: rest) := by
  have hanswers := ModelGate.answers_enter (s.gates g) c.info.model c.maxQueued done
  have hstep : (s.gates g).step (.enter c.info.model c.maxQueued done) =
      some ((s.gates g).enter c.info.model c.maxQueued done).1 := rfl
  unfold enterGate
  split
  · exact h.same rfl rfl rfl hplace.symm hslot.symm
  · exact h.same rfl rfl rfl hplace.symm hslot.symm
  · exact h.same rfl rfl rfl hplace.symm hslot.symm
  · next gate id he =>
    rw [he] at hanswers hstep
    cases hanswers with
    | admitted adds served =>
      exact h.setGate hstep (h.places.take hplace adds hgate rfl rfl fun _ => served)
        (h.slots.same rfl hslot.symm)
  · next gate id he =>
    rw [he] at hanswers hstep
    cases hanswers with
    | queued adds =>
      exact h.setGate hstep (h.places.take hplace adds hgate rfl rfl nofun)
        (h.slots.same rfl hslot.symm)

theorem linked_arrive (h : s.Linked (c :: rest)) (hstage : c.stage = .arriving) (done : Bool) :
    (s.arrive c done).1.Linked ((s.arrive c done).2 :: rest) := by
  have hplace : c.stage.place = none := by rw [hstage]; rfl
  have hslot : c.stage.slot = none := by rw [hstage]; rfl
  have hroute : ∀ {gate lane : Option Nat}, s.Linked ({ c with gate, lane } :: rest) :=
    ⟨h.gates, h.lanes, h.places.turn hplace hplace, h.slots.turn hslot hslot⟩
  unfold arrive
  dsimp only
  split
  · exact hroute.same rfl rfl rfl hplace.symm hslot.symm
  · next g hg => exact linked_enterGate hroute hg hplace hslot done

variable {place : Option Nat} {calls : List ModelCall} {stage stage' : Stage}

theorem linked_enterLane (h : s.Linked (c :: rest)) (hstage : c.stage = .arrived place)
    (done : Bool) : (s.enterLane c place done).1.Linked ((s.enterLane c place done).2 :: rest) := by
  have hplace : c.stage.place = place.map fun id => ⟨id, true⟩ := by rw [hstage]; rfl
  have hslot : c.stage.slot = none := by rw [hstage]; rfl
  unfold enterLane
  split
  · exact h.same rfl rfl rfl hplace.symm hslot.symm
  next k hk =>
  split
  · exact h.same rfl rfl rfl hplace.symm hslot.symm
  have hanswers := Lane.answers_acquire (s.lanes k) c.info c.maxQueued
  have hstep : (s.lanes k).step (.acquire c.info c.maxQueued) =
      some ((s.lanes k).acquire c.info c.maxQueued).1 := rfl
  split
  · next lane id he =>
    rw [he] at hanswers hstep
    cases hanswers with
    | granted adds served =>
      exact h.setLane hstep (h.places.same rfl hplace.symm)
        (h.slots.take hslot adds hk rfl rfl fun _ => served)
  · next lane n limit he =>
    rw [he] at hanswers hstep
    cases hanswers with
    | queueFull serves =>
      have hsame : s.Linked (c.to (.refused place) :: rest) :=
        h.same rfl rfl rfl hplace.symm hslot.symm
      exact h.setLane hstep hsame.places (hsame.slots.serves serves)
  · next lane id he =>
    rw [he] at hanswers hstep
    cases hanswers with
    | queued adds =>
      exact h.setLane hstep (h.places.same rfl hplace.symm)
        (h.slots.take hslot adds hk rfl rfl nofun)

theorem linked_leaveGate (h : s.Linked (c :: rest)) (hstage : c.stage = stage)
    (hplace : stage.place = place.map fun id => ⟨id, true⟩) (hplace' : stage'.place = none)
    (hslot : stage'.slot = stage.slot) : (s.leaveGate c place).Linked (c.to stage' :: rest) := by
  subst hstage
  cases place with
  | none =>
    unfold leaveGate
    split
    · next hnone => cases hnone
    · exact h.same rfl rfl rfl (hplace'.trans hplace.symm) hslot
  | some id =>
    have hne : c.gate ≠ none :=
      h.places.placed c List.mem_cons_self (by rw [hplace]; exact Option.some_ne_none _)
    obtain ⟨g, hg⟩ := Option.ne_none_iff_exists'.mp hne
    have hserved := h.places.mem_served List.mem_cons_self hg hplace rfl
    have hdrops := ModelGate.drops_leave (h.gates g).tracked hserved
    unfold leaveGate
    rw [hg]
    exact h.setGate (a := .leave id) rfl
      (h.places.drop (h.gates g).tracked.nodup hg hplace hdrops hplace') (h.slots.same rfl hslot)

theorem linked_leaveLane {slot : Option Nat} {abandoned : Bool} {now : Int}
    (h : s.Linked (c :: rest)) (hstage : c.stage = stage)
    (hslot : stage.slot = slot.map fun id => ⟨id, true⟩) (hslot' : stage'.slot = none)
    (hplace : stage'.place = stage.place) :
    (s.leaveLane c slot abandoned now).Linked (c.to stage' :: rest) := by
  subst hstage
  cases slot with
  | none =>
    unfold leaveLane
    split
    · next hnone => cases hnone
    · exact h.same rfl rfl rfl hplace (hslot'.trans hslot.symm)
  | some id =>
    have hne : c.lane ≠ none :=
      h.slots.placed c List.mem_cons_self (by rw [hslot]; exact Option.some_ne_none _)
    obtain ⟨k, hk⟩ := Option.ne_none_iff_exists'.mp hne
    have hserved := h.slots.mem_served List.mem_cons_self hk hslot rfl
    have hleased := (h.lanes k).steady.leased
    have hdrops := Lane.drops_endFn hleased hserved abandoned now
    have hstep : ∃ a, (s.lanes k).step a = some ((s.lanes k).endFn id abandoned now) := by
      cases abandoned with
      | false => exact ⟨.release id now, rfl⟩
      | true => exact ⟨.giveBack id now, rfl⟩
    obtain ⟨a, ha⟩ := hstep
    unfold leaveLane
    rw [hk]
    exact h.setLane ha (h.places.same rfl hplace)
      (h.slots.drop hleased.nodup hk hslot hdrops hslot')

theorem linked_onSlot (h : s.Linked calls) (c : ModelCall) (a : Action) :
    (s.onSlot c a).Linked calls := by
  unfold onSlot
  cases Concurrency.step s.runs (.act c.run a) with
  | none => exact h
  | some w => exact h.run rfl rfl

theorem linked_onWait (h : s.Linked calls) (c : ModelCall) : (s.onWait c).Linked calls := by
  unfold onWait
  split
  · exact linked_onSlot h c .lend
  · exact h

end Runtime

/-! ## Turn calls -/

variable {acct : Account}

/-- A run comes to wait in `Reclaim` by calling it. -/
theorem reclaiming_of_act {t : Semaphore} {p : Proc} {a : Action} {x : SemWaiter} {sem : Semaphore}
    (h : sem.act p a = some (t, .reclaiming x acct)) : a = .reclaim ∨ p = .reclaiming x acct := by
  have hgo := (acts_act h).goes
  generalize hp' : Proc.reclaiming x acct = p' at h hgo
  cases hgo with
  | reclaims =>
    cases hp'
    cases a with
    | reclaim => exact .inl rfl
    | tryReclaim =>
      have ht := Option.some.inj h
      unfold Semaphore.tryReclaimSection at ht
      split at ht <;> cases ht
    | quota q | cancel q => cases q <;> cases h
    | _ => cases h
  | reclaimStuck => exact .inr rfl
  | _ => cases hp'

theorem reclaiming_of_step {w w' : World} {l : Label} {i : Nat} {x : SemWaiter}
    (h : step w l = some w') (hl : l ≠ .act i .reclaim)
    (hp : w'.procs[i]? = some (.reclaiming x acct)) : w.procs[i]? = some (.reclaiming x acct) := by
  obtain ⟨c, -, he⟩ | hold | ⟨p, a, rfl, hold, ha⟩ := proc_step h hp
  · cases he
  · exact hold
  · rcases reclaiming_of_act ha with rfl | rfl
    · exact absurd rfl hl
    · exact hold

/-- The stages only a call that lent its run's slot comes to. -/
def Stage.lends : Stage → Bool
  | .givingBack .. | .givenBack _ | .reclaim _ | .reclaiming _ => true
  | _ => false

/-- Neither over nor waiting in `Reclaim`. -/
def Stage.acts : Stage → Bool
  | .over | .reclaiming _ => false
  | _ => true

/-- One call, before and after a section. -/
structure ModelCall.Follows (c c' : ModelCall) : Prop where
  run : c'.run = c.run
  turn : c'.turn = c.turn
  lends : c'.stage.lends = true → c.stage.lends = true ∨ c.turn = true

theorem ModelCall.Follows.moved {c : ModelCall} {stage : Stage} (h : stage.lends = false) :
    c.Follows (c.to stage) where
  run := rfl
  turn := rfl
  lends hl := by
    rw [show (c.to stage).stage = stage from rfl, h] at hl
    cases hl

/-- What a section of a call does at the semaphore. -/
inductive UsesSlot (w : World) (c : ModelCall) : World → ModelCall → Prop
  | leaves {c' : ModelCall}
    (waits : ∀ b, c.stage = .reclaiming b → ∀ x acct, w.procs[c.run]? ≠ some (.reclaiming x acct)) :
    UsesSlot w c w c'
  | uses {w' : World} {c' : ModelCall} {a : Action} (action : a ≠ .reclaim)
    (waits : ∀ b, c.stage ≠ .reclaiming b) (step : step w (.act c.run a) = some w') :
    UsesSlot w c w' c'
  | reclaims {w' : World} {c' : ModelCall} {b : Bool} (source : c.stage = .reclaim b)
    (target : c'.stage = .reclaiming b) (step : step w (.act c.run .reclaim) = some w') :
    UsesSlot w c w' c'

namespace Runtime

variable {s s' : Runtime} {c c' : ModelCall} {rest : List ModelCall} {now : Int} {done : Bool}

theorem runs_onSlot (s : Runtime) (c : ModelCall) (a : Action) :
    (s.onSlot c a).runs = s.runs ∨
      Concurrency.step s.runs (.act c.run a) = some (s.onSlot c a).runs := by
  unfold onSlot
  cases Concurrency.step s.runs (.act c.run a) with
  | none => exact .inl rfl
  | some w => exact .inr rfl

theorem turn_of_lent (h : s.lent c = true) : c.turn = true :=
  (Bool.and_eq_true_iff.mp h).1

theorem follows_arrive (s : Runtime) (c : ModelCall) (done : Bool) :
    c.Follows (s.arrive c done).2 ∧ (s.arrive c done).1.runs = s.runs := by
  have hto : ∀ {gate lane : Option Nat} {stage : Stage}, stage.lends = false →
      c.Follows ({ c with gate, lane }.to stage) := fun h =>
    ⟨rfl, rfl, (ModelCall.Follows.moved h).lends⟩
  unfold arrive enterGate
  dsimp only
  split
  · exact ⟨hto rfl, rfl⟩
  · split <;> exact ⟨hto rfl, rfl⟩

theorem follows_enterLane (s : Runtime) (c : ModelCall) (place : Option Nat) (done : Bool) :
    c.Follows (s.enterLane c place done).2 ∧ (s.enterLane c place done).1.runs = s.runs := by
  unfold enterLane
  split
  · exact ⟨.moved rfl, rfl⟩
  · split
    · exact ⟨.moved rfl, rfl⟩
    · split <;> exact ⟨.moved rfl, rfl⟩

/-- The part of a section that concerns the call's run. -/
structure Serial (s : Runtime) (c : ModelCall) (s' : Runtime) (c' : ModelCall) : Prop where
  isOpen : c.isOpen = true
  follows : c.Follows c'
  slot : UsesSlot s.runs c s'.runs c'

section Acts

variable {stage stage' : Stage} {place : Option Nat} (hstage : c.stage = stage)
  (hacts : stage.acts = true)
include hstage hacts

theorem open_of_acts : c.isOpen = true ∧ ∀ b, c.stage ≠ .reclaiming b := by
  subst hstage
  cases hc : c.stage <;> simp_all [ModelCall.isOpen, Stage.acts]

/-- A section that leaves the run's slot alone. -/
theorem Serial.leaves (h : c.Follows c' ∧ s'.runs = s.runs) : s.Serial c s' c' := by
  obtain ⟨hopen, hw⟩ := open_of_acts hstage hacts
  refine ⟨hopen, h.1, ?_⟩
  rw [h.2]
  exact .leaves fun b hb => absurd hb (hw b)

/-- A section that uses it without waiting for it. -/
theorem Serial.uses {a : Action} (hf : c.Follows c') (ha : a ≠ .reclaim) :
    s.Serial c (s.onSlot c a) c' := by
  rcases runs_onSlot s c a with hruns | hstep
  · exact .leaves hstage hacts ⟨hf, hruns⟩
  · obtain ⟨hopen, hw⟩ := open_of_acts hstage hacts
    exact ⟨hopen, hf, .uses ha hw hstep⟩

theorem serial_onWait (hf : c.Follows c') : s.Serial c (s.onWait c) c' := by
  unfold onWait
  split
  · exact .uses hstage hacts hf (by decide)
  · exact .leaves hstage hacts ⟨hf, rfl⟩

/-- A section of a call: it keeps the calls linked, and in order with its run. -/
structure Advances (s : Runtime) (c : ModelCall) (s' : Runtime) (c' : ModelCall) : Prop where
  linked : ∀ {rest}, s.Linked (c :: rest) → s'.Linked (c' :: rest)
  serial : s.Serial c s' c'

theorem Advances.moves (hplace : stage'.place = stage.place) (hslot : stage'.slot = stage.slot)
    (hf : c.Follows (c.to stage')) : s.Advances c s (c.to stage') where
  linked h := h.same hstage rfl rfl hplace hslot
  serial := .leaves hstage hacts ⟨hf, rfl⟩

theorem Advances.waits (hplace : stage'.place = stage.place) (hslot : stage'.slot = stage.slot)
    (hlends : stage'.lends = false) :
    s.Advances c (s.onWait c) ({ c with waited := true }.to stage') where
  linked h := (linked_onWait h c).same hstage rfl rfl hplace hslot
  serial := serial_onWait hstage hacts ⟨rfl, rfl, (ModelCall.Follows.moved hlends).lends⟩

theorem Advances.leavesGate (hplace : stage.place = place.map fun id => ⟨id, true⟩)
    (hplace' : stage'.place = none) (hslot : stage'.slot = stage.slot)
    (hf : c.Follows (c.to stage')) : s.Advances c (s.leaveGate c place) (c.to stage') where
  linked h := linked_leaveGate h hstage hplace hplace' hslot
  serial := .leaves hstage hacts ⟨hf, by unfold leaveGate; split <;> rfl⟩

theorem Advances.leavesLane {slot : Option Nat} {abandoned : Bool}
    (hslot : stage.slot = slot.map fun id => ⟨id, true⟩) (hslot' : stage'.slot = none)
    (hplace : stage'.place = stage.place) (hf : c.Follows (c.to stage')) :
    s.Advances c (s.leaveLane c slot abandoned now) (c.to stage') where
  linked h := linked_leaveLane h hstage hslot hslot' hplace
  serial := .leaves hstage hacts ⟨hf, by unfold leaveLane; split <;> rfl⟩

end Acts

theorem advances_proceed (hp : s.proceed c now done = some (s', c')) : s.Advances c s' c' := by
  unfold proceed at hp
  split at hp
  · next hstage =>
    obtain ⟨rfl, rfl⟩ := Prod.mk.inj (Option.some.inj hp)
    exact ⟨fun h => linked_arrive h hstage done, .leaves hstage rfl (follows_arrive s c done)⟩
  · next place hstage =>
    cases hp
    exact .moves hstage rfl rfl rfl (.moved rfl)
  · next place k lanes hstage =>
    cases hp
    have hsame {t} (h : s.Linked (c :: t)) : s.Linked (c.to (.yielding place lanes) :: t) :=
      h.same hstage rfl rfl rfl rfl
    exact ⟨fun h => h.setLane (a := .yieldIdle c.info.owner) rfl (hsame h).places
      ((hsame h).slots.serves (Lane.serves_ambient (a := .yieldIdle c.info.owner) rfl rfl)),
      .leaves hstage rfl ⟨.moved rfl, rfl⟩⟩
  · next place hstage =>
    cases hp
    exact .waits hstage rfl rfl rfl rfl
  · next place hstage =>
    split at hp
    · next hhas =>
      cases hp
      obtain ⟨g, hg, hserved⟩ := hasPlace_iff.mp hhas
      have hplace : c.stage.place = some ⟨place, false⟩ := by rw [hstage]; rfl
      refine ⟨fun h => ⟨h.gates, h.lanes, ?_, h.slots.same rfl (by rw [hstage]; rfl)⟩,
        .leaves hstage rfl ⟨.moved rfl, rfl⟩⟩
      exact h.places.served rfl hg hplace rfl rfl hserved
    · cases hp
  · next place hstage =>
    obtain ⟨rfl, rfl⟩ := Prod.mk.inj (Option.some.inj hp)
    exact ⟨fun h => linked_enterLane h hstage done,
      .leaves hstage rfl (follows_enterLane s c place done)⟩
  · next place slot hstage =>
    cases hp
    exact .waits hstage rfl rfl rfl rfl
  · next place slot hstage =>
    split at hp
    · next hhas =>
      cases hp
      obtain ⟨k, hk, hserved⟩ := hasSlot_iff.mp hhas
      have hslot : c.stage.slot = some ⟨slot, false⟩ := by rw [hstage]; rfl
      refine ⟨fun h => ⟨h.gates, h.lanes, h.places.same rfl (by rw [hstage]; rfl), ?_⟩,
        .leaves hstage rfl ⟨.moved rfl, rfl⟩⟩
      exact h.slots.served rfl hk hslot rfl rfl hserved
    · cases hp
  · next place slot hstage =>
    split at hp
    · next hlent =>
      cases hp
      exact ⟨fun h => (linked_onSlot h c .tryReclaim).same hstage rfl rfl
        (by split_ifs <;> rfl) (by split_ifs <;> rfl),
        .uses hstage rfl ⟨rfl, rfl, fun _ => .inr (turn_of_lent hlent)⟩ (by decide)⟩
    · cases hp
      exact .moves hstage rfl rfl rfl (.moved rfl)
  · next place slot hstage =>
    cases hp
    exact .leavesLane hstage rfl rfl rfl rfl ⟨rfl, rfl, fun _ => .inl (by rw [hstage]; rfl)⟩
  · next place hstage =>
    cases hp
    exact .leavesGate hstage rfl rfl rfl rfl ⟨rfl, rfl, fun _ => .inl (by rw [hstage]; rfl)⟩
  · next place hstage =>
    cases hp
    exact .leavesGate hstage rfl rfl rfl rfl (.moved rfl)
  · next hstage =>
    cases hp
    refine .moves hstage rfl (by split_ifs <;> rfl) (by split_ifs <;> rfl) ⟨rfl, rfl, fun hl => ?_⟩
    split at hl
    · next hlent => exact .inr (turn_of_lent hlent)
    · cases hl
  · next failed hstage =>
    cases hp
    have hf : c.Follows (c.to (.reclaiming failed)) :=
      ⟨rfl, rfl, fun _ => .inl (by rw [hstage]; rfl)⟩
    refine ⟨fun h => (linked_onSlot h c .reclaim).same hstage rfl rfl rfl rfl, ?_⟩
    rcases runs_onSlot s c .reclaim with hruns | hstep
    · exact .leaves hstage rfl ⟨hf, hruns⟩
    · exact ⟨by simp [ModelCall.isOpen, hstage], hf, .reclaims hstage rfl hstep⟩
  · next failed hstage =>
    have hopen : c.isOpen = true := by simp [ModelCall.isOpen, hstage]
    split at hp
    · cases hp
    · next acct hproc =>
      cases hp
      refine ⟨fun h => h.same hstage rfl rfl rfl rfl, hopen, .moved rfl, .leaves ?_⟩
      intro _ _ x acct' he
      rw [procOf, he] at hproc
      cases hproc
    · next hne hne' =>
      cases hp
      refine ⟨fun h => h.same hstage ?_ ?_ ?_ ?_, hopen, ?_, .leaves fun _ _ x acct => hne x acct⟩
      all_goals
        cases failed with
        | false => first | rfl | exact ⟨rfl, rfl, nofun⟩
        | true => first | rfl | exact .moved rfl
  · next place slot hstage =>
    cases hp
    exact .leavesLane hstage rfl rfl rfl rfl (.moved rfl)
  · next place hstage =>
    cases hp
    exact .leavesGate hstage rfl rfl rfl rfl (.moved rfl)
  · cases hp

theorem advances_cancel (hc : s.cancel c now = some (s', c')) : s.Advances c s' c' := by
  unfold cancel at hc
  split at hc
  · next place g hstage hg =>
    obtain ⟨gate, hcancel, he⟩ := Option.map_eq_some_iff.mp hc
    cases he
    have hplace : c.stage.place = some ⟨place, false⟩ := by rw [hstage]; rfl
    refine ⟨fun h => h.setGate (a := .cancel place) hcancel ?_ (h.slots.same rfl ?_),
      .leaves hstage rfl ⟨.moved rfl, rfl⟩⟩
    · have ht := (h.gates g).tracked
      exact h.places.drop ht.nodup hg hplace (ModelGate.drops_cancel ht hcancel) rfl
    · rw [hstage]
      rfl
  · next place slot k hstage hk =>
    obtain ⟨lane, hcancel, he⟩ := Option.map_eq_some_iff.mp hc
    cases he
    have hslot : c.stage.slot = some ⟨slot, false⟩ := by rw [hstage]; rfl
    refine ⟨fun h => h.setLane (a := .cancel slot now) hcancel (h.places.same rfl ?_) ?_,
      .leaves hstage rfl ⟨.moved rfl, rfl⟩⟩
    · rw [hstage]
      rfl
    · have hl := (h.lanes k).steady.leased
      exact h.slots.drop hl.nodup hk hslot (Lane.drops_cancel hl hcancel) rfl
  · cases hc

/-- The runs whose turn call is in progress. -/
def turns (calls : List ModelCall) : List Nat :=
  (calls.filter fun c => c.turn && c.isOpen).map ModelCall.run

/-- A run has one turn call at a time, and waits in `Reclaim` for no other. -/
structure InOrder (w : World) (calls : List ModelCall) : Prop where
  single : (turns calls).Nodup
  lends : ∀ c ∈ calls, c.stage.lends = true → c.turn = true
  reclaims : ∀ c ∈ calls, c.turn = true → c.isOpen = true → ∀ x acct,
    w.procs[c.run]? = some (.reclaiming x acct) → ∃ b, c.stage = .reclaiming b

variable {w w' : World} {calls : List ModelCall} {l : Concurrency.Label}

theorem InOrder.perm {calls' : List ModelCall} (h : InOrder w calls) (hp : calls.Perm calls') :
    InOrder w calls' where
  single := ((hp.filter _).map _).nodup_iff.mp h.single
  lends c hc := h.lends c (hp.mem_iff.mpr hc)
  reclaims c hc := h.reclaims c (hp.mem_iff.mpr hc)

theorem turns_cons (c : ModelCall) (calls : List ModelCall) :
    turns (c :: calls) = if c.turn && c.isOpen then c.run :: turns calls else turns calls := by
  unfold turns
  rw [List.filter_cons]
  split <;> rfl

theorem mem_turns {i : Nat} :
    i ∈ turns calls ↔ ∃ c ∈ calls, c.run = i ∧ c.turn = true ∧ c.isOpen = true := by
  simp [turns, and_comm, and_left_comm]

/-- A section at the semaphore that is not the `Reclaim` of a turn call. -/
theorem InOrder.step (h : InOrder w calls) (hl : ∀ i, l ≠ .act i .reclaim)
    (hstep : Concurrency.step w l = some w') : InOrder w' calls where
  single := h.single
  lends := h.lends
  reclaims c hc hturn hopen x acct hp :=
    h.reclaims c hc hturn hopen x acct (reclaiming_of_step hstep (hl c.run) hp)

theorem InOrder.slot (h : InOrder w (c :: rest)) (hopen : c.isOpen = true) (hf : c.Follows c')
    (hslot : UsesSlot w c w' c') : InOrder w' (c' :: rest) := by
  have hturns : (turns (c' :: rest)).Nodup := by
    have hnodup := h.single
    rw [turns_cons, hopen, Bool.and_true] at hnodup
    rw [turns_cons, hf.turn, hf.run]
    cases hturn : c.turn with
    | false =>
      rw [hturn] at hnodup
      exact hnodup
    | true =>
      rw [hturn] at hnodup
      cases c'.isOpen with
      | true => exact hnodup
      | false => exact hnodup.of_cons
  have hlends : ∀ d ∈ c' :: rest, d.stage.lends = true → d.turn = true := by
    intro d hd hl
    rcases List.mem_cons.mp hd with rfl | hd
    · rw [hf.turn]
      exact (hf.lends hl).elim (h.lends c List.mem_cons_self) id
    · exact h.lends d (List.mem_cons_of_mem c hd) hl
  refine ⟨hturns, hlends, fun d hd hturn hopen' x acct hp => ?_⟩
  -- a run that waited before does so for the call it waited for
  have hwaited : w.procs[d.run]? = some (.reclaiming x acct) → (∀ b, c.stage = .reclaiming b →
      w.procs[c.run]? ≠ some (.reclaiming x acct)) → ∃ b, d.stage = .reclaiming b := by
    intro hp hno
    rcases List.mem_cons.mp hd with rfl | hd
    · rw [hf.run] at hp
      obtain ⟨b, hb⟩ := h.reclaims c List.mem_cons_self (hf.turn ▸ hturn) hopen x acct hp
      exact absurd hp (hno b hb)
    · exact h.reclaims d (List.mem_cons_of_mem c hd) hturn hopen' x acct hp
  cases hslot with
  | leaves waits => exact hwaited hp fun b hb => waits b hb x acct
  | uses action waits hstep =>
    exact hwaited (reclaiming_of_step hstep
      (fun he => action (Concurrency.Label.act.inj he).2) hp) fun b hb => absurd hb (waits b)
  | reclaims source target hstep =>
    rcases List.mem_cons.mp hd with rfl | hd
    · exact ⟨_, target⟩
    -- another call of the run that is in progress is not its turn call
    have hne : d.run ≠ c.run := by
      intro he
      have hturn' := h.lends c List.mem_cons_self (by rw [source]; rfl)
      have hnodup := h.single
      rw [turns_cons, hopen, hturn'] at hnodup
      exact (List.nodup_cons.mp hnodup).1 (mem_turns.mpr ⟨d, hd, he, hturn, hopen'⟩)
    have hp := reclaiming_of_step hstep (fun he => hne (Concurrency.Label.act.inj he).1.symm) hp
    exact h.reclaims d (List.mem_cons_of_mem c hd) hturn hopen' x acct hp

/-! ## Runs -/

/-- What holds between the sections of semaphore, gates and lanes. -/
structure Sound (s : Runtime) : Prop where
  tallied : s.runs.Tallied
  manned : s.runs.Manned
  linked : s.Linked s.calls
  inOrder : InOrder s.runs s.calls

theorem sound_init (maxConcurrent maxQueue timeout : Int) (gates : Nat → Int × Int)
    (lanes : Nat → LaneConfig) (routes : String → String → Route) :
    (init (World.init maxConcurrent maxQueue timeout) gates lanes routes).Sound where
  tallied := tallied_init _ _ _
  manned := ⟨(fun _ hp => by cases hp), fun _ => .inl rfl⟩
  linked :=
    { gates := fun _ => ModelGate.steady_new _ _
      lanes := fun _ => ⟨Lane.steady_new _, Lane.metered_new _, Lane.workConserving_new _,
        Lane.open_normalize _⟩
      places := ⟨fun _ => ⟨.refl _, fun _ h => by cases h⟩, fun _ h => by cases h⟩
      slots := ⟨fun _ => ⟨.refl _, fun _ h => by cases h⟩, fun _ h => by cases h⟩ }
  inOrder := ⟨List.nodup_nil, (fun _ h => by cases h), fun _ h => by cases h⟩

theorem counted_step (ht : w.Tallied) (hm : w.Manned) (hl : UserCalls w l)
    (h : Concurrency.step w l = some w') : w'.Tallied ∧ w'.Manned :=
  ⟨tallied_step ht hl h, manned_step ht.balanced ht.named hm h⟩

theorem counted_slot (ht : w.Tallied) (hm : w.Manned) (h : UsesSlot w c w' c') :
    w'.Tallied ∧ w'.Manned := by
  have hcalls : ∀ a, UserCalls w (.act c.run a) := fun a =>
    ⟨(fun he => by cases he), fun _ he => by cases he⟩
  cases h with
  | leaves => exact ⟨ht, hm⟩
  | uses _ _ hstep | reclaims _ _ hstep => exact counted_step ht hm (hcalls _) hstep

theorem userCalls_of_permits {a : Concurrency.Label} (h : s.permits a = true) :
    UserCalls s.runs a ∧ ∀ i, a ≠ .act i .reclaim := by
  refine ⟨⟨?_, ?_⟩, ?_⟩
  · rintro rfl
    cases h
  · rintro key rfl
    cases h
  · rintro i rfl
    cases h

/-- A section of one call, with the other calls beside it. -/
theorem sound_stepCall {j : Nat} {next : ModelCall → Option (Runtime × ModelCall)} (hs : s.Sound)
    (hnext : ∀ {c c' t}, next c = some (t, c') → s.Advances c t c')
    (h : s.stepCall j next = some s') : s'.Sound := by
  unfold stepCall at h
  split at h
  · cases h
  next c hc =>
  obtain ⟨⟨t, c'⟩, hc', he⟩ := Option.map_eq_some_iff.mp h
  cases he
  obtain ⟨hj, rfl⟩ := List.getElem?_eq_some_iff.mp hc
  have hperm := (List.getElem_cons_eraseIdx_perm hj).symm
  have hperm' := (List.set_perm_cons_eraseIdx hj c').symm
  obtain ⟨hlinked, hser⟩ := hnext hc'
  obtain ⟨ht, hm⟩ := counted_slot hs.tallied hs.manned hser.slot
  have hl := (hlinked (hs.linked.perm hperm)).perm hperm'
  have horder := (hs.inOrder.perm hperm).slot hser.isOpen hser.follows hser.slot
  exact ⟨ht, hm, hl.run rfl rfl, horder.perm hperm'⟩

theorem sound_step {l : Label} (hs : s.Sound) (h : s.step l = some s') : s'.Sound := by
  cases l <;> rw [step] at h
  case sem a =>
    split at h
    · next hpermits =>
      obtain ⟨w, hstep, he⟩ := Option.map_eq_some_iff.mp h
      cases he
      obtain ⟨hcalls, hne⟩ := userCalls_of_permits hpermits
      obtain ⟨ht, hm⟩ := counted_step hs.tallied hs.manned hcalls hstep
      exact ⟨ht, hm, hs.linked.run rfl rfl, hs.inOrder.step hne hstep⟩
    · cases h
  case gate g a =>
    split at h
    · next hambient =>
      obtain ⟨gate, hstep, he⟩ := Option.map_eq_some_iff.mp h
      cases he
      have hserves := ModelGate.serves_ambient hambient hstep
      exact ⟨hs.tallied, hs.manned,
        hs.linked.setGate hstep (hs.linked.places.serves hserves) hs.linked.slots, hs.inOrder⟩
    · cases h
  case lane k a =>
    split at h
    · next hambient =>
      obtain ⟨lane, hstep, he⟩ := Option.map_eq_some_iff.mp h
      cases he
      have hserves := Lane.serves_ambient hambient hstep
      exact ⟨hs.tallied, hs.manned,
        hs.linked.setLane hstep hs.linked.places (hs.linked.slots.serves hserves), hs.inOrder⟩
    · cases h
  case reload routes =>
    cases h
    exact ⟨hs.tallied, hs.manned, hs.linked.run rfl rfl, hs.inOrder⟩
  case call run turn info provider kind maxQueued =>
    split at h
    · next hmay =>
      cases h
      obtain ⟨hproc, hturn⟩ := Bool.and_eq_true_iff.mp hmay
      have hperm (c : ModelCall) : (c :: s.calls).Perm (s.calls ++ [c]) :=
        (List.perm_append_singleton c s.calls).symm
      refine ⟨hs.tallied, hs.manned, ?_, ?_⟩
      · have hl := hs.linked
        exact Linked.perm ⟨hl.gates, hl.lanes, hl.places.cons rfl, hl.slots.cons rfl⟩ (hperm _)
      · refine InOrder.perm ⟨?_, fun c hc => ?_, fun c hc => ?_⟩ (hperm _)
        · rw [turns_cons]
          split
          · next hnew =>
            refine List.nodup_cons.mpr ⟨fun hmem => ?_, hs.inOrder.single⟩
            obtain ⟨c, hc, hrun, hct, hco⟩ := mem_turns.mp hmem
            have hin : s.inTurn run = true := List.any_eq_true.mpr ⟨c, hc, by simp [hrun, hct, hco]⟩
            have hnew : turn = true := (Bool.and_eq_true_iff.mp hnew).1
            simp [hin, hnew] at hturn
          · exact hs.inOrder.single
        · rcases List.mem_cons.mp hc with rfl | hc
          · exact nofun
          · exact hs.inOrder.lends c hc
        · rcases List.mem_cons.mp hc with rfl | hc
          · intro _ _ x acct hp
            rw [hp] at hproc
            cases hproc
          · exact hs.inOrder.reclaims c hc
    · cases h
  case proceed j now done => exact sound_stepCall hs advances_proceed h
  case cancel j now => exact sound_stepCall hs advances_cancel h

end Runtime

end Loomcycle.Concurrency
