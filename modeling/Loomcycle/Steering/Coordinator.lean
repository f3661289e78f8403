import Loomcycle.Steering.Queue

/-! Steering a run that another replica owns. `PushRemote` publishes the message on the
backplane and waits for an ack; the owner's subscriber offers the message to the run's queue
and publishes what came of it; every replica's ack subscriber hands an ack of the run to
whoever waits for one there. The acks of one run all look alike: they carry the run id only,
not the message. The backplane may delay, drop or reorder what it carries. -/

namespace Loomcycle.Steering
open Conversation Lib.Transition

/-- A published message. `about` is the push it belongs to, which the payload does not say. -/
structure SteerEvent where
  about : Nat
  msg : Steer
deriving DecidableEq, Repr

/-- A published ack; again the payload has no `about`. -/
structure SteerAck where
  about : Nat
  delivered : Bool
  closed : Bool
deriving DecidableEq, Repr

/-- What `PushRemote` returned. -/
inductive PushResult
  | publishFailed
  | answered (delivered found : Bool)
deriving DecidableEq, Repr

inductive PushStage
  /-- its channel is in `ackSubs`, nothing is published yet -/
  | subscribed
  /-- in the select -/
  | waiting
  | returned (result : PushResult)
deriving DecidableEq, Repr

/-- A call of `PushRemote` that found a live remote owner. -/
structure RemotePush where
  replica : Nat
  msg : Steer
  stage : PushStage
  ackCh : Option SteerAck
deriving DecidableEq, Repr

def RemotePush.inProgress (p : RemotePush) : Bool :=
  match p.stage with
  | .returned _ => false
  | _ => true

/-- One run's steering across replicas. `acks` are on their way, each to the ack subscriber
of one replica; `sending` is what that subscriber has in hand: the waiters it copied out of
`ackSubs` and has not sent the ack to yet. `accepted` records the pushes whose message the
owner's queue took. -/
structure Cluster where
  replicas : List Nat
  owner : Option Entry
  pushes : List RemotePush := []
  events : List SteerEvent := []
  acks : List (Nat × SteerAck) := []
  sending : List (Nat × Nat × SteerAck) := []
  accepted : List Nat := []
deriving DecidableEq, Repr

namespace Cluster

inductive Label
  /-- a replica's handler calls `PushRemote` and adds its channel to `ackSubs` -/
  | start (replica : Nat) (msg : Steer)
  | publish (i : Nat) (ok : Bool)
  /-- the owner's subscriber receives the event at a place of the backplane's choice -/
  | dispatch (k : Nat)
  | dropEvent (k : Nat)
  /-- an ack subscriber receives an ack and copies the waiters -/
  | route (k : Nat)
  | dropAck (k : Nat)
  /-- an ack subscriber sends to the next waiter -/
  | send (replica : Nat)
  | receive (i : Nat)
  | timeout (i : Nat)
  /-- the owner's own side: the run is registered, its queue filled from there, read,
  closed, and the run deregistered -/
  | register (cap : Nat) (verdictsOnly : Bool)
  | pushHere (msg : Steer)
  | read
  | closeQueue
  | deregister
deriving DecidableEq, Repr

/-- The waiters of a replica, in the order of `ackSubs`. -/
def waiters (s : Cluster) (replica : Nat) : List Nat :=
  (List.range s.pushes.length).filter fun i =>
    s.pushes[i]?.any fun p => p.replica == replica && p.inProgress

def setStage (s : Cluster) (i : Nat) (stage : PushStage) : Cluster :=
  { s with pushes := s.pushes.modify i fun p => { p with stage := stage } }

/-- `RunSteerSubscriber` on the replica that owns the run. A miss is skipped. -/
def runSteerSubscriber (s : Cluster) (ev : SteerEvent) : Cluster :=
  let answer := (pushLocal s.owner ev.msg).1
  let ack : SteerAck := ⟨ev.about, answer.delivered, answer.closed⟩
  { s with
    owner := (pushLocal s.owner ev.msg).2
    accepted := if accepts s.owner ev.msg then s.accepted ++ [ev.about] else s.accepted
    acks := if answer.found then s.acks ++ s.replicas.map fun r => (r, ack) else s.acks }

/-- A send without blocking: a channel that holds an ack already keeps it. -/
def deliver (s : Cluster) (i : Nat) (ack : SteerAck) : Cluster :=
  { s with pushes := s.pushes.modify i fun p =>
      { p with ackCh := if p.ackCh.isSome then p.ackCh else some ack } }

def ackResult (ack : SteerAck) : PushResult :=
  if ack.closed then .answered false false else .answered ack.delivered true

def step (s : Cluster) : Label → Option Cluster
  | .start replica msg =>
    if replica ∈ s.replicas then
      some { s with pushes := s.pushes ++ [⟨replica, msg, .subscribed, none⟩] }
    else none
  | .publish i ok =>
    match s.pushes[i]? with
    | some ⟨_, msg, .subscribed, _⟩ =>
      if ok then some { s.setStage i .waiting with events := s.events ++ [⟨i, msg⟩] }
      else some (s.setStage i (.returned .publishFailed))
    | _ => none
  | .dispatch k =>
    (s.events[k]?).map fun ev => { s with events := s.events.eraseIdx k }.runSteerSubscriber ev
  | .dropEvent k =>
    if k < s.events.length then some { s with events := s.events.eraseIdx k } else none
  | .route k =>
    match s.acks[k]? with
    | some (replica, ack) =>
      -- one subscriber a replica: it takes the next ack when it is done with the last
      if s.sending.any (·.1 == replica) then none
      else some { s with
        acks := s.acks.eraseIdx k
        sending := s.sending ++ (s.waiters replica).map fun i => (replica, i, ack) }
    | none => none
  | .dropAck k =>
    if k < s.acks.length then some { s with acks := s.acks.eraseIdx k } else none
  | .send replica =>
    match s.sending.find? (·.1 == replica) with
    | some (r, i, ack) => some ({ s with sending := s.sending.erase (r, i, ack) }.deliver i ack)
    | none => none
  | .receive i =>
    match s.pushes[i]? with
    | some ⟨_, _, .waiting, some ack⟩ => some (s.setStage i (.returned (ackResult ack)))
    | _ => none
  | .timeout i =>
    match s.pushes[i]? with
    | some ⟨_, _, .waiting, _⟩ => some (s.setStage i (.returned (.answered false true)))
    | _ => none
  | .register cap verdictsOnly => some { s with owner := some ⟨cap, verdictsOnly, false, []⟩ }
  | .pushHere msg => some { s with owner := (pushLocal s.owner msg).2 }
  | .read => some { s with owner := s.owner.map fun e => { e with ch := e.ch.tail } }
  | .closeQueue => some { s with owner := (closeIfEmpty s.owner).2 }
  | .deregister => some { s with owner := none }

/-- A push of the run begins only when no other is in progress and nothing of an earlier one
is under way. -/
def Alone (s : Cluster) : Label → Prop
  | .start _ _ => (∀ p ∈ s.pushes, p.inProgress = false) ∧ s.events = [] ∧ s.acks = [] ∧
      s.sending = []
  | _ => True

instance (s : Cluster) : (a : Label) → Decidable (Alone s a)
  | .start _ _ => inferInstanceAs (Decidable ((∀ p ∈ s.pushes, p.inProgress = false) ∧
      s.events = [] ∧ s.acks = [] ∧ s.sending = []))
  | .publish _ _ | .dispatch _ | .dropEvent _ | .route _ | .dropAck _ | .send _ | .receive _
  | .timeout _ | .register _ _ | .pushHere _ | .read | .closeQueue | .deregister =>
    .isTrue trivial

variable {s s' : Cluster} {a : Label} {i : Nat} {ack : SteerAck}

/-- An ack on its way to a waiter. -/
def Carried (s : Cluster) (ack : SteerAck) : Prop :=
  (∃ r, (r, ack) ∈ s.acks) ∨ ∃ r i, (r, i, ack) ∈ s.sending

/-- The push at position `i` has not returned. -/
def Current (s : Cluster) (i : Nat) : Prop :=
  ∃ p, s.pushes[i]? = some p ∧ p.inProgress = true

/-- An ack says `delivered` only if the queue took the message it is about. -/
def Truthful (s : Cluster) (ack : SteerAck) : Prop :=
  ack.delivered = true → ack.about ∈ s.accepted

/-- While a push is in progress it is the last one, and all that is under way is about it. -/
structure Matched (s : Cluster) : Prop where
  last : ∀ i, s.Current i → i + 1 = s.pushes.length
  events : ∀ i, s.Current i → ∀ ev ∈ s.events, ev.about = i
  acks : ∀ i, s.Current i → ∀ ack, s.Carried ack → ack.about = i
  channel : ∀ (i : Nat) (p : RemotePush) (ack : SteerAck), s.pushes[i]? = some p →
    p.inProgress = true → p.ackCh = some ack → ack.about = i
  truthful : ∀ ack, s.Carried ack → s.Truthful ack
  heldTruthful : ∀ p ∈ s.pushes, ∀ ack, p.ackCh = some ack → s.Truthful ack
  result : ∀ (i : Nat) (p : RemotePush) (found : Bool), s.pushes[i]? = some p →
    p.stage = .returned (.answered true found) → i ∈ s.accepted

section

variable (hs : Matched s)
include hs

/-- A step that leaves the calls alone: what it carries on was under way, or answers an event
that was. -/
theorem Matched.carry (hp : s'.pushes = s.pushes)
    (hev : ∀ ev ∈ s'.events, ev ∈ s.events) (hacc : ∀ i ∈ s.accepted, i ∈ s'.accepted)
    (hack : ∀ ack, s'.Carried ack →
      s.Carried ack ∨ (∃ ev ∈ s.events, ack.about = ev.about) ∧ s'.Truthful ack) : Matched s' := by
  have hcur : ∀ i, s'.Current i → s.Current i := by
    intro i h
    rwa [Current, hp] at h
  refine ⟨fun i hi => ?_, fun i hi ev hmem => hs.events i (hcur i hi) ev (hev ev hmem),
    fun i hi ack hc => ?_, ?_, fun ack hc => ?_, ?_, ?_⟩
  · rw [hp]
    exact hs.last i (hcur i hi)
  · obtain hc | ⟨⟨ev, hmem, heq⟩, -⟩ := hack ack hc
    · exact hs.acks i (hcur i hi) ack hc
    · rw [heq]
      exact hs.events i (hcur i hi) ev hmem
  · rw [hp]
    exact hs.channel
  · obtain hc | ⟨-, htrue⟩ := hack ack hc
    · exact fun hd => hacc _ (hs.truthful ack hc hd)
    · exact htrue
  · rw [hp]
    exact fun p hmem ack hch hd => hacc _ (hs.heldTruthful p hmem ack hch hd)
  · rw [hp]
    exact fun i p found hget hstage => hacc _ (hs.result i p found hget hstage)

variable {f : RemotePush → RemotePush} {l : List RemotePush} {p : RemotePush}

omit hs in
theorem getElem?_modify_cases {j : Nat} {p' : RemotePush} (h : (l.modify i f)[j]? = some p') :
    ∃ p, l[j]? = some p ∧ (p' = p ∨ j = i ∧ p' = f p) := by
  rw [List.getElem?_modify] at h
  obtain ⟨p, hget, hp⟩ := Option.map_eq_some_iff.mp h
  refine ⟨p, hget, ?_⟩
  by_cases hij : i = j
  · exact .inr ⟨hij.symm, by simpa [hij] using hp.symm⟩
  · exact .inl (by simpa [hij] using hp.symm)

/-- A change to one call: it does not come back into progress, its channel gets only an ack
that was on its way, and a result it reports is right. -/
theorem Matched.modify
    (hprog : ∀ p, s.pushes[i]? = some p → (f p).inProgress = true → p.inProgress = true)
    (hch : ∀ p ack, s.pushes[i]? = some p → (f p).ackCh = some ack → p.ackCh = some ack ∨ s.Carried
      ack)
    (hres : ∀ p found, s.pushes[i]? = some p → (f p).stage = .returned (.answered true found) → i ∈
      s.accepted) : Matched { s with pushes := s.pushes.modify i f } := by
  have hback : ∀ (j : Nat) (q' : RemotePush), (s.pushes.modify i f)[j]? = some q' →
      ∃ q, s.pushes[j]? = some q ∧ (q'.inProgress = true → q.inProgress = true) ∧
        (∀ ack, q'.ackCh = some ack → q.ackCh = some ack ∨ s.Carried ack) ∧
        ∀ found, q'.stage = .returned (.answered true found) → j ∈ s.accepted := by
    intro j q' hq'
    obtain ⟨q, hq, rfl | ⟨rfl, rfl⟩⟩ := getElem?_modify_cases hq'
    · exact ⟨_, hq, id, fun _ => .inl, fun found => hs.result j _ found hq⟩
    · exact ⟨q, hq, hprog q hq, fun ack => hch q ack hq, fun found => hres q found hq⟩
  have hcur : ∀ j, Current { s with pushes := s.pushes.modify i f } j → s.Current j := by
    rintro j ⟨q', hq', hq'_prog⟩
    obtain ⟨q, hq, hq_prog, -, -⟩ := hback j q' hq'
    exact ⟨q, hq, hq_prog hq'_prog⟩
  refine ⟨fun j hj => ?_, fun j hj => hs.events j (hcur j hj), fun j hj => hs.acks j (hcur j hj),
    fun j q' ack hq' hq'_prog hack => ?_, hs.truthful, fun q' hmem ack hack => ?_,
    fun j q' found hq' hst => ?_⟩
  · rw [hs.last j (hcur j hj), List.length_modify]
  · obtain ⟨q, hq, hq_prog, hq_ch, -⟩ := hback j q' hq'
    obtain hack | hack := hq_ch ack hack
    · exact hs.channel j q ack hq (hq_prog hq'_prog) hack
    · exact hs.acks j ⟨q, hq, hq_prog hq'_prog⟩ ack hack
  · obtain ⟨j, hq'⟩ := List.getElem?_of_mem hmem
    obtain ⟨q, hq, -, hq_ch, -⟩ := hback j q' hq'
    obtain hack | hack := hq_ch ack hack
    · exact hs.heldTruthful q (List.mem_of_getElem? hq) ack hack
    · exact hs.truthful ack hack
  · obtain ⟨q, hq, -, -, hq_res⟩ := hback j q' hq'
    exact hq_res found hst

/-- A call that returns, with a result that is right. -/
theorem Matched.return {result : PushResult}
    (hresult : ∀ found, result = .answered true found → i ∈ s.accepted) :
    Matched (s.setStage i (.returned result)) :=
  hs.modify (fun _ _ hprog => by cases hprog) (fun _ _ _ => .inl)
    (fun _ found _ hst => hresult found (PushStage.returned.inj hst))

omit hs in
theorem getElem?_concat_cases {x : RemotePush} {j : Nat} (h : (l ++ [x])[j]? = some p) :
    l[j]? = some p ∨ j = l.length ∧ p = x := by
  grind

/-- `PushRemote` adds its channel when nothing of the run is under way. -/
theorem matched_start {replica : Nat} {msg : Steer} (ha : Alone s (.start replica msg)) :
    Matched { s with pushes := s.pushes ++ [⟨replica, msg, .subscribed, none⟩] } := by
  obtain ⟨hidle, hevents, hacks, hsending⟩ := ha
  have hcarried : ∀ ack, ¬ s.Carried ack := by
    rintro ack (⟨r, hr⟩ | ⟨r, i, hr⟩)
    · rw [hacks] at hr
      cases hr
    · rw [hsending] at hr
      cases hr
  -- the push in progress is the new one
  have hnew : ∀ (j : Nat) (p : RemotePush),
      (s.pushes ++ [⟨replica, msg, .subscribed, none⟩])[j]? = some p → p.inProgress = true →
        j = s.pushes.length ∧ p = ⟨replica, msg, .subscribed, none⟩ := by
    intro j p hget hprog
    refine (getElem?_concat_cases hget).resolve_left fun hold => ?_
    rw [hidle p (List.mem_of_getElem? hold)] at hprog
    cases hprog
  refine ⟨?_, ?_, fun j _ ack hc => absurd hc (hcarried ack), ?_,
    fun ack hc => absurd hc (hcarried ack), ?_, ?_⟩
  · rintro j ⟨p, hget, hprog⟩
    rw [(hnew j p hget hprog).1, List.length_append]
    rfl
  · intro j _ ev hev
    rw [hevents] at hev
    cases hev
  · intro j p ack hget hprog hch
    rw [(hnew j p hget hprog).2] at hch
    cases hch
  · intro p hmem ack hch
    obtain hmem | hmem := List.mem_append.mp hmem
    · exact hs.heldTruthful p hmem ack hch
    · rw [List.mem_singleton.mp hmem] at hch
      cases hch
  · intro j p found hget hstage
    obtain hold | ⟨-, rfl⟩ := getElem?_concat_cases hget
    · exact hs.result j p found hold hstage
    · cases hstage

theorem matched_publish (hget : s.pushes[i]? = some p) (hstage : p.stage = .subscribed) :
    Matched { s.setStage i .waiting with events := s.events ++ [⟨i, p.msg⟩] } := by
  have hprog : p.inProgress = true := by rw [RemotePush.inProgress, hstage]
  have hwait : Matched (s.setStage i .waiting) := by
    refine hs.modify (fun q hq _ => ?_) (fun _ _ _ => .inl) (fun _ _ _ hst => by cases hst)
    rwa [← Option.mem_unique hget hq]
  have hi : (s.setStage i .waiting).Current i := by
    refine ⟨{ p with stage := .waiting }, ?_, rfl⟩
    rw [setStage, List.getElem?_modify_eq, hget]
    rfl
  refine ⟨hwait.last, fun j hj ev hev => ?_, hwait.acks, hwait.channel, hwait.truthful,
    hwait.heldTruthful, hwait.result⟩
  obtain hev | hev := List.mem_append.mp hev
  · exact hwait.events j hj ev hev
  · rw [List.mem_singleton.mp hev]
    exact Nat.succ.inj ((hwait.last i hi).trans (hwait.last j hj).symm)

theorem matched_dispatch {k : Nat} {ev : SteerEvent} (hget : s.events[k]? = some ev) :
    Matched ({ s with events := s.events.eraseIdx k }.runSteerSubscriber ev) := by
  refine hs.carry rfl (fun _ => List.mem_of_mem_eraseIdx) (fun j hj => ?_) ?_
  · dsimp only [runSteerSubscriber]
    split
    · exact List.mem_append_left _ hj
    · exact hj
  · rintro ack (⟨r, hr⟩ | hsent)
    · dsimp only [runSteerSubscriber] at hr
      split at hr
      · obtain hr | hr := List.mem_append.mp hr
        · exact .inl (.inl ⟨r, hr⟩)
        · -- the ack of this event, true because the queue's answer is
          obtain ⟨r', -, heq⟩ := List.mem_map.mp hr
          obtain rfl := (Prod.mk.inj heq).2
          refine .inr ⟨⟨ev, List.mem_of_getElem? hget, rfl⟩, fun hdelivered => ?_⟩
          dsimp only [runSteerSubscriber]
          rw [if_pos (accepts_of_delivered hdelivered)]
          exact List.mem_append_right _ List.mem_cons_self
      · exact .inl (.inl ⟨r, hr⟩)
    · exact .inl (.inr hsent)

theorem matched_route {k r : Nat} (hget : s.acks[k]? = some (r, ack)) : Matched { s with
      acks := s.acks.eraseIdx k
      sending := s.sending ++ (s.waiters r).map fun i => (r, i, ack) } := by
  refine hs.carry rfl (fun _ => id) (fun _ => id) ?_
  rintro ack' (⟨r', hr⟩ | ⟨r', j, hr⟩)
  · exact .inl (.inl ⟨r', List.mem_of_mem_eraseIdx hr⟩)
  · obtain hr | hr := List.mem_append.mp hr
    · exact .inl (.inr ⟨r', j, hr⟩)
    · obtain ⟨_, -, heq⟩ := List.mem_map.mp hr
      obtain rfl := (Prod.mk.inj (Prod.mk.inj heq).2).2
      exact .inl (.inl ⟨r, List.mem_of_getElem? hget⟩)

theorem matched_send {r : Nat} (hmem : (r, i, ack) ∈ s.sending) :
    Matched ({ s with sending := s.sending.erase (r, i, ack) }.deliver i ack) := by
  have hdelivered : Matched (s.deliver i ack) := by
    refine hs.modify (fun _ _ => id) (fun p ack' _ hch => ?_) (fun p found hp => hs.result i p found hp)
    split at hch
    · exact .inl hch
    · cases hch
      exact .inr (.inr ⟨r, i, hmem⟩)
  refine hdelivered.carry rfl (fun _ => id) (fun _ => id) ?_
  rintro ack' (hr | ⟨r', j, hr⟩)
  · exact .inl (.inl hr)
  · exact .inl (.inr ⟨r', j, List.mem_of_mem_erase hr⟩)

/-- What a push returns from an ack of its own is right. -/
theorem matched_receive (hget : s.pushes[i]? = some p)
    (hstage : p.stage = .waiting) (hch : p.ackCh = some ack) :
    Matched (s.setStage i (.returned (ackResult ack))) := by
  refine hs.return fun found hresult => ?_
  rw [ackResult] at hresult
  split at hresult
  · cases hresult
  · have hown := hs.channel i p ack hget (by rw [RemotePush.inProgress, hstage]) hch
    rw [← hown]
    exact hs.heldTruthful p (List.mem_of_getElem? hget) ack hch (PushResult.answered.inj hresult).1

theorem matched_step (ha : Alone s a) (h : step s a = some s') : Matched s' := by
  cases a <;> rw [step] at h
  case start replica msg =>
    split at h
    · cases h
      exact matched_start hs ha
    · cases h
  case publish i ok =>
    split at h
    · next replica msg ch hget =>
      split at h
      · cases h
        exact matched_publish hs hget rfl
      · cases h
        exact hs.return fun found hresult => by cases hresult
    · cases h
  case dispatch k =>
    obtain ⟨ev, hget, rfl⟩ := Option.map_eq_some_iff.mp h
    exact matched_dispatch hs hget
  case dropEvent k =>
    split at h
    · cases h
      exact hs.carry rfl (fun _ => List.mem_of_mem_eraseIdx) (fun _ => id) (fun _ => .inl)
    · cases h
  case route k =>
    split at h
    · next r ack hget =>
      split at h
      · cases h
      · cases h
        exact matched_route hs hget
    · cases h
  case dropAck k =>
    split at h
    · cases h
      refine hs.carry rfl (fun _ => id) (fun _ => id) ?_
      rintro ack (⟨r, hr⟩ | hsent)
      · exact .inl (.inl ⟨r, List.mem_of_mem_eraseIdx hr⟩)
      · exact .inl (.inr hsent)
    · cases h
  case send replica =>
    split at h
    · next r i ack hfind =>
      cases h
      exact matched_send hs (List.mem_of_find?_eq_some hfind)
    · cases h
  case receive i =>
    split at h
    · next replica msg ack hget =>
      cases h
      exact matched_receive hs hget rfl rfl
    · cases h
  case timeout i =>
    split at h
    · cases h
      exact hs.return fun found hresult => by cases hresult
    · cases h
  -- the owner's own side does not touch what is under way
  all_goals
    cases h
    exact hs.carry rfl (fun _ => id) (fun _ => id) (fun _ => .inl)

end

theorem matched_init (replicas : List Nat) : Matched { replicas, owner := none } where
  last := by rintro i ⟨p, hget, -⟩; cases hget
  events := nofun
  acks := by rintro i ⟨p, hget, -⟩; cases hget
  channel := fun _ _ _ hget => by cases hget
  truthful := by rintro ack (⟨r, hr⟩ | ⟨r, i, hr⟩) <;> cases hr
  heldTruthful := nofun
  result := fun _ _ _ hget => by cases hget

/-- `PushRemote` returned that the message was delivered. -/
def reported (s : Cluster) (i : Nat) : Bool :=
  s.pushes[i]?.any fun p =>
    match p.stage with
    | .returned (.answered true _) => true
    | _ => false

theorem Matched.accepted (hs : Matched s) (h : s.reported i = true) : i ∈ s.accepted := by
  rw [reported] at h
  cases hget : s.pushes[i]? with
  | none => rw [hget] at h; cases h
  | some p =>
    rw [hget, Option.any_some] at h
    split at h
    · next found hstage => exact hs.result i p found hget hstage
    · cases h

/-- When no push of the run begins while something of another is under way, a push is
reported delivered only if the owner's queue accepted its message; so of two pushes of which
one was not accepted, one is not reported delivered. -/
theorem ack_about_own_message {replicas : List Nat}
    (h : Run step Alone { replicas, owner := none } s) :
    (∀ i, s.reported i = true → i ∈ s.accepted) ∧
      ∀ i j, i ∉ s.accepted ∨ j ∉ s.accepted →
        ¬ (s.reported i = true ∧ s.reported j = true) := by
  have hs := h.invariant (fun _ _ _ hs ha he => matched_step hs ha he) (matched_init replicas)
  refine ⟨fun i => hs.accepted, fun i j hnot hboth => ?_⟩
  obtain hi | hj := hnot
  · exact hi (hs.accepted hboth.1)
  · exact hj (hs.accepted hboth.2)

/-- Two pushes, one after the other, to a queue that holds one message: the first is accepted
and reported delivered, the second neither. -/
theorem ack_about_own_message_in_turn :
    ∃ s, Run step Alone { replicas := [1], owner := none } s ∧ s.accepted = [0] ∧
      s.reported 0 = true ∧ s.reported 1 = false ∧
      (∀ i, s.reported i = true → i ∈ s.accepted) := by
  obtain ⟨s, hrun, haccepted, hfirst, hsecond⟩ := exists_run_guarded step Alone
    { replicas := [1], owner := none }
    [.register 1 false, .start 1 (.operator "a"), .publish 0 true, .dispatch 0, .route 0,
      .send 1, .receive 0, .start 1 (.operator "b"), .publish 1 true, .dispatch 0, .route 0,
      .send 1, .receive 1]
    (p := fun s => s.accepted = [0] ∧ s.reported 0 = true ∧ s.reported 1 = false)
    (by decide +kernel)
  exact ⟨s, hrun, haccepted, hfirst, hsecond, (ack_about_own_message hrun).1⟩

/-- Two pushes at once to a queue that holds one message: the ack of the first goes to both
callers, and both report the message delivered. -/
theorem ack_about_another_message :
    ∃ s, Run step Any { replicas := [1], owner := none } s ∧ s.accepted = [0] ∧
      s.reported 0 = true ∧ s.reported 1 = true := by
  exact exists_run step _
    [.register 1 false, .start 1 (.operator "a"), .start 1 (.operator "b"), .publish 0 true,
      .publish 1 true, .dispatch 0, .route 0, .send 1, .send 1, .receive 0, .receive 1, .dispatch 0]
    (by decide +kernel)

end Cluster

end Loomcycle.Steering
