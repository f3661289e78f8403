import Loomcycle.Concurrency.ModelGateRuns

/-! # Who goes first at the gate

Once the oldest waiter has waited `maxWait`, nobody enters before it. Calls to one model are
let in together, so they keep their order, with one exception: a call that queued because
the head of the queue was starving stays queued when that head goes, and later calls to its
model, which is in flight, then pass it for as long as the new head is not starving. -/

namespace Loomcycle.Concurrency
open Lib Lib.CountMap

namespace ModelGate

variable {g g' : ModelGate} {w : GateWaiter} {c : GateCall} {model : String}

theorem calls_admitLoop (fuel : Nat) (g : ModelGate) :
    ∃ more, (admitLoop fuel g).calls = g.calls ++ more := by
  refine admitLoop_invariant (I := fun r => ∃ more, r.calls = g.calls ++ more) ?_ fuel
    ⟨[], (List.append_nil _).symm⟩
  rintro r w _ _ _ ⟨more, hmore⟩
  exact ⟨_, by rw [admitModel, hmore, List.append_assoc]⟩

/-! ## A head that waited too long -/

/-- What `admit` does with a head whose model is not in flight. -/
theorem admit_head (ht : g.Tracked) {rest : List GateWaiter} (hw : g.waiters = w :: rest)
    (hpos : 0 < g.max) (hout : w.model ∉ g.models) :
    (g.max ≤ distinct g.models ∧ g.admitHeads = g) ∨
    ((distinct g.models : Int) < g.max ∧ ∃ more, g.admitHeads.calls = g.calls ++ w.call :: more) := by
  rw [admitHeads, hw, List.length_cons, admitLoop]
  split
  · next hnil =>
    rw [hw] at hnil
    cases hnil
  next w' rest' hw' =>
  rw [hw] at hw'
  obtain ⟨rfl, rfl⟩ := List.cons.inj hw'
  split
  · next hheld => exact .inl ⟨(ht.held.mp hheld).2.2, rfl⟩
  next hfits =>
  refine .inr ⟨Int.not_le.mp fun hfull => hfits (ht.held.mpr ⟨hpos, hout, hfull⟩), ?_⟩
  obtain ⟨more, hmore⟩ := calls_admitLoop rest.length (g.admitModel w.model)
  rw [hmore]
  simp only [admitModel, hw, List.append_assoc]
  rw [List.filter_cons_of_pos (by simp), List.map_cons, List.cons_append]
  exact ⟨_, rfl⟩

/-- The waiter `w` is at the head and has waited too long. -/
structure Starves (g : ModelGate) (w : GateWaiter) : Prop where
  head : g.waiters.head? = some w
  bound : 0 < g.maxWait
  long : g.maxWait ≤ g.now - w.since

/-- The step is no `SetLimit`, and not `w` giving up. -/
def Spares (w : GateWaiter) (_ : ModelGate) : Label → Prop
  | .setLimit _ _ => False
  | .cancel id => id ≠ w.id
  | _ => True

/-- A step past a starving head. `stay` are the calls in flight that go on: while they are
of `max` models, they are all that is in flight and the head stays; as soon as they are of
fewer, it is the next to be let in. -/
def Yields (g : ModelGate) (w : GateWaiter) (g' : ModelGate) : Prop :=
  ∃ stay : List GateCall, stay.Sublist g.calls ∧
    ((g.max ≤ distinct (stay.map GateCall.model) ∧ g'.calls = stay ∧ g'.waiters.head? = some w) ∨
    ((distinct (stay.map GateCall.model) : Int) < g.max ∧
      ∃ more, g'.calls = stay ++ w.call :: more))

section

variable (h : g.Starves w)
include h

theorem Starves.waiters : ∃ rest, g.waiters = w :: rest := by
  cases hw : g.waiters with
  | nil => simpa [hw] using h.head
  | cons x rest => exact ⟨rest, by simpa [hw] using h.head⟩

theorem Starves.starving : g.starving = true := by
  simp [ModelGate.starving, h.head, h.bound, h.long]

theorem Starves.head_held (hs : g.Steady) :
    0 < g.max ∧ w.model ∉ g.models ∧ g.max ≤ distinct g.models := by
  obtain ⟨rest, hw⟩ := h.waiters
  exact hs.tracked.held.mp (hs.settled w rest hw)

theorem Starves.not_admissible (hs : g.Steady) (model : String) : g.admissible model = false := by
  refine Bool.not_eq_true _ |>.mp fun hruns => ?_
  rcases hs.tracked.admissible.mp hruns with ⟨-, hcalm⟩ | ⟨-, hnil, -⟩
  · rw [h.starving] at hcalm
    cases hcalm
  · obtain ⟨rest, hw⟩ := h.waiters
    rw [hnil] at hw
    cases hw

/-- Nobody comes or goes. -/
theorem Starves.stays (hs : g.Steady) (hcalls : g'.calls = g.calls)
    (hhead : g'.waiters.head? = some w) : Yields g w g' :=
  ⟨g.calls, List.Sublist.refl _, .inl ⟨(h.head_held hs).2.2, hcalls, hhead⟩⟩

theorem Starves.endCall (hs : g.Steady) (hm : c ∈ g.calls) : Yields g w (g.endCall c) := by
  have hsub : (g.drop c).calls.Sublist g.calls := List.filter_sublist
  have ht := hs.tracked.move (.drop hm)
  obtain ⟨rest, hw⟩ := h.waiters
  have hw' : (g.drop c).waiters = w :: rest := hw
  have hsettled := hs.settled.endCall hs.tracked hm
  refine ⟨(g.drop c).calls, hsub, ?_⟩
  rw [endCall_eq] at hsettled ⊢
  split at hsettled
  · next hmore =>
    rw [if_pos hmore]
    exact .inl ⟨(ht.held.mp (hsettled w rest hw)).2.2, rfl, h.head⟩
  next hlast =>
  rw [if_neg hlast]
  obtain ⟨hpos, hout, -⟩ := h.head_held hs
  have hout' : w.model ∉ (g.drop c).models := fun hmem =>
    hout ((hsub.map GateCall.model).subset hmem)
  rcases admit_head ht hw' hpos hout' with ⟨hfull, he⟩ | ⟨hroom, hmore⟩
  · rw [he]
    exact .inl ⟨hfull, rfl, h.head⟩
  · exact .inr ⟨hroom, hmore⟩

theorem Starves.unqueue (hs : g.Steady) {x : GateWaiter} (hx : x ∈ g.waiters)
    (hne : x.id ≠ w.id) : Yields g w (g.unqueue x).admitHeads := by
  obtain ⟨rest, hw⟩ := h.waiters
  have hw' : (g.unqueue x).waiters = w :: rest.filter fun y => y.id ≠ x.id := by
    simp [ModelGate.unqueue, hw, Ne.symm hne]
  obtain ⟨hpos, hout, hfull⟩ := h.head_held hs
  rcases admit_head (hs.tracked.move (.unqueue hx)) hw' hpos hout with ⟨-, he⟩ | ⟨hroom, -⟩
  · rw [he]
    exact h.stays hs rfl (by rw [hw']; rfl)
  · exact absurd hfull (Int.not_le.mpr hroom)

theorem Starves.step {a : Label} (hg : g.Steady) (ha : Spares w g a)
    (hs : g.step a = some g') : Yields g w g' := by
  cases section_step hs with
  | refused | gone | tick => exact h.stays hg rfl h.head
  | start _ _ hruns =>
    rw [h.not_admissible hg] at hruns
    cases hruns
  | enqueue =>
    refine h.stays hg rfl ?_
    change (g.waiters ++ [_]).head? = some w
    rw [List.head?_append, h.head]
    rfl
  | ended hm => exact h.endCall hg hm
  | givesUp hm => exact h.unqueue hg hm ha
  | setLimit => exact ha.elim

end

/-- The limits are kept, and time and ids move on. -/
structure Later (g g' : ModelGate) : Prop where
  max : g'.max = g.max
  maxWait : g'.maxWait = g.maxWait
  now : g.now ≤ g'.now
  nextId : g.nextId ≤ g'.nextId

theorem Later.refl (g : ModelGate) : Later g g := ⟨rfl, rfl, Int.le_refl _, Nat.le_refl _⟩

variable {g₀ : ModelGate}

theorem Later.trans (h : Later g₀ g) (h' : Later g g') : Later g₀ g' where
  max := h'.max.trans h.max
  maxWait := h'.maxWait.trans h.maxWait
  now := Int.le_trans h.now h'.now
  nextId := Nat.le_trans h.nextId h'.nextId

theorem later_move (h : Move g g') : Later g g' := by
  cases h with
  | tick d => exact ⟨rfl, rfl, Int.le_add_of_nonneg_right (Int.natCast_nonneg d), Nat.le_refl _⟩
  | start | enqueue => exact ⟨rfl, rfl, Int.le_refl _, Nat.le_succ _⟩
  | _ => exact ⟨rfl, rfl, Int.le_refl _, Nat.le_refl _⟩

/-- A waiter that has gone does not come back. -/
theorem mem_waiters_of_move (h : Move g g') (hid : w.id < g.nextId) (hw : w ∈ g'.waiters) :
    w ∈ g.waiters := by
  cases h with
  | enqueue =>
    rcases List.mem_append.mp hw with hw | hw
    · exact hw
    · rw [List.mem_singleton.mp hw] at hid
      exact absurd hid (Nat.lt_irrefl _)
  | letIn | unqueue => exact (List.mem_filter.mp hw).1
  | _ => exact hw

theorem Tracked.not_waiting (h : g.Tracked) (hc : w.call ∈ g.calls) : w ∉ g.waiters := fun hw =>
  (List.nodup_append.mp h.nodup).2.2 _ (List.mem_map_of_mem hc) _ (List.mem_map_of_mem hw) rfl

theorem later_moves (h : Moves g g') (hid : w.id < g.nextId) :
    Later g g' ∧ (w ∈ g'.waiters → w ∈ g.waiters) := by
  refine Transition.moves_invariant h (I := fun r => Later g r ∧ (w ∈ r.waiters → w ∈ g.waiters)) ?_
    ⟨.refl g, id⟩
  intro r r' hr hmove
  refine ⟨hr.1.trans (later_move hmove), fun hw => hr.2 ?_⟩
  exact mem_waiters_of_move hmove (Nat.lt_of_lt_of_le hid hr.1.nextId) hw

/-- What holds on the way from `g₀`, where `w` was the starving head. -/
structure Passing (g₀ : ModelGate) (w : GateWaiter) (g : ModelGate) : Prop where
  steady : g.Steady
  later : Later g₀ g
  first : w ∈ g.waiters → g.waiters.head? = some w ∧ g.calls.Sublist g₀.calls

theorem Passing.starves (h₀ : g₀.Starves w) (h : Passing g₀ w g) (hw : w ∈ g.waiters) :
    g.Starves w := by
  have hmax := h.later.maxWait
  have hnow := h.later.now
  have hlong := h₀.long
  exact ⟨(h.first hw).1, by rw [hmax]; exact h₀.bound, by omega⟩

theorem Passing.step {a : Label} (h₀ : g₀.Starves w) (hid : w.id < g₀.nextId) (h : Passing g₀ w g)
    (ha : Spares w g a) (hs : g.step a = some g') : Passing g₀ w g' := by
  have hsteady := steady_step h.steady hs
  obtain ⟨g₁, hr, hm⟩ := step_moves hs
  have hsame : g₁ = g := by
    cases hr with
    | same => rfl
    | setLimit => exact ha.elim
  rw [hsame] at hm
  obtain ⟨hlater, hback⟩ := later_moves hm (Nat.lt_of_lt_of_le hid h.later.nextId)
  refine ⟨hsteady, h.later.trans hlater, fun hw => ?_⟩
  have hwaits := hback hw
  obtain ⟨stay, hsub, ⟨-, hcalls, hhead⟩ | ⟨-, more, hcalls⟩⟩ :=
    (h.starves h₀ hwaits).step h.steady ha hs
  · exact ⟨hhead, hcalls ▸ hsub.trans (h.first hwaits).2⟩
  · refine absurd hw (hsteady.tracked.not_waiting ?_)
    rw [hcalls]
    exact List.mem_append_right _ List.mem_cons_self

/-- From a reachable state in which the head of the queue has waited `maxWait`, whatever
enters, leaves or gives up: as long as the head waits, the calls in flight only get fewer,
and it is let in, before anyone else, by the step that leaves fewer than `max` models in
flight. -/
theorem starving_head_next {maxModels maxWait : Int} {rest : List GateWaiter} {g₁ g₂ : ModelGate}
    {a : Label} (h : Transition.Run step Transition.Any (NewModelGate maxModels maxWait) g)
    (hw : g.waiters = w :: rest) (hbound : 0 < g.maxWait) (hlong : g.maxWait ≤ g.now - w.since)
    (hrun : Transition.Run step (Spares w) g g₁) (hwaits : w ∈ g₁.waiters) (ha : Spares w g₁ a)
    (hs : g₁.step a = some g₂) :
    g₁.calls.Sublist g.calls ∧
    ∃ stay : List GateCall, stay.Sublist g₁.calls ∧
      ((g.max ≤ distinct (stay.map GateCall.model) ∧ g₂.calls = stay ∧
          g₂.waiters.head? = some w) ∨
      ((distinct (stay.map GateCall.model) : Int) < g.max ∧
        ∃ more, g₂.calls = stay ++ w.call :: more)) := by
  have hsteady := steady_of_run h
  have h₀ : g.Starves w := ⟨by rw [hw]; rfl, hbound, hlong⟩
  have hmem : w.id ∈ g.ids := List.mem_append_right _ (by rw [hw]; exact List.mem_cons_self)
  have hpass : Passing g w g₁ :=
    hrun.invariant (fun _ _ _ hp ha hs => hp.step h₀ (hsteady.tracked.fresh _ hmem) ha hs)
      ⟨hsteady, .refl g, fun _ => ⟨h₀.head, List.Sublist.refl _⟩⟩
  refine ⟨(hpass.first hwaits).2, ?_⟩
  rw [← hpass.later.max]
  exact (hpass.starves h₀ hwaits).step hpass.steady ha hs

/-- Model `x` waits past the bound behind `m`, then `m` leaves. -/
def starvingTrace : List Label := [.enter "m" (-1) false, .enter "x" (-1) false, .tick 10]

theorem starving_x_next :
    ∃ g g₂, Transition.Run step Transition.Any (NewModelGate 1 10) g ∧
      g.waiters = [⟨1, "x", 0⟩] ∧ g.step (.leave 0) = some g₂ ∧
      ∃ stay : List GateCall, stay.Sublist g.calls ∧
        ((g.max ≤ distinct (stay.map GateCall.model) ∧ g₂.calls = stay ∧
            g₂.waiters.head? = some ⟨1, "x", 0⟩) ∨
        ((distinct (stay.map GateCall.model) : Int) < g.max ∧
          ∃ more, g₂.calls = stay ++ ⟨1, "x"⟩ :: more)) := by
  obtain ⟨g, hrun, hwaiters, hmax, hnow⟩ := Transition.exists_run step (NewModelGate 1 10)
    starvingTrace (p := fun g => g.waiters = [⟨1, "x", 0⟩] ∧ g.maxWait = 10 ∧ g.now = 10)
    (by decide +kernel)
  refine ⟨g, _, hrun, hwaiters, rfl, ?_⟩
  exact (starving_head_next hrun hwaiters (by omega) (by rw [hmax, hnow]; decide) (.refl g)
    (by simp [hwaiters]) (a := .leave 0) trivial rfl).2

/-! ## Order within a model -/

/-- A call let in from the queue leaves nobody of its model waiting. -/
theorem waiters_admitLoop (fuel : Nat) (g : ModelGate) :
    ∀ c ∈ (admitLoop fuel g).calls, c ∉ g.calls →
      ∀ w ∈ (admitLoop fuel g).waiters, w.model ≠ c.model := by
  refine admitLoop_invariant (I := fun r => ∀ c ∈ r.calls, c ∉ g.calls → ∀ w ∈ r.waiters,
    w.model ≠ c.model) ?_ fuel fun _ hc hnew => absurd hc hnew
  intro r x _ _ _ hr c hc hnew w hw
  obtain ⟨hwaits, hother⟩ := List.mem_filter.mp hw
  rcases List.mem_append.mp hc with hc | hc
  · exact hr c hc hnew w hwaits
  · -- it is one of this round
    obtain ⟨y, hy, rfl⟩ := List.mem_map.mp hc
    have hmodel : y.model = x.model := by simpa using (List.mem_filter.mp hy).2
    exact fun he => of_decide_eq_true hother (he.trans hmodel)

/-- The label lets a call pass a waiter for its own model: the model is in flight, the head
of the queue is not starving, and an earlier call to the model is in the queue. -/
def Overtakes (g : ModelGate) : Label → Prop
  | .enter model _ done =>
    model ≠ "" ∧ 0 < g.max ∧ done = false ∧ model ∈ g.models ∧ g.starving = false ∧
      ∃ w ∈ g.waiters, w.model = model
  | _ => False

/-- Whoever is let in by the step leaves no earlier call to its model waiting. -/
def InOrder (g g' : ModelGate) : Prop :=
  ∀ c ∈ g'.calls, c ∉ g.calls → ∀ w ∈ g'.waiters, w.model = c.model → c.id < w.id

theorem inOrder_of_sub (h : ∀ c ∈ g'.calls, c ∈ g.calls) : InOrder g g' :=
  fun c hc hnew => absurd (h c hc) hnew

theorem inOrder_admitHeads (hsub : ∀ c ∈ g₀.calls, c ∈ g.calls) :
    InOrder g g₀.admitHeads := fun c hc hnew w hw he =>
  absurd he (waiters_admitLoop _ g₀ c hc (fun hc₀ => hnew (hsub c hc₀)) w hw)

theorem inOrder_endCall (g : ModelGate) (c : GateCall) : InOrder g (g.endCall c) := by
  have hsub : ∀ x ∈ (g.drop c).calls, x ∈ g.calls := fun x hx => (List.mem_filter.mp hx).1
  rw [endCall_eq]
  split
  · exact inOrder_of_sub hsub
  · exact inOrder_admitHeads hsub

theorem inOrder_start (ht : g.Tracked) :
    InOrder g (g.start model) ↔ ¬ ∃ w ∈ g.waiters, w.model = model := by
  have hnew : (⟨g.nextId, model⟩ : GateCall) ∉ g.calls := fun hm =>
    absurd (ht.fresh _ (List.mem_append_left _ (List.mem_map_of_mem hm))) (Nat.lt_irrefl _)
  constructor
  · rintro horder ⟨w, hw, hmodel⟩
    have hlt := horder _ (List.mem_append_right _ List.mem_cons_self) hnew w hw hmodel
    have hid := ht.fresh w.id (List.mem_append_right _ (List.mem_map_of_mem hw))
    exact absurd hid (Nat.lt_asymm hlt)
  · intro hnone c hc hcnew w hw he
    have hc : c = ⟨g.nextId, model⟩ :=
      List.mem_singleton.mp ((List.mem_append.mp hc).resolve_left hcnew)
    exact absurd ⟨w, hw, by rw [he, hc]⟩ hnone

/-- Exactly the steps that overtake break the order of one model's calls. -/
theorem inOrder_iff {maxModels maxWait : Int} {a : Label}
    (h : Transition.Run step Transition.Any (NewModelGate maxModels maxWait) g)
    (hs : g.step a = some g') :
    (∀ c ∈ g'.calls, c ∉ g.calls → ∀ w ∈ g'.waiters, w.model = c.model → c.id < w.id) ↔
      ¬ Overtakes g a := by
  have ht := (steady_of_run h).tracked
  change InOrder g g' ↔ _
  have hsame : InOrder g g := inOrder_of_sub fun _ hc => hc
  cases section_step hs with
  | refused hwaits =>
    refine iff_of_true hsame fun ⟨hmodel, hpos, hdone, hin, hcalm, _⟩ => ?_
    have hruns := ht.admissible.mpr (.inl ⟨hin, hcalm⟩)
    rw [hwaits hmodel hpos hdone] at hruns
    cases hruns
  | start hmodel hpos hruns =>
    rw [inOrder_start ht, not_iff_not]
    refine ⟨fun hw => ?_, fun ho => ho.2.2.2.2.2⟩
    rcases ht.admissible.mp hruns with ⟨hin, hcalm⟩ | ⟨-, hnil, -⟩
    · exact ⟨hmodel, hpos, rfl, hin, hcalm, hw⟩
    · obtain ⟨w, hw, -⟩ := hw
      rw [hnil] at hw
      cases hw
  | enqueue _ hwaits =>
    refine iff_of_true (inOrder_of_sub fun _ hc => hc) fun ⟨_, _, _, hin, hcalm, _⟩ => ?_
    rw [ht.admissible.mpr (.inl ⟨hin, hcalm⟩)] at hwaits
    cases hwaits
  | gone | tick => exact iff_of_true hsame id
  | ended _ hown =>
    obtain rfl | rfl := hown
    · exact iff_of_true (inOrder_endCall g _) id
    · exact iff_of_true (inOrder_endCall g _) id
  | givesUp | setLimit => exact iff_of_true (inOrder_admitHeads fun _ hc => hc) id

/-- `m` computes; `x` waits past the bound, `y` half as long, and a second call to `m` behind
both; then `x` gives up. -/
def overtakeTrace : List Label :=
  [.enter "m" (-1) false, .enter "x" (-1) false, .tick 5, .enter "y" (-1) false, .tick 5,
    .enter "m" (-1) false, .cancel 1]

theorem inOrder_y :
    ∃ g g', Transition.Run step Transition.Any (NewModelGate 1 10) g ∧
      g.step (.enter "y" (-1) false) = some g' ∧ g.waiters.map GateWaiter.model = ["y", "m"] ∧
      ∀ c ∈ g'.calls, c ∉ g.calls → ∀ w ∈ g'.waiters, w.model = c.model → c.id < w.id := by
  obtain ⟨g, hrun, hwaiters, hmodels⟩ := Transition.exists_run step (NewModelGate 1 10)
    overtakeTrace (p := fun g => g.waiters.map GateWaiter.model = ["y", "m"] ∧ g.models = ["m"])
    (by decide +kernel)
  have hiff := inOrder_iff (a := .enter "y" (-1) false) hrun rfl
  refine ⟨g, _, hrun, rfl, hwaiters, hiff.mpr fun ho => ?_⟩
  have hin := ho.2.2.2.1
  rw [hmodels] at hin
  exact absurd hin (by decide)

/-- The third call to `m` passes the second. -/
theorem overtaken_in_queue :
    ∃ g g', Transition.Run step (fun _ a => ∀ n t, a ≠ .setLimit n t) (NewModelGate 1 10) g ∧
      g.step (.enter "m" (-1) false) = some g' ∧
      ∃ c ∈ g'.calls, c ∉ g.calls ∧ ∃ w ∈ g'.waiters, w.model = c.model ∧ w.id < c.id := by
  obtain ⟨g, hrun, hin, hnew, hwaits⟩ := Transition.exists_run_of_exec step (NewModelGate 1 10)
    overtakeTrace (P := fun _ a => ∀ n t, a ≠ Label.setLimit n t)
    (p := fun g => ⟨4, "m"⟩ ∈ (g.enter "m" (-1) false).1.calls ∧ ⟨4, "m"⟩ ∉ g.calls ∧
      ⟨3, "m", 10⟩ ∈ (g.enter "m" (-1) false).1.waiters)
    (by simp [overtakeTrace]) (by decide +kernel)
  exact ⟨g, _, hrun, rfl, _, hin, hnew, _, hwaits, rfl, by decide⟩

end ModelGate

end Loomcycle.Concurrency
