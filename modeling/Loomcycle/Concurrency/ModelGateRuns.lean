import Loomcycle.Concurrency.ModelGate

/-! # What the gate lets in

The map of counts is that of the calls in flight, the head of the queue is one that has to
wait, and more models than the limit are in flight only while those a `SetLimit` caught
drain. -/

namespace Loomcycle.Concurrency
open Lib Lib.CountMap

namespace ModelGate

variable {g g' : ModelGate} {w : GateWaiter} {c : GateCall} {model : String}

/-- The calls in flight and those waiting. -/
def ids (g : ModelGate) : List Nat := g.calls.map GateCall.id ++ g.waiters.map GateWaiter.id

/-- The counters of a gate are those of its calls. -/
structure Tracked (g : ModelGate) : Prop where
  counts : Counts g.inFlight g.models
  nodup : g.ids.Nodup
  fresh : ∀ i ∈ g.ids, i < g.nextId

theorem Tracked.callIds (h : g.Tracked) : (g.calls.map GateCall.id).Nodup :=
  (List.nodup_append.mp h.nodup).1

theorem Tracked.admissible (h : g.Tracked) : g.admissible model = true ↔
    (model ∈ g.models ∧ g.starving = false) ∨
    (model ∉ g.models ∧ g.waiters = [] ∧ (distinct g.models : Int) < g.max) := by
  have hpos := h.counts.count_pos (k := model)
  unfold ModelGate.admissible
  rw [h.counts.size_eq]
  split
  · next hin => simp [hpos.mp hin]
  · next hin => simp [mt hpos.mpr hin]

theorem Tracked.held (h : g.Tracked) : g.held model = true ↔
    0 < g.max ∧ model ∉ g.models ∧ g.max ≤ distinct g.models := by
  have hzero : g.inFlight.count model = 0 ↔ model ∉ g.models := by
    rw [← h.counts.count_pos, Nat.pos_iff_ne_zero, not_not]
  unfold ModelGate.held
  rw [h.counts.size_eq]
  simp [hzero, and_assoc]

theorem models_start (g : ModelGate) (model : String) :
    (g.start model).models = g.models ++ [model] := by
  simp [models, start]

/-- The models of the waiters that are let in together. -/
def batch (g : ModelGate) (model : String) : List String :=
  (g.waiters.filter fun w => w.model = model).map GateWaiter.model

theorem eq_of_mem_batch {m : String} (hm : m ∈ g.batch model) : m = model := by
  obtain ⟨w, hw, rfl⟩ := List.mem_map.mp hm
  simpa using (List.mem_filter.mp hw).2

theorem models_admitModel (g : ModelGate) (model : String) :
    (g.admitModel model).models = g.models ++ g.batch model := by
  simp [models, admitModel, batch, GateWaiter.call, Function.comp_def]

theorem calls_drop (h : g.Tracked) (hm : c ∈ g.calls) : g.calls.Perm (c :: (g.drop c).calls) :=
  (List.perm_cons_erase hm).trans ((Lib.Keyed.filter_ne_perm h.callIds hm).symm.cons c)

theorem models_drop (h : g.Tracked) (hm : c ∈ g.calls) :
    g.models.Perm (c.model :: (g.drop c).models) :=
  (calls_drop h hm).map GateCall.model

theorem ids_admitModel (g : ModelGate) (model : String) : g.ids.Perm (g.admitModel model).ids := by
  unfold ids admitModel
  rw [List.map_append, List.map_map, List.append_assoc]
  refine List.Perm.append_left _ ?_
  have hsplit := List.filter_append_perm (fun w : GateWaiter => decide (w.model = model)) g.waiters
  refine (hsplit.symm.map GateWaiter.id).trans ?_
  simp [Function.comp_def, GateWaiter.call]

variable {ids : List Nat}

theorem Tracked.sublist (h : g.Tracked) (hs : ids.Sublist g.ids) :
    ids.Nodup ∧ ∀ i ∈ ids, i < g.nextId :=
  ⟨h.nodup.sublist hs, fun i hi => h.fresh i (hs.subset hi)⟩

theorem Tracked.move (h : g.Tracked) (hm : Move g g') : g'.Tracked := by
  cases hm with
  | @start model =>
    have hids : (g.start model).ids.Perm (g.nextId :: g.ids) := by
      simp only [ids, start, List.map_append, List.map_cons, List.map_nil, List.append_assoc]
      exact List.perm_middle
    obtain ⟨hnodup, hfresh⟩ := Lib.Keyed.fresh_cons h.nodup h.fresh hids
    refine ⟨?_, hnodup, hfresh⟩
    rw [models_start]
    exact (h.counts.inc model).perm (List.perm_append_singleton _ _).symm
  | @enqueue model =>
    have hids : (g.enqueue model).ids.Perm (g.nextId :: g.ids) := by
      simp only [ids, enqueue, List.map_append, List.map_cons, List.map_nil]
      rw [← List.append_assoc]
      exact List.perm_append_singleton _ _
    obtain ⟨hnodup, hfresh⟩ := Lib.Keyed.fresh_cons h.nodup h.fresh hids
    exact ⟨h.counts, hnodup, hfresh⟩
  | @drop c hc =>
    have hids : (g.drop c).ids.Sublist g.ids :=
      List.Sublist.append_right (List.filter_sublist.map _) _
    obtain ⟨hnodup, hfresh⟩ := h.sublist hids
    exact ⟨(h.counts.perm (models_drop h hc)).dec, hnodup, hfresh⟩
  | @letIn w =>
    have hids := ids_admitModel g w.model
    refine ⟨?_, hids.nodup_iff.mp h.nodup, fun i hi => h.fresh i (hids.mem_iff.mpr hi)⟩
    rw [models_admitModel]
    exact (h.counts.incAll (g.batch w.model)).perm List.perm_append_comm
  | @unqueue w =>
    have hids : (g.unqueue w).ids.Sublist g.ids :=
      List.Sublist.append_left (List.filter_sublist.map _) _
    obtain ⟨hnodup, hfresh⟩ := h.sublist hids
    exact ⟨h.counts, hnodup, hfresh⟩
  | tick => exact ⟨h.counts, h.nodup, h.fresh⟩

/-! ## The limit -/

/-- More models than the limit are in flight only with those a `SetLimit` caught. -/
def Draining (g : ModelGate) : Prop :=
  0 < g.max → g.max < distinct g.models → ∀ m ∈ g.models, m ∈ g.atLowered

/-- One more model, which was in flight or for which there was room. -/
theorem Draining.add (h : g.Draining) (model : String) (hmax : g'.max = g.max) (hlow : g'.atLowered = g.atLowered)
    (hsub : g'.models ⊆ model :: g.models)
    (hfits : 0 < g.max → model ∈ g.models ∨ (distinct g.models : Int) < g.max) : g'.Draining := by
  intro hpos hover m hm
  rw [hmax] at hpos hover
  rw [hlow]
  rcases hfits hpos with hin | hroom
  · have hsub : g'.models ⊆ g.models := fun x hx =>
      (List.mem_cons.mp (hsub hx)).elim (fun he => he ▸ hin) id
    have := distinct_le hsub
    exact h hpos (by omega) m (hsub hm)
  · have := distinct_le hsub
    have := distinct_cons_le model g.models
    omega

theorem Draining.fewer (h : g.Draining) (hmax : g'.max = g.max)
    (hlow : g'.atLowered = g.atLowered) (hsub : g'.models ⊆ g.models) : g'.Draining := by
  intro hpos hover m hm
  rw [hmax] at hpos hover
  have := distinct_le hsub
  rw [hlow]
  exact h hpos (by omega) m (hsub hm)

theorem Draining.move (h : g.Draining) (ht : g.Tracked) (hm : Move g g') : g'.Draining := by
  cases hm with
  | @start model _ hruns =>
    refine h.add model rfl rfl ?_ fun _ => ?_
    · rw [models_start]
      exact (List.perm_append_singleton _ _).subset
    · exact (ht.admissible.mp hruns).imp And.left fun hnew => hnew.2.2
  | @letIn w _ _ hfits =>
    refine h.add w.model rfl rfl ?_ fun hpos => ?_
    · rw [models_admitModel]
      intro m hm
      rcases List.mem_append.mp hm with hm | hm
      · exact List.mem_cons_of_mem _ hm
      · rw [eq_of_mem_batch hm]
        exact List.mem_cons_self
    · by_contra hno
      rw [not_or, Int.not_lt] at hno
      exact absurd (ht.held.mpr ⟨hpos, hno⟩) (by rw [hfits]; exact Bool.false_ne_true)
  | drop hc => exact h.fewer rfl rfl ((List.filter_sublist.map _).subset)
  | enqueue => exact h
  | unqueue => exact h
  | tick => exact h

theorem Draining.setLimits (h : g.Draining) (maxModels maxWait : Int) :
    (g.setLimits maxModels maxWait).Draining := by
  intro hpos hover m hm
  change 0 < maxModels at hpos
  change maxModels < distinct g.models at hover
  simp only [ModelGate.setLimits]
  split
  · exact hm
  · next hlow =>
    obtain ⟨hold, hle⟩ : 0 < g.max ∧ g.max ≤ maxModels := by
      simpa [lowers, hpos] using hlow
    exact h hold (by omega) m hm

/-! ## The head of the queue -/

/-- Whoever is at the head has to wait. -/
def Settled (g : ModelGate) : Prop := ∀ w rest, g.waiters = w :: rest → g.held w.model = true

theorem settled_admitLoop {fuel : Nat} (h : g.waiters.length ≤ fuel) :
    (admitLoop fuel g).Settled := by
  induction fuel generalizing g with
  | zero =>
    intro w rest hw
    change g.waiters = w :: rest at hw
    rw [hw] at h
    cases h
  | succ fuel ih =>
    unfold admitLoop
    split
    · next hnil =>
      intro w rest hw
      rw [hnil] at hw
      cases hw
    next w rest hw =>
    split
    · next hheld =>
      intro w' rest' hw'
      rw [hw] at hw'
      cases hw'
      exact hheld
    · -- the head itself goes
      refine ih ?_
      change (g.waiters.filter _).length ≤ fuel
      rw [hw, List.filter_cons_of_neg (by simp)]
      rw [hw, List.length_cons] at h
      have := List.length_filter_le (fun x : GateWaiter => decide (x.model ≠ w.model)) rest
      omega

theorem settled_admitHeads (g : ModelGate) : g.admitHeads.Settled := settled_admitLoop (Nat.le_refl _)

theorem Settled.start (h : g.Settled) (ht : g.Tracked) (hpos : 0 < g.max)
    (hruns : g.admissible model = true) : (g.start model).Settled := by
  intro w rest hw
  have ht' := ht.move (.start hpos hruns)
  obtain ⟨-, hout, hfull⟩ := ht.held.mp (h w rest hw)
  rcases ht.admissible.mp hruns with ⟨hin, -⟩ | ⟨-, hnil, -⟩
  · refine ht'.held.mpr ⟨hpos, ?_, ?_⟩
    · rw [models_start, List.mem_append, List.mem_singleton, not_or]
      exact ⟨hout, fun he => hout (he ▸ hin)⟩
    · have hsub : g.models ⊆ (g.start model).models := by simp [models_start]
      have := distinct_le hsub
      change g.max ≤ _
      omega
  · change g.waiters = w :: rest at hw
    rw [hnil] at hw
    cases hw

theorem Settled.enqueue (h : g.Settled) (ht : g.Tracked) (hpos : 0 < g.max)
    (hwaits : g.admissible model = false) : (g.enqueue model).Settled := by
  intro w rest hw
  change g.waiters ++ [_] = w :: rest at hw
  cases hq : g.waiters with
  | cons x xs =>
    rw [hq] at hw
    obtain ⟨rfl, -⟩ := List.cons.inj hw
    exact h x xs hq
  | nil =>
    rw [hq] at hw
    cases hw
    have hno : ¬ g.admissible model = true := by rw [hwaits]; exact Bool.false_ne_true
    rw [ht.admissible, not_or] at hno
    have hcalm : g.starving = false := by simp [starving, hq]
    have hout : model ∉ g.models := fun hin => hno.1 ⟨hin, hcalm⟩
    exact ht.held.mpr ⟨hpos, hout, Int.not_lt.mp fun hlt => hno.2 ⟨hout, hq, hlt⟩⟩

theorem Settled.endCall (h : g.Settled) (ht : g.Tracked) (hm : c ∈ g.calls) :
    (g.endCall c).Settled := by
  rw [endCall_eq]
  split
  · next hmore =>
    intro w rest hw
    obtain ⟨hpos, hout, hfull⟩ := ht.held.mp (h w rest hw)
    have ht' := ht.move (.drop hm)
    have hperm := models_drop ht hm
    -- the model is still in flight
    have hin : c.model ∈ (g.drop c).models := by
      rw [ht.counts.count_eq, hperm.count_eq, List.count_cons_self] at hmore
      exact List.count_pos_iff.mp (by omega)
    refine ht'.held.mpr ⟨hpos, fun hmem => hout (hperm.mem_iff.mpr (List.mem_cons_of_mem _ hmem)), ?_⟩
    have hsub : g.models ⊆ (g.drop c).models := fun m hmem =>
      (List.mem_cons.mp (hperm.mem_iff.mp hmem)).elim (fun he => he ▸ hin) id
    have := distinct_le hsub
    change g.max ≤ _
    omega
  · exact settled_admitHeads _

/-! ## Runs -/

/-- The agreements of a gate between its sections. -/
structure Steady (g : ModelGate) : Prop where
  tracked : g.Tracked
  draining : g.Draining
  settled : g.Settled

theorem settled_step {a : Label} (h : g.Settled) (ht : g.Tracked) (hs : g.step a = some g') :
    g'.Settled := by
  cases section_step hs with
  | refused | gone | tick => exact h
  | start _ henabled hruns => exact h.start ht henabled hruns
  | enqueue henabled hwaits => exact h.enqueue ht henabled hwaits
  | ended hm => exact h.endCall ht hm
  | givesUp | setLimit => exact settled_admitHeads _

theorem steady_new (maxModels maxWait : Int) : (NewModelGate maxModels maxWait).Steady where
  tracked := ⟨counts_empty, List.nodup_nil, nofun⟩
  draining := nofun
  settled := nofun

theorem steady_step {a : Label} (h : g.Steady) (hs : g.step a = some g') : g'.Steady := by
  obtain ⟨g₀, hr, hm⟩ := step_moves hs
  have h₀ : g₀.Tracked ∧ g₀.Draining := by
    cases hr with
    | same => exact ⟨h.tracked, h.draining⟩
    | setLimit =>
      exact ⟨⟨h.tracked.counts, h.tracked.nodup, h.tracked.fresh⟩, h.draining.setLimits _ _⟩
  obtain ⟨ht, hd⟩ := Transition.moves_invariant hm (I := fun g => g.Tracked ∧ g.Draining)
    (fun h hm => ⟨h.1.move hm, h.2.move h.1 hm⟩) h₀
  exact ⟨ht, hd, settled_step h.settled h.tracked hs⟩

theorem steady_of_run {P : ModelGate → Label → Prop} {maxModels maxWait : Int}
    (h : Transition.Run step P (NewModelGate maxModels maxWait) g) : g.Steady :=
  h.invariant (fun _ _ _ hg _ hs => steady_step hg hs) (steady_new maxModels maxWait)

/-- In every reachable state of a gate: `inFlight` counts the calls let in that have not left
and has no entry for other models; more than `max` models are in flight only with models that
were when a `SetLimit` lowered the limit or enabled the gate; if anyone waits, the model of
the head is not in flight and `max` models are; and at a disabled gate nobody waits. -/
theorem admission_of_run {maxModels maxWait : Int}
    (h : Transition.Run step Transition.Any (NewModelGate maxModels maxWait) g) :
    (∀ m, g.inFlight.lookup m =
      if (g.calls.countP fun c => c.model = m) = 0 then none
      else some (g.calls.countP fun c => c.model = m)) ∧
    (0 < g.max → g.max < distinct g.models → ∀ m ∈ g.models, m ∈ g.atLowered) ∧
    (∀ w rest, g.waiters = w :: rest →
      w.model ∉ g.models ∧ 0 < g.max ∧ g.max ≤ distinct g.models) ∧
    (g.max ≤ 0 → g.waiters = []) := by
  obtain ⟨ht, hd, hsettled⟩ := steady_of_run h
  refine ⟨fun m => ?_, hd, fun w rest hw => ?_, fun hmax => ?_⟩
  · have hcount : (g.calls.countP fun c => c.model = m) = g.models.count m := by
      rw [models, List.count_eq_countP, List.countP_map]
      exact List.countP_congr fun c _ => by simp
    rw [ht.counts m, hcount]
    by_cases hm : m ∈ g.models <;> simp [hm, List.count_eq_zero]
  · obtain ⟨hpos, hout, hfull⟩ := ht.held.mp (hsettled w rest hw)
    exact ⟨hout, hpos, hfull⟩
  · cases hw : g.waiters with
    | nil => rfl
    | cons w rest =>
      have := (ht.held.mp (hsettled w rest hw)).1
      omega

/-- Three models wait in turn; disabling the gate lets them all in, and enabling it again
for two finds three. -/
def reenabledTrace : List Label :=
  [.enter "a" (-1) false, .enter "b" (-1) false, .enter "c" (-1) false, .setLimit 0 0, .setLimit 2 0]

theorem admission_of_reenabled :
    ∃ g, Transition.Run step Transition.Any (NewModelGate 1 0) g ∧
      g.max = 2 ∧ g.models = ["a", "b", "c"] ∧ ∀ m ∈ g.models, m ∈ g.atLowered := by
  obtain ⟨g, hrun, hmax, hmodels⟩ := Transition.exists_run step (NewModelGate 1 0) reenabledTrace
    (p := fun g => g.max = 2 ∧ g.models = ["a", "b", "c"]) (by decide +kernel)
  refine ⟨g, hrun, hmax, hmodels, (admission_of_run hrun).2.1 (by omega) ?_⟩
  rw [hmax, hmodels]
  decide +kernel

/-- Enabling a gate raises `max`, yet the models in flight may be more than it: those that
waited when the gate was disabled were not in flight when `max` last went down. -/
theorem over_raised_limit :
    ∃ g g₀ g', Transition.Run step (fun _ a => ∀ n t, a ≠ .setLimit n t) (NewModelGate 1 0) g ∧
      g.step (.setLimit 0 0) = some g₀ ∧ g₀.step (.setLimit 2 0) = some g' ∧
      g.models = ["a"] ∧ g'.max = 2 ∧ g'.models = ["a", "b", "c"] ∧
      g'.max < distinct g'.models := by
  obtain ⟨g, hrun, hmodels, hsteps⟩ := Transition.exists_run_of_exec step (NewModelGate 1 0)
    [.enter "a" (-1) false, .enter "b" (-1) false, .enter "c" (-1) false]
    (P := fun _ a => ∀ n t, a ≠ Label.setLimit n t)
    (p := fun g => g.models = ["a"] ∧ ((g.step (.setLimit 0 0)).bind fun g₀ =>
      (g₀.step (.setLimit 2 0)).map fun g' => (g'.max, g'.models)) = some (2, ["a", "b", "c"]))
    (by simp) (by decide +kernel)
  obtain ⟨g₀, hg₀, hg'⟩ := Option.bind_eq_some_iff.mp hsteps
  obtain ⟨g', hg', he⟩ := Option.map_eq_some_iff.mp hg'
  obtain ⟨hmax, hmodels'⟩ := Prod.mk.inj he
  refine ⟨g, g₀, g', hrun, hg₀, hg', hmodels, hmax, hmodels', ?_⟩
  rw [hmax, hmodels']
  decide +kernel

end ModelGate

end Loomcycle.Concurrency
