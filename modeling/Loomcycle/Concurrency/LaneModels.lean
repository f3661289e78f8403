import Loomcycle.Concurrency.LaneLeases

/-! # Caps of models

A lane may cap the calls in flight of single models. The queue serves nobody whose model is
at its cap, and nobody else waits beside a free slot. A cap that a `Reconfigure` puts below
the calls in flight is kept by starting none until they have drained. -/

namespace Loomcycle.Concurrency
open Lib

section Caps

variable {caps : List (String × Int)} {model key : String} {n : Int}

/-- The length of the best key so far. -/
def capLen (best : Option (String × Int)) : Nat := best.elim 0 fun b => b.1.length

theorem longerCap_cases (best : Option (String × Int)) (c : String × Int) :
    (longerCap model best c = best ∧ (sized c.1 model = true → c.1.length ≤ capLen best)) ∨
    (longerCap model best c = some c ∧ sized c.1 model = true ∧ capLen best < c.1.length) := by
  unfold longerCap
  split
  · next h => exact .inr ⟨rfl, h.2, h.1⟩
  · next h => exact .inl ⟨rfl, fun hs => Nat.not_lt.mp fun hlt => h ⟨hlt, hs⟩⟩

/-- The loop of `capFor` ends with what it had or with a longer key, of its entries the first. -/
theorem foldl_longerCap (model : String) (caps : List (String × Int)) (best : Option (String × Int)) :
    caps.foldl (longerCap model) best = best ∨
      ∃ k n, caps.foldl (longerCap model) best = some (k, n) ∧ caps.lookup k = some n ∧
        sized k model = true ∧ capLen best < k.length := by
  induction caps generalizing best with
  | nil => exact .inl rfl
  | cons c caps ih =>
    rw [List.foldl_cons]
    have hres := ih (longerCap model best c)
    rcases longerCap_cases best c with ⟨he, hshort⟩ | ⟨he, hsized, hlt⟩
    · rw [he] at hres ⊢
      refine hres.imp_right fun ⟨k, n, hr, hlook, hs, hlen⟩ => ⟨k, n, hr, ?_, hs, hlen⟩
      -- an entry of the same key would have been taken
      have hne : k ≠ c.1 := fun hk => absurd (hshort (hk ▸ hs)) (hk ▸ Nat.not_le.mpr hlen)
      rw [List.lookup_cons, beq_false_of_ne hne]
      exact hlook
    · rw [he] at hres ⊢
      refine .inr ?_
      rcases hres with hr | ⟨k, n, hr, hlook, hs, hlen⟩
      · exact ⟨c.1, c.2, hr, List.lookup_cons_self, hsized, hlt⟩
      · have hne : k ≠ c.1 := fun hk => absurd hlen (hk ▸ Nat.lt_irrefl _)
        refine ⟨k, n, hr, ?_, hs, hlt.trans hlen⟩
        rw [List.lookup_cons, beq_false_of_ne hne]
        exact hlook

/-- The cap that covers a model is the entry of its key. -/
theorem capFor_eq_some (h : capFor caps model = some (key, n)) : caps.lookup key = some n := by
  unfold capFor at h
  split at h
  · cases h
  split at h
  · next hlook =>
    cases h
    exact hlook
  rcases foldl_longerCap model caps none with hr | ⟨k, n', hr, hlook, -⟩
  · cases h.symm.trans hr
  · cases h.symm.trans hr
    exact hlook

theorem capFor_of_covered (hc : covered caps key model = true) (hn : caps.lookup key = some n) :
    capFor caps model = some (key, n) := by
  unfold covered at hc
  cases hcap : capFor caps model with
  | none =>
    rw [hcap] at hc
    cases hc
  | some c =>
    rw [hcap] at hc
    obtain rfl : c.1 = key := by simpa using hc
    have hlook : caps.lookup c.1 = some c.2 := capFor_eq_some hcap
    rw [hn] at hlook
    cases hlook
    rfl

end Caps

/-- The calls that the cap named `key` covers. -/
def coveredCalls (caps : List (String × Int)) (key : String) (calls : List LaneCall) : Nat :=
  calls.countP fun c => covered caps key c.info.model

namespace Lane

variable {l l' : Lane} {key : String} {n : Int}

/-- What a move does with the calls in flight. -/
inductive CallMove (l l' : Lane) : Prop
  | same (calls : l'.calls = l.calls) (models : l'.modelActive = l.modelActive)
  | starts {call : LaneCall} (runs : l.modelBlocked call.info.model = false)
    (calls : l'.calls = l.calls ++ [call])
    (models : l'.modelActive = startModel l.modelActive call.info.model)
  | ends {call : LaneCall} (mem : call ∈ l.calls)
    (calls : l'.calls = (l.endCall call).calls)
    (models : l'.modelActive = endModel l.modelActive call.info.model)

theorem callMove (h : Move l l') : CallMove l l' := by
  cases h with
  | grant _ hruns | resume _ _ _ _ hruns => exact .starts hruns rfl rfl
  | @serve w l₁ _ hruns frame =>
    have hcalls : l₁.calls = l.calls := by rw [frame]
    have hmodels : l₁.modelActive = l.modelActive := by rw [frame]
    exact .starts hruns (congrArg (· ++ [_]) hcalls) (congrArg (startModel · _) hmodels)
  | free hm => exact .ends hm rfl rfl
  | forgo hm => exact .ends hm rfl rfl
  | reserve hm => exact .ends hm rfl rfl
  | _ => exact .same rfl rfl

theorem settings_move (h : Move l l') : l'.cfg = l.cfg ∧ l'.tightened = l.tightened := by
  cases h with
  | @serve w l₁ _ _ frame =>
    rw [frame]
    exact ⟨rfl, rfl⟩
  | _ => exact ⟨rfl, rfl⟩

/-- `modelActive` counts the models of the calls in flight. -/
def Modelled (l : Lane) : Prop :=
  l.modelActive.Perm ((l.calls.map fun c => c.info.model).filter fun m => m ≠ "")

theorem Modelled.move (h : l.Modelled) (hl : l.Leased) (hm : CallMove l l') : l'.Modelled := by
  unfold Modelled at h ⊢
  cases hm with
  | same hcalls hmodels =>
    rw [hcalls, hmodels]
    exact h
  | @starts call _ hcalls hmodels =>
    rw [hcalls, hmodels, List.map_append, List.filter_append, startModel]
    by_cases he : call.info.model = ""
    · simpa [he] using h
    · simpa [he] using h.append_right [call.info.model]
  | @ends call hmem hcalls hmodels =>
    rw [hcalls, hmodels, endModel]
    have hp := ((calls_perm_endCall hl hmem).map fun c => c.info.model).filter fun m => m ≠ ""
    have hp := List.Perm.trans h hp
    by_cases he : call.info.model = ""
    · simpa [he] using hp
    · rw [List.map_cons, List.filter_cons_of_pos (by simpa using he)] at hp
      rw [if_neg he]
      exact (hp.erase _).trans (by rw [List.erase_cons_head])

theorem modelInFlight_eq (h : l.Modelled) (key : String) :
    l.modelInFlight key = coveredCalls l.cfg.modelCaps key l.calls := by
  unfold modelInFlight coveredCalls
  rw [h.countP_eq, List.countP_filter, List.countP_map]
  refine List.countP_congr fun c _ => ?_
  by_cases he : c.info.model = ""
  · simp [he, show covered l.cfg.modelCaps key "" = false from rfl]
  · simp [he]

/-- A move takes a cap's calls to no more than the cap, or leaves them no more than they were. -/
theorem coveredCalls_move (h : l.Modelled) (hm : CallMove l l')
    (hn : l.cfg.modelCaps.lookup key = some n) :
    (coveredCalls l.cfg.modelCaps key l'.calls : Int) ≤ n ∨
    coveredCalls l.cfg.modelCaps key l'.calls ≤ coveredCalls l.cfg.modelCaps key l.calls ∧
      ∀ c ∈ l'.calls, covered l.cfg.modelCaps key c.info.model = true → c ∈ l.calls := by
  cases hm with
  | same hcalls =>
    rw [hcalls]
    exact .inr ⟨Nat.le_refl _, fun _ hc _ => hc⟩
  | @starts call hruns hcalls =>
    rw [hcalls]
    unfold coveredCalls
    rw [List.countP_append, List.countP_singleton]
    by_cases hc : covered l.cfg.modelCaps key call.info.model = true
    · rw [modelBlocked, capFor_of_covered hc hn] at hruns
      have hlt : (coveredCalls l.cfg.modelCaps key l.calls : Int) < n := by
        rw [← modelInFlight_eq h]
        simpa using hruns
      unfold coveredCalls at hlt
      rw [if_pos hc]
      exact .inl (by omega)
    · rw [if_neg hc]
      refine .inr ⟨Nat.le_refl _, fun c hm hcov => ?_⟩
      rcases List.mem_append.mp hm with hm | hm
      · exact hm
      · rw [List.mem_singleton.mp hm] at hcov
        exact absurd hcov hc
  | ends _ hcalls =>
    rw [hcalls]
    exact .inr ⟨List.filter_sublist.countP_le, fun c hm _ => (List.mem_filter.mp hm).1⟩

/-- Only calls that a `Reconfigure` caught in flight keep a model over its cap. -/
def Capped (l : Lane) : Prop :=
  ∀ key n, l.cfg.modelCaps.lookup key = some n → n < coveredCalls l.cfg.modelCaps key l.calls →
    ∀ c ∈ l.calls, covered l.cfg.modelCaps key c.info.model = true → c.id ∈ l.tightened key

theorem Capped.move (h : l.Capped) (hm : l.Modelled) (hmove : Move l l') : l'.Capped := by
  intro key n hn hover c hc hcov
  obtain ⟨hcfg, htight⟩ := settings_move hmove
  rw [hcfg] at hn hover hcov
  rw [htight]
  rcases coveredCalls_move hm (callMove hmove) hn with hle | ⟨hle, hsub⟩
  · omega
  · exact h key n hn (by omega) c (hsub c hc hcov) hcov

variable {caps : List (String × Int)}

theorem coveredCalls_setConfig (ht : l.tightens caps key = false) (hn : caps.lookup key = some n) :
    (∃ n', l.cfg.modelCaps.lookup key = some n' ∧ n' ≤ n) ∧
    ∀ c ∈ l.calls, covered caps key c.info.model = true →
      covered l.cfg.modelCaps key c.info.model = true := by
  unfold tightens at ht
  rw [hn, Bool.or_eq_false_iff] at ht
  refine ⟨?_, fun c hc hcov => ?_⟩
  · cases hn' : l.cfg.modelCaps.lookup key with
    | none => rw [hn'] at ht; cases ht.1
    | some n' =>
      rw [hn'] at ht
      exact ⟨n', rfl, by simpa using ht.1⟩
  · have := List.any_eq_false.mp ht.2 c hc
    simpa [hcov] using this

theorem Capped.setConfig (h : l.Capped) (cfg : LaneConfig) : (l.setConfig cfg).Capped := by
  intro key n hn hover c hc hcov
  change n < coveredCalls cfg.modelCaps key l.calls at hover
  simp only [Lane.setConfig]
  split
  · exact List.mem_map_of_mem hc
  · next ht =>
    obtain ⟨⟨n', hn', hle⟩, hold⟩ := coveredCalls_setConfig (Bool.not_eq_true _ |>.mp ht) hn
    have hcount : coveredCalls cfg.modelCaps key l.calls ≤
        coveredCalls l.cfg.modelCaps key l.calls := List.countP_mono_left hold
    exact h key n' hn' (by omega) c hc (hold c hc hcov)

/-! ## Runs -/

/-- The agreements of a lane between its sections that the caps rest on. -/
structure Metered (l : Lane) : Prop where
  leased : l.Leased
  modelled : l.Modelled
  capped : l.Capped

theorem Metered.move (h : l.Metered) (hmove : Move l l') : l'.Metered where
  leased := h.leased.move hmove
  modelled := h.modelled.move h.leased (callMove hmove)
  capped := h.capped.move h.modelled hmove

theorem Metered.retune {l₀ : Lane} {a : Label} (h : l.Metered) (hr : Retunes l a l₀) :
    l₀.Metered := by
  refine ⟨h.leased.retune hr, ?_, ?_⟩
  · cases hr <;> exact h.modelled
  · cases hr with
    | same | retire => exact h.capped
    | reconfigure => exact h.capped.setConfig _

theorem metered_new (cfg : LaneConfig) : (NewLane cfg).Metered where
  leased := leased_new cfg
  modelled := .refl _
  capped := nofun

theorem metered_step {a : Label} (h : l.Metered) (hstep : l.step a = some l') : l'.Metered := by
  obtain ⟨l₀, hr, hm⟩ := step_moves h.leased.keyed hstep
  exact Transition.moves_invariant hm (fun h hm => h.move hm) (h.retune hr)

theorem workConserving_new (cfg : LaneConfig) : (NewLane cfg).WorkConserving :=
  nofun

theorem metered_of_run {P : Lane → Label → Prop} {cfg : LaneConfig}
    (h : Transition.Run Lane.step P (NewLane cfg) l) : l.Metered ∧ l.WorkConserving :=
  h.invariant (I := fun l => l.Metered ∧ l.WorkConserving)
    (fun _ _ _ hl _ hs => ⟨metered_step hl.1 hs, workConserving_step hl.2 hs⟩)
    ⟨metered_new cfg, workConserving_new cfg⟩

/-- A cap's calls that are over it after some moves were no fewer before. -/
theorem coveredCalls_moves (h : l.Metered) (hm : Moves l l') (hcaps : l.cfg.modelCaps = caps)
    (hn : caps.lookup key = some n) :
    (coveredCalls caps key l'.calls : Int) ≤ n ∨
      coveredCalls caps key l'.calls ≤ coveredCalls caps key l.calls := by
  have hinv := Transition.moves_invariant hm (I := fun r => r.Metered ∧ r.cfg.modelCaps = caps ∧
    ((coveredCalls caps key r.calls : Int) ≤ n ∨
      coveredCalls caps key r.calls ≤ coveredCalls caps key l.calls)) ?_
    ⟨h, hcaps, .inr (Nat.le_refl _)⟩
  · exact hinv.2.2
  · rintro r r' ⟨hr, hrcaps, hle⟩ hmove
    have hcaps' : r'.cfg.modelCaps = caps := by rw [(settings_move hmove).1, hrcaps]
    refine ⟨hr.move hmove, hcaps', ?_⟩
    have hstep := coveredCalls_move hr.modelled (callMove hmove) (by rw [hrcaps]; exact hn)
    rw [hrcaps] at hstep
    omega

/-- In every reachable state of a lane: beside a free slot, the model of everyone who waits
is at its cap; a model is over its cap only with calls that were in flight when a
`Reconfigure` lowered or added the cap or had it cover more of them; and a step that leaves
it over its cap has not added to its calls. -/
theorem caps_of_run {cfg : LaneConfig}
    (h : Transition.Run Lane.step Transition.Any (NewLane cfg) l) :
    (l.active + l.reserved < l.cfg.maxConcurrent → ∀ w ∈ l.waiters,
      ∃ key n, capFor l.cfg.modelCaps w.info.model = some (key, n) ∧
        n ≤ coveredCalls l.cfg.modelCaps key l.calls) ∧
    (∀ key n, l.cfg.modelCaps.lookup key = some n →
      n < coveredCalls l.cfg.modelCaps key l.calls →
      ∀ c ∈ l.calls, covered l.cfg.modelCaps key c.info.model = true → c.id ∈ l.tightened key) ∧
    ∀ a l', l.step a = some l' → ∀ key n, l'.cfg.modelCaps.lookup key = some n →
      n < coveredCalls l'.cfg.modelCaps key l'.calls →
      coveredCalls l'.cfg.modelCaps key l'.calls ≤ coveredCalls l'.cfg.modelCaps key l.calls := by
  obtain ⟨hm, hwork⟩ := metered_of_run h
  refine ⟨fun hfree w hw => ?_, hm.capped, fun a l' hstep key n hn hover => ?_⟩
  · obtain ⟨c, hcap, hle⟩ := modelBlocked_eq_true.mp (hwork hfree w hw)
    rw [modelInFlight_eq hm.modelled] at hle
    exact ⟨c.1, c.2, hcap, hle⟩
  · obtain ⟨l₀, hr, hmoves⟩ := step_moves hm.leased.keyed hstep
    have hcaps : l'.cfg.modelCaps = l₀.cfg.modelCaps :=
      Transition.moves_invariant hmoves (I := fun r => r.cfg.modelCaps = l₀.cfg.modelCaps)
        (fun hr hmove => by rw [(settings_move hmove).1, hr]) rfl
    have hcalls : l₀.calls = l.calls := by cases hr <;> rfl
    have hle := coveredCalls_moves (hm.retune hr) hmoves hcaps.symm hn
    rw [hcalls] at hle
    omega

/-- Two calls of one model beside a third that waits, then a cap of one. -/
def loweredTrace : List Label :=
  [.acquire { model := "m" } (-1), .acquire { model := "m@64" } (-1), .acquire { model := "m" } (-1),
    .reconfigure { maxConcurrent := 3, modelCaps := [("m", 1)] } [] []]

theorem caps_of_lowered :
    ∃ l, Transition.Run Lane.step Transition.Any
        (NewLane { maxConcurrent := 3, modelCaps := [("m", 2)] }) l ∧
      l.cfg.modelCaps.lookup "m" = some 1 ∧ coveredCalls l.cfg.modelCaps "m" l.calls = 2 ∧
      l.waiters ≠ [] ∧
      ∀ c ∈ l.calls, covered l.cfg.modelCaps "m" c.info.model = true → c.id ∈ l.tightened "m" := by
  obtain ⟨l, hrun, hcap, hcount, hwaits⟩ := Transition.exists_run Lane.step
    (NewLane { maxConcurrent := 3, modelCaps := [("m", 2)] }) loweredTrace
    (p := fun l => l.cfg.modelCaps.lookup "m" = some 1 ∧
      coveredCalls l.cfg.modelCaps "m" l.calls = 2 ∧ l.waiters ≠ []) (by decide +kernel)
  exact ⟨l, hrun, hcap, hcount, hwaits, (caps_of_run hrun).2.1 "m" 1 hcap (by omega)⟩

/-- A cap covers more once a longer key that it gave way to is gone: a `Reconfigure` that
leaves the cap of one as it is can put two calls under it. -/
theorem over_unchanged_cap :
    ∃ l l', Transition.Run Lane.step
        (fun _ a => ∀ cfg order order', a ≠ .reconfigure cfg order order')
        (NewLane { maxConcurrent := 3, modelCaps := [("m", 1), ("m@64", 1)] }) l ∧
      l.step (.reconfigure { maxConcurrent := 3, modelCaps := [("m", 1)] } [] []) = some l' ∧
      l.cfg.modelCaps.lookup "m" = some 1 ∧ l'.cfg.modelCaps.lookup "m" = some 1 ∧
      1 < coveredCalls l'.cfg.modelCaps "m" l'.calls := by
  obtain ⟨l, hrun, hcap, hstep⟩ := Transition.exists_run_of_exec Lane.step
    (NewLane { maxConcurrent := 3, modelCaps := [("m", 1), ("m@64", 1)] })
    [.acquire { model := "m" } (-1), .acquire { model := "m@64" } (-1)]
    (P := fun _ a => ∀ cfg order order', a ≠ Label.reconfigure cfg order order')
    (p := fun l => l.cfg.modelCaps.lookup "m" = some 1 ∧
      (l.step (.reconfigure { maxConcurrent := 3, modelCaps := [("m", 1)] } [] [])).map (fun l' =>
        (l'.cfg.modelCaps.lookup "m", coveredCalls l'.cfg.modelCaps "m" l'.calls)) =
      some (some 1, 2)) (by simp) (by decide +kernel)
  obtain ⟨l', hstep, hl'⟩ := Option.map_eq_some_iff.mp hstep
  obtain ⟨hcap', hcount⟩ := Prod.mk.inj hl'
  exact ⟨l, l', hrun, hstep, hcap, hcap', by omega⟩

end Lane

end Loomcycle.Concurrency
