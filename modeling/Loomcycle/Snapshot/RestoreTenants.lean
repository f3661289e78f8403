import Loomcycle.Snapshot.RestoreAgain

/-! Whose rows a restore joins. A pointer is only written to a definition of its own tenant and
name. A run goes into the session its entry names, whoever's that is on the target, so tenants are
joined by just those entries that bring a run, or its events, to a session that is another tenant's
by then. -/

namespace Loomcycle.Snapshot

open Lib Store

variable {opts : RestoreOptions} {now : Instant} {env : Envelope} {t t' t₀ : Target} {s : Restoring}

/-- The pointer names a definition of its own tenant and name. -/
def PointsHome (t : Target) (kind : DefKind) (p : ActiveRow) : Prop :=
  ∃ d, (t.defs kind).find p.defID = some d ∧ d.tenantID = p.tenantID ∧ d.name = p.name

/-- Whose the session is, if it is here. -/
def sessionTenant (t : Target) (sessionID : String) : Option String :=
  (t.sessions.find sessionID).map (·.tenantID)

/-- A target whose active pointers and runs respect their tenants. -/
structure Respects (t : Target) : Prop where
  pointers : ∀ kind, ∀ p ∈ (t.active kind).rows, PointsHome t kind p
  runs : ∀ r ∈ t.runs.rows, sessionTenant t r.sessionID = some r.tenantID

/-! ## Pointers -/

variable {kind : DefKind} {sessionID tenantID : String} {e : Entry}

theorem admitActivePointer_iff {p : ActiveRow} :
    admitActivePointer t kind p ↔ PointsHome t kind p := by
  rw [admitActivePointer, PointsHome]
  split
  · next hnone => simp [hnone]
  · next d hd => simp [hd]

theorem PointsHome.mono {p : ActiveRow} (h : PointsHome t kind p) (hgrows : Grows t t') :
    PointsHome t' kind p := by
  obtain ⟨d, hd, hown⟩ := h
  exact ⟨d, Table.find_of_subset (hgrows.defs kind).subset hd, hown⟩

theorem pointers_step (h : ∀ kind, ∀ p ∈ (s.target.active kind).rows, PointsHome s.target kind p)
    (e : Entry) : ∀ kind, ∀ p ∈ ((restoreEntry opts now s e).target.active kind).rows,
      PointsHome (restoreEntry opts now s e).target kind p := by
  intro kind p hp
  have hstep := step_restoreEntry opts now s e
  suffices hhome : PointsHome s.target kind p from hhome.mono hstep.grows
  by_cases hactive : ∃ a, e = .active kind a
  · obtain ⟨a, rfl⟩ := hactive
    obtain ⟨x, heq, -, hnew, -⟩ := effect_active now s kind a
    rw [restoreEntry, heq] at hp
    dsimp only at hp
    rw [Function.update_self] at hp
    obtain hold | ⟨hadmitted, rfl⟩ := hnew p hp
    · exact h kind p hold
    · exact admitActivePointer_iff.mp hadmitted
  · rw [hstep.active kind (not_exists.mp hactive)] at hp
    exact h kind p hp

/-! ## Sessions, runs and events -/

/-- The session and the id of the run an entry brings. -/
def Entry.run : Entry → Option (String × String)
  | .pausedRun e => some (restoredSessionID e.sessionID e.runID, e.runID)
  | .queuedRun e => some (restoredSessionID e.sessionID e.runID, e.runID)
  | _ => none

/-- The tenant of that run; a paused run that names none takes its session's. -/
def Entry.owner : Entry → Option String
  | .pausedRun e => if e.tenantID = "" then none else some e.tenantID
  | .queuedRun e => some e.tenantID
  | _ => none

/-- The target lacks the run, or the events that come with a paused one. -/
def Entry.Adds (t : Target) : Entry → Prop
  | .pausedRun e => t.runs.find e.runID = none ∨
      e.transcriptEvents ≠ [] ∧ t.transcript e.runID = []
  | .queuedRun e => t.runs.find e.runID = none
  | _ => False

/-- The entry adds its run or its events to a session that is another tenant's here. -/
def Entry.Joins (t : Target) (e : Entry) : Prop :=
  ∃ run tenantID other, e.run = some run ∧ e.owner = some tenantID ∧ run.2 ≠ "" ∧ e.Adds t ∧
    sessionTenant t run.1 = some other ∧ other ≠ tenantID

/-- The events the entry adds are in a session that `t` has as its run's tenant's. -/
def EventsHome (opts : RestoreOptions) (now : Instant) (t : Target) (s : Restoring) (e : Entry) :
    Prop :=
  ∀ l, (restoreEntry opts now s e).target.events = s.target.events ++ l → ∀ ev ∈ l,
    ∀ tenantID, e.owner = some tenantID → sessionTenant t ev.sessionID = some tenantID

/-- A session keeps its tenant. -/
theorem sessionTenant_mono (h : sessionTenant t sessionID = some tenantID) (hgrows : Grows t t') :
    sessionTenant t' sessionID = some tenantID := by
  obtain ⟨ss, hss, htenant⟩ := Option.map_eq_some_iff.mp h
  exact Option.map_eq_some_iff.mpr ⟨ss, Table.find_of_subset hgrows.sessions.subset hss, htenant⟩

/-- What the step of a run can do: a session that was not here is its tenant's, a run or an event
that was not here is in that session, and there is one when the target lacked it. -/
structure Brings (e : Entry) (run : String × String) (t t' : Target) : Prop where
  session : ∀ tenantID, e.owner = some tenantID → sessionTenant t' run.1 = some tenantID ∨
    ∃ other, sessionTenant t run.1 = some other ∧ other ≠ tenantID
  runs : ∀ r ∈ t'.runs.rows, r ∈ t.runs.rows ∨ (run.2 ≠ "" ∧ e.Adds t) ∧ r.sessionID = run.1 ∧
    (sessionTenant t' run.1 = some r.tenantID ∨ e.owner = some r.tenantID)
  events : ∃ l, t'.events = t.events ++ l ∧ ∀ ev ∈ l, ev.sessionID = run.1 ∧ run.2 ≠ "" ∧ e.Adds t
  added : run.2 ≠ "" → e.Adds t →
    (∃ r ∈ t'.runs.rows, r.sessionID = run.1 ∧ ∀ tenantID, e.owner = some tenantID →
      r.tenantID = tenantID) ∨ t'.events ≠ t.events

theorem TakesRun.brings {runID asked : String} {tenant : Table Session.id → String}
    {fresh : Table Run.id → Prop} (h : TakesRun t t' runID sessionID asked tenant fresh)
    (hasked : e.owner = some asked ∨ e.owner = none)
    (htenant : ∀ x ss, x.find sessionID = some ss →
      e.owner = some (tenant x) ∨ e.owner = none ∧ ss.tenantID = tenant x)
    (hfresh : ∀ y, fresh y → runID ≠ "" ∧ e.Adds t)
    (hfree : t.runs.find runID = none → e.Adds t)
    (hadded : runID ≠ "" → e.Adds t → t.runs.find runID = none ∧ (t'.runs.find runID).isSome ∨
      t.transcript runID = [] ∧ t'.transcript runID ≠ []) : Brings e (sessionID, runID) t t' := by
  obtain ⟨x, y, l, rfl, hsession, hrun, hids, hl⟩ := h
  obtain ⟨ss, hss⟩ := Option.isSome_iff_exists.mp hsession.here
  obtain ⟨hmem, hsid⟩ := Table.find_eq_some.mp hss
  have hhome : sessionTenant { t with sessions := x, runs := y, events := t.events ++ l }
      sessionID = some ss.tenantID := congrArg (Option.map _) hss
  refine ⟨fun tenantID howner => ?_, fun r hr => ?_, ⟨l, rfl, fun ev hev => ?_⟩, fun hid hadds => ?_⟩
  · obtain rfl : tenantID = asked := by
      obtain h | h := hasked
      · exact Option.mem_unique howner h
      · cases howner.symm.trans h
    obtain hold | ⟨-, -, hnew⟩ := hsession.new ss hmem
    · by_cases hown : ss.tenantID = tenantID
      · exact .inl (hown ▸ hhome)
      · exact .inr ⟨_, congrArg (Option.map _) (Table.find_eq_some.mpr ⟨hold, hsid⟩), hown⟩
    · exact .inl (hnew ▸ hhome)
  · refine (hrun.new r hr).imp_right fun ⟨⟨hid, hnone⟩, _, hplace, hof⟩ => ?_
    refine ⟨⟨hid, hfree hnone⟩, hplace, ?_⟩
    rw [hof]
    exact (htenant x ss hss).symm.imp_left fun ⟨_, hown⟩ => hown ▸ hhome
  · exact ⟨(hids ev hev).2, hfresh y (hl (List.ne_nil_of_mem hev))⟩
  · obtain ⟨hnone, hsome⟩ | ⟨hempty, hwritten⟩ := hadded hid hadds
    · obtain ⟨r, hr⟩ := Option.isSome_iff_exists.mp hsome
      obtain ⟨hin, hrid⟩ := Table.find_eq_some.mp hr
      obtain hold | ⟨-, -, hplace, hof⟩ := hrun.new r hin
      · exact absurd hrid (Table.find_eq_none.mp hnone r hold)
      · refine .inl ⟨r, hin, hplace, fun tenantID howner => ?_⟩
        obtain hown | ⟨hown, -⟩ := htenant x ss hss
        · exact hof.trans (Option.mem_unique hown howner)
        · cases howner.symm.trans hown
    · refine .inr fun hsame => hwritten ?_
      rw [Target.transcript, hsame]
      exact hempty

theorem brings_pausedRun (e : PausedRunEntry) :
    Brings (.pausedRun e) (restoredSessionID e.sessionID e.runID, e.runID) s.target
      (restoreEntry opts now s (.pausedRun e)).target := by
  obtain ⟨htakes, -, hsettled⟩ := effect_pausedRun now s e
  have howner : Entry.owner (.pausedRun e) = if e.tenantID = "" then none else some e.tenantID := rfl
  refine htakes.brings ?_ (fun x ss hss => ?_) (fun _ h => ⟨h.1, .inr ⟨h.2.1, h.2.2.1⟩⟩) .inl
    fun hid hadds => ?_
  · rw [howner]
    split
    · exact .inr rfl
    · exact .inl rfl
  · rw [howner, PausedRunEntry.tenant, hss]
    by_cases hempty : e.tenantID = ""
    · exact .inr ⟨if_pos hempty, (if_neg (not_not.mpr hempty)).symm⟩
    · exact .inl ((if_neg hempty).trans (congrArg some (if_pos hempty).symm))
  · obtain ⟨hsome, hevents⟩ := hsettled.resolve_left hid
    obtain hnone | ⟨hne, hempty⟩ := hadds
    · exact .inl ⟨hnone, hsome⟩
    · exact .inr ⟨hempty, hevents.resolve_left hne⟩

theorem brings_queuedRun (e : QueuedRunEntry) :
    Brings (.queuedRun e) (restoredSessionID e.sessionID e.runID, e.runID) s.target
      (restoreEntry opts now s (.queuedRun e)).target := by
  obtain ⟨htakes, -, hsettled⟩ := effect_queuedRun opts now s e
  refine htakes.brings (.inl rfl) (fun _ _ _ => .inl rfl) (fun _ h => ⟨h.1, h.2.1⟩) id
    fun hid hadds => ?_
  exact .inl ⟨hadds, (hsettled.resolve_left hid).1⟩

/-- An entry brings a run, or leaves sessions, runs and events alone. -/
theorem restoreEntry_run (opts : RestoreOptions) (now : Instant) (s : Restoring) (e : Entry) :
    (∃ run, e.run = some run ∧ Brings e run s.target (restoreEntry opts now s e).target) ∨
      e.run = none ∧ (restoreEntry opts now s e).target.runs = s.target.runs ∧
        (restoreEntry opts now s e).target.events = s.target.events := by
  have hstep := step_restoreEntry opts now s e
  cases e with
  | pausedRun e => exact .inl ⟨_, rfl, brings_pausedRun e⟩
  | queuedRun e => exact .inl ⟨_, rfl, brings_queuedRun e⟩
  | _ => exact .inr ⟨rfl, (hstep.runs (by simp) (by simp)).2⟩

/-! ## The step of an entry that joins no tenants -/

/-- Where no tenants are joined, what comes with the run is in a session of its tenant. -/
theorem Brings.home {run : String × String} (h : Brings e run t t') (hrun : e.run = some run)
    (hjoins : ¬ e.Joins t) (hadds : run.2 ≠ "" ∧ e.Adds t) (howner : e.owner = some tenantID) :
    sessionTenant t' run.1 = some tenantID :=
  (h.session _ howner).resolve_right fun ⟨other, hother⟩ =>
    hjoins ⟨run, _, other, hrun, howner, hadds.1, hadds.2, hother⟩

def RunsHome (t : Target) : Prop :=
  ∀ r ∈ t.runs.rows, sessionTenant t r.sessionID = some r.tenantID

theorem runsHome_step (h : RunsHome s.target) (hjoins : ¬ e.Joins s.target) :
    RunsHome (restoreEntry opts now s e).target := by
  have hgrows := (step_restoreEntry opts now s e).grows
  intro r hr
  obtain ⟨run, hrun, hbrings⟩ | ⟨-, hruns, -⟩ := restoreEntry_run opts now s e
  · obtain hold | ⟨hadds, hplace, hhome | howner⟩ := hbrings.runs r hr
    · exact sessionTenant_mono (h r hold) hgrows
    · exact hplace ▸ hhome
    · exact hplace ▸ hbrings.home hrun hjoins hadds howner
  · exact sessionTenant_mono (h r (hruns ▸ hr)) hgrows

theorem eventsHome_of_not_joins (hjoins : ¬ e.Joins s.target)
    (hgrows : Grows (restoreEntry opts now s e).target t) : EventsHome opts now t s e := by
  intro l hl ev hev tenantID howner
  obtain ⟨run, hrun, hbrings⟩ | ⟨-, -, hevents⟩ := restoreEntry_run opts now s e
  · obtain ⟨l', hl', hall⟩ := hbrings.events
    obtain rfl := List.append_cancel_left (hl.symm.trans hl')
    obtain ⟨hplace, hadds⟩ := hall ev hev
    exact hplace ▸ sessionTenant_mono (hbrings.home hrun hjoins hadds howner) hgrows
  · rw [List.append_right_eq_self.mp (hl.symm.trans hevents)] at hev
    cases hev

/-- A run or an event in the wrong session stays there. -/
theorem not_joins_of_home (hgrows : Grows (restoreEntry opts now s e).target t)
    (hruns : RunsHome t) (hevents : EventsHome opts now t s e) : ¬ e.Joins s.target := by
  rintro ⟨run, tenantID, other, hrun, howner, hid, hadds, hother, hne⟩
  have hnot : sessionTenant t run.1 ≠ some tenantID := by
    rw [sessionTenant_mono hother ((step_restoreEntry opts now s e).grows.trans hgrows)]
    exact fun h => hne (Option.some.inj h)
  obtain ⟨run', hrun', hbrings⟩ | ⟨hnone, -⟩ := restoreEntry_run opts now s e
  · obtain rfl := Option.mem_unique hrun hrun'
    obtain ⟨r, hr, hplace, hof⟩ | hmore := hbrings.added hid hadds
    · have hhome := hruns r (hgrows.runs.subset hr)
      rw [hplace, hof tenantID howner] at hhome
      exact hnot hhome
    · obtain ⟨l, hl, hall⟩ := hbrings.events
      have hnil : l ≠ [] := by
        rintro rfl
        exact hmore (hl.trans (List.append_nil _))
      obtain ⟨ev, hev⟩ := List.exists_mem_of_ne_nil l hnil
      exact hnot ((hall ev hev).1 ▸ hevents l hl ev hev tenantID howner)
  · cases hrun.symm.trans hnone

/-! ## The restore -/

theorem home_foldl_iff {l : List Entry} (h : RunsHome s.target) :
    RunsHome (l.foldl (restoreEntry opts now) s).target ∧
      Replay.Along (restoreEntry opts now)
        (EventsHome opts now (l.foldl (restoreEntry opts now) s).target) l s ↔
    Replay.Along (restoreEntry opts now) (fun s e => ¬ e.Joins s.target) l s := by
  induction l generalizing s with
  | nil => exact ⟨fun _ => trivial, fun _ => ⟨h, trivial⟩⟩
  | cons e l ih =>
    have hgrows := grows_foldl opts now l (restoreEntry opts now s e)
    constructor
    · rintro ⟨hruns, hevents, hrest⟩
      have hjoins := not_joins_of_home hgrows hruns hevents
      exact ⟨hjoins, (ih (runsHome_step h hjoins)).mp ⟨hruns, hrest⟩⟩
    · rintro ⟨hjoins, hrest⟩
      obtain ⟨hruns, hevents⟩ := (ih (runsHome_step h hjoins)).mpr hrest
      exact ⟨hruns, eventsHome_of_not_joins hjoins hgrows, hevents⟩

theorem pointers_restore
    (h : ∀ kind, ∀ p ∈ (t.active kind).rows, PointsHome t kind p) :
    ∀ kind, ∀ p ∈ ((restore opts now env t).target.active kind).rows,
      PointsHome (restore opts now env t).target kind p :=
  List.foldlRecOn (motive := fun s : Restoring => ∀ kind, ∀ p ∈ (s.target.active kind).rows,
    PointsHome s.target kind p) env.entries _ h fun _ hs e _ => pointers_step hs e

def heldEnvelope (tenantID : String) : Envelope :=
  { Envelope.empty with pausedRuns := [{ sampleRun [] with runID := "held", tenantID }] }

/-- A target with the session `session` of this tenant, and a run in it. -/
def tenantTarget (tenantID : String) : Target :=
  (restore sampleOptions 1 (heldEnvelope tenantID) (.empty false)).target

theorem respects_tenantTarget {tenantID : String}
    (hruns : RunsHome (tenantTarget tenantID)) : Respects (tenantTarget tenantID) :=
  ⟨pointers_restore fun _ => List.forall_mem_nil _, hruns⟩

/-- A paused run of tenant `acme` in the session `session`, with an event. -/
def tenantEnvelope : Envelope :=
  { Envelope.empty with pausedRuns := [sampleRun [⟨1, "text", "x"⟩]] }

end Loomcycle.Snapshot
