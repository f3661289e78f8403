import Loomcycle.Snapshot.Restore

/-! What a step of a restore can do to the target: which tables an entry writes, and that it
only adds to them. -/

namespace Loomcycle.Snapshot

open Lib Store

variable {opts : RestoreOptions} {now : Instant} {s : Restoring} {t t' t'' : Target}

@[simp] theorem target_count (s : Restoring) (l : List Counter) : (s.count l).target = s.target :=
  rfl

/-- Every table of `t'` begins with the rows of `t`. -/
structure Grows (t t' : Target) : Prop where
  supportsVectors : t'.memory.supportsVectors = t.memory.supportsVectors
  memory : t.memory.memory.rows <+: t'.memory.memory.rows
  defs : ∀ kind, (t.defs kind).rows <+: (t'.defs kind).rows
  active : ∀ kind, (t.active kind).rows <+: (t'.active kind).rows
  activeRuns : t.activeRuns.rows <+: t'.activeRuns.rows
  runState : t.runState.rows <+: t'.runState.rows
  volumes : t.volumes.rows <+: t'.volumes.rows
  dirs : t.dirs <+: t'.dirs
  channels : t.channels.rows <+: t'.channels.rows
  messages : t.messages.rows <+: t'.messages.rows
  cursors : t.cursors.rows <+: t'.cursors.rows
  evaluations : t.evaluations.rows <+: t'.evaluations.rows
  sessions : t.sessions.rows <+: t'.sessions.rows
  runs : t.runs.rows <+: t'.runs.rows
  events : t.events <+: t'.events

theorem Grows.refl (t : Target) : Grows t t := by
  constructor <;> intros <;> first | exact List.prefix_refl _ | rfl

theorem Grows.trans (h : Grows t t') (h' : Grows t' t'') : Grows t t'' where
  supportsVectors := h'.supportsVectors.trans h.supportsVectors
  memory := h.memory.trans h'.memory
  defs kind := (h.defs kind).trans (h'.defs kind)
  active kind := (h.active kind).trans (h'.active kind)
  activeRuns := h.activeRuns.trans h'.activeRuns
  runState := h.runState.trans h'.runState
  volumes := h.volumes.trans h'.volumes
  dirs := h.dirs.trans h'.dirs
  channels := h.channels.trans h'.channels
  messages := h.messages.trans h'.messages
  cursors := h.cursors.trans h'.cursors
  evaluations := h.evaluations.trans h'.evaluations
  sessions := h.sessions.trans h'.sessions
  runs := h.runs.trans h'.runs
  events := h.events.trans h'.events

section Inserts
variable {ρ κ : Type} [DecidableEq κ] {key : ρ → κ}

/-- Taking a row again would change nothing: it lacks a required column, or its key is taken. -/
def Here (tbl : Table key) (missing : Bool) (k : κ) : Prop := missing ∨ (tbl.find k).isSome

variable {tbl' tbl : Table key} {missing : Bool}

theorem isSome_of_rows {k : κ} (hrows : tbl.rows <+: tbl'.rows) (h : (tbl.find k).isSome) :
    (tbl'.find k).isSome := by
  obtain ⟨r, hr⟩ := Option.isSome_iff_exists.mp h
  exact Option.isSome_iff_exists.mpr ⟨r, Table.find_of_subset hrows.subset hr⟩

theorem Here.mono {k : κ} (h : Here tbl missing k) (hrows : tbl.rows <+: tbl'.rows) :
    Here tbl' missing k :=
  h.imp_right (isSome_of_rows hrows)

theorem here_insertOrIgnore (tbl : Table key) (missing : Bool) (r : ρ) :
    Here (tbl.insertOrIgnore r) missing (key r) := by
  refine .inr ?_
  rw [Table.find_insertOrIgnore, if_pos rfl, Option.isSome_or, Option.isSome_some, Bool.or_true]

/-- A section that records the insert of a row writes its own table only, and only adds to
it. -/
theorem effect_record (put : Target → Table key → Target) (hput : put s.target tbl = s.target)
    (c : Counter) (missing : Bool) (message : String) (r : ρ) :
    ∃ x, (s.record c put (snapshotRestore missing message tbl r)).target = put s.target x ∧
      tbl.rows <+: x.rows ∧ (∀ r' ∈ x.rows, r' ∈ tbl.rows ∨ r' = r) ∧ Here x missing (key r) := by
  cases missing with
  | true => exact ⟨tbl, hput.symm, List.prefix_refl _, fun _ => .inl, .inl rfl⟩
  | false =>
    exact ⟨_, rfl, Table.rows_insertOrIgnore _ _,
      fun _ hr' => (Table.mem_insertOrIgnore hr').imp_right And.right, here_insertOrIgnore _ _ _⟩

theorem quiet_record (put : Target → Table key → Target) (hput : put s.target tbl = s.target)
    (c : Counter) (message : String) {r : ρ} (h : Here tbl missing (key r)) :
    (s.record c put (snapshotRestore missing message tbl r)).target = s.target ∧
      (s.record c put (snapshotRestore missing message tbl r)).result.restored =
        s.result.restored := by
  cases missing with
  | true => exact ⟨rfl, rfl⟩
  | false =>
    obtain ⟨r', hr'⟩ := Option.isSome_iff_exists.mp (h.resolve_left nofun)
    have hok : snapshotRestore false message tbl r = .ok (tbl, false) := by
      simp [snapshotRestore, hr', Table.insertOrIgnore_of_some hr']
    rw [hok]
    exact ⟨hput, List.append_nil _⟩

end Inserts

/-! ## One entry -/

variable (opts now s)

theorem effect_active (kind : DefKind) (e : Dated ActiveRow) :
    ∃ x, (restoreActivePointer now kind s e).target =
        { s.target with active := Function.update s.target.active kind x } ∧
      (s.target.active kind).rows <+: x.rows ∧
      (∀ p ∈ x.rows, p ∈ (s.target.active kind).rows ∨
        admitActivePointer s.target kind e.row ∧ p = { e.row with promotedAt := e.time.getD now }) ∧
      (admitActivePointer s.target kind e.row → Here x (e.row.name = "" || e.row.defID = "")
        e.row.owner) := by
  have hsame : { s.target with
      active := Function.update s.target.active kind (s.target.active kind) } = s.target := by
    rw [Function.update_eq_self]
  rw [restoreActivePointer]
  split
  · next hno =>
    exact ⟨_, hsame.symm, List.prefix_refl _, fun _ => .inl, fun h => absurd h hno⟩
  next hyes =>
  obtain ⟨x, h, hx, hnew, hhere⟩ := effect_record (s := s)
    (fun t active => { t with active := Function.update t.active kind active }) hsame
    (.active kind) (e.row.name = "" || e.row.defID = "") "name and def_id required"
    { e.row with promotedAt := e.time.getD now }
  exact ⟨x, h, hx, fun p hp => (hnew p hp).imp_right fun heq => ⟨not_not.mp hyes, heq⟩,
    fun _ => hhere⟩

/-- A section that takes the rows the store admits. -/
theorem effect_admitted {ρ κ : Type} [DecidableEq κ] {key : ρ → κ} {tbl : Table key} {c : Prop}
    [Decidable c] (put : Target → Table key → Target) (hput : put s.target tbl = s.target)
    (counter : Counter) (missing : Bool) (w message : String) (r : ρ) :
    ∃ x, (if ¬ c then s.warn w
        else s.record counter put (snapshotRestore missing message tbl r)).target =
          put s.target x ∧ tbl.rows <+: x.rows ∧ (c → Here x missing (key r)) := by
  split
  · next hno => exact ⟨_, hput.symm, List.prefix_refl _, fun h => absurd h hno⟩
  · obtain ⟨x, h, hx, -, hhere⟩ := effect_record put hput counter missing message r
    exact ⟨x, h, hx, fun _ => hhere⟩

theorem effect_message (m : ChannelMessageEntry) :
    ∃ x, (restoreChannelMessage now s m).target = { s.target with messages := x } ∧
      s.target.messages.rows <+: x.rows ∧
      (teamChannelAdmits s.target m.tenantID m.channel →
        Here x (m.id = "" || m.channel = "") m.id) :=
  effect_admitted s (fun t messages => { t with messages }) rfl .channelMessages _ _ _
    (restoredMessage now m)

theorem effect_cursor (c : Dated ChannelCursor) :
    ∃ x, (restoreChannelCursor now s c).target = { s.target with cursors := x } ∧
      s.target.cursors.rows <+: x.rows ∧
      (teamChannelAdmits s.target c.row.tenantID c.row.channel →
        Here x (c.row.channel = "" || c.row.cursor = "") c.row.place) :=
  effect_admitted s (fun t cursors => { t with cursors }) rfl .channelCursors _ _ _
    { c.row with updatedAt := c.time.getD now }

theorem effect_evaluation (e : Dated EvaluationRow) :
    ∃ x, (restoreEvaluation now s e).target = { s.target with evaluations := x } ∧
      s.target.evaluations.rows <+: x.rows ∧
      Here x (e.row.evalID = "" || e.row.runID = "") e.row.evalID := by
  obtain ⟨x, h, hx, -, hhere⟩ := effect_record (s := s) (fun t evaluations => { t with evaluations })
    rfl .evaluations (e.row.evalID = "" || e.row.runID = "")
    "snapshot restore evaluation: eval_id and run_id required"
    { e.row with createdAt := e.time.getD now }
  exact ⟨x, h, hx, hhere⟩

theorem effect_channel (e : Dated ChannelRow) :
    ∃ x, (restoreChannelDef opts now s e).target = { s.target with channels := x } ∧
      s.target.channels.rows <+: x.rows ∧
      (opts.channelValidator.all (fun v => v e.row) → Here x false e.row.owner) := by
  rw [restoreChannelDef]
  split
  · next hno => exact ⟨_, rfl, List.prefix_refl _, fun h => absurd h hno⟩
  · exact ⟨_, rfl, Table.rows_insertOrIgnore _ _, fun _ => here_insertOrIgnore _ _ _⟩

theorem target_mkdirFenced (path : String) :
    ∃ dirs, (mkdirFenced s path).target = { s.target with dirs } ∧ s.target.dirs <+: dirs ∧
      path ∈ dirs := by
  rw [mkdirFenced]
  split
  · next h => exact ⟨_, rfl, List.prefix_refl _, h⟩
  · exact ⟨_, rfl, List.prefix_append _ _, List.mem_append_right _ (List.mem_singleton_self _)⟩

/-- Taking the volume again would change nothing: this host refuses it, it is here, or its
directory is and it has no name. -/
def VolumeSettled (opts : RestoreOptions) (volumes : Table VolumeDefRow.owner) (dirs : List String)
    (e : VolumeDefEntry) : Prop :=
  opts.volumeRoot = "" ∨ ¬ opts.volumeValidator.any (fun v => v e) ∨
    e.name ∈ opts.staticVolumeNames ∨ opts.provision e.tenantID e.name = none ∨
    (volumes.find (e.tenantID, e.name)).isSome ∨
    (e.name = "" ∧ ∀ path, opts.provision e.tenantID e.name = some path → path ∈ dirs)

theorem effect_volume (e : VolumeDefEntry) :
    ∃ x dirs, (restoreVolumeDef opts now s e).target = { s.target with volumes := x, dirs } ∧
      s.target.volumes.rows <+: x.rows ∧ s.target.dirs <+: dirs ∧ VolumeSettled opts x dirs e := by
  have hsame (h : VolumeSettled opts s.target.volumes s.target.dirs e) :
      ∃ x dirs, s.target = { s.target with volumes := x, dirs } ∧
        s.target.volumes.rows <+: x.rows ∧ s.target.dirs <+: dirs ∧ VolumeSettled opts x dirs e :=
    ⟨_, _, rfl, List.prefix_refl _, List.prefix_refl _, h⟩
  rw [restoreVolumeDef]
  split
  · next h => exact hsame (.inl h)
  split
  · next h => exact hsame (.inr (.inl h))
  split
  · next h => exact hsame (.inr (.inr (.inl h)))
  split
  · next h => exact hsame (.inr (.inr (.inr (.inr (.inl h)))))
  split
  · next h => exact hsame (.inr (.inr (.inr (.inl h))))
  next path hpath =>
  obtain ⟨dirs, hdirs, hmade, hmem⟩ := target_mkdirFenced s path
  obtain ⟨x, hx, hrows, -, hhere⟩ := effect_record (s := mkdirFenced s path)
    (fun t volumes => { t with volumes }) (show _ = _ by rw [hdirs]) .volumeDefs (e.name = "")
    "snapshot restore volume_defs: name required" (restoredVolume now e path)
  refine ⟨x, dirs, hx.trans (by rw [hdirs]), hrows, hmade, ?_⟩
  obtain hname | hfind := hhere
  · refine .inr (.inr (.inr (.inr (.inr ⟨of_decide_eq_true hname, fun path' h => ?_⟩))))
    exact Option.mem_unique hpath h ▸ hmem
  · exact .inr (.inr (.inr (.inr (.inl hfind))))

/-! ## Definitions -/

/-- The definition's version is another definition's here. -/
def Taken (tbl : Table DefRow.defID) (r : DefRow) : Prop :=
  ∃ x ∈ tbl.rows, x.tenantID = r.tenantID ∧ x.name = r.name ∧ x.version = r.version

/-- The definition is a fork of one that is not here. -/
def Orphan (tbl : Table DefRow.defID) (r : DefRow) : Prop :=
  r.parentDefID ≠ "" ∧ r.parentDefID ≠ r.defID ∧ tbl.find r.parentDefID = none

/-- Why a definition is not inserted. -/
def DefRefused (tbl : Table DefRow.defID) (r : DefRow) : Prop :=
  r.defID = "" ∨ r.name = "" ∨ tbl.find r.defID = none ∧ (Taken tbl r ∨ Orphan tbl r)

/-- The plane after a definition was taken: as it was, or with one row of the entry's id more. -/
def OneMore (tbl x : Table DefRow.defID) (defID : String) : Prop :=
  x = tbl ∨ tbl.find defID = none ∧ ∃ r : DefRow, r.defID = defID ∧ x.rows = tbl.rows ++ [r]

variable {tbl : Table DefRow.defID} {runs : Table Run.id}

theorem OneMore.rows {x : Table DefRow.defID} {defID : String} (h : OneMore tbl x defID) :
    tbl.rows <+: x.rows := by
  obtain rfl | ⟨-, r, -, hr⟩ := h
  · exact List.prefix_refl _
  · exact hr ▸ List.prefix_append _ _

theorem snapshotRestoreDef_cases (tbl : Table DefRow.defID) (r : DefRow) :
    (∃ message, snapshotRestoreDef tbl r = .error message) ∧ DefRefused tbl r ∨
      ∃ x inserted, snapshotRestoreDef tbl r = .ok (x, inserted) ∧ OneMore tbl x r.defID ∧
        r.defID ≠ "" ∧ r.name ≠ "" ∧ (x.find r.defID).isSome := by
  rw [snapshotRestoreDef]
  split
  · next h => exact .inl ⟨⟨_, rfl⟩, h.elim .inl (.inr ∘ .inl)⟩
  next hnames =>
  have ⟨hid, hname⟩ := not_or.mp hnames
  split
  · next h => exact .inr ⟨tbl, _, rfl, .inl rfl, hid, hname, h⟩
  next hnone =>
  have hfree : tbl.find r.defID = none := by simpa using hnone
  split
  · next h =>
    exact .inl ⟨⟨_, rfl⟩, .inr (.inr ⟨hfree, .inl (by simpa [Taken, and_assoc] using h)⟩)⟩
  split
  · next h => exact .inl ⟨⟨_, rfl⟩, .inr (.inr ⟨hfree, .inr (by simpa [Orphan] using h)⟩)⟩
  · exact .inr ⟨_, _, rfl, .inr ⟨hfree, r, rfl, Table.insertOrIgnore_of_none hfree⟩, hid, hname,
      (here_insertOrIgnore tbl false r).resolve_left nofun⟩

theorem snapshotRestoreDef_of_refused {r : DefRow} (h : DefRefused tbl r) :
    ∃ message, snapshotRestoreDef tbl r = .error message := by
  obtain hid | hname | ⟨hfree, hwhy⟩ := h
  · exact ⟨_, if_pos (.inl hid)⟩
  · exact ⟨_, if_pos (.inr hname)⟩
  by_cases hmissing : r.defID = "" ∨ r.name = ""
  · exact ⟨_, if_pos hmissing⟩
  rw [snapshotRestoreDef, if_neg hmissing, hfree, if_neg (by simp)]
  split
  · exact ⟨_, rfl⟩
  next hnot =>
  obtain htaken | horphan := hwhy
  · exact absurd (by simpa [Taken, and_assoc] using htaken) hnot
  · rw [if_pos (by simpa [Orphan] using horphan)]
    exact ⟨_, rfl⟩

/-- The tracked runs and the run state of a schedule are here, or refused. -/
def ScheduleSettled (activeRuns : Table ScheduleActiveRun.runID)
    (runState : Table ScheduleRunState.defID) (e : DefEntry) : Prop :=
  (∀ a ∈ e.activeRuns, Here activeRuns (e.row.row.defID = "" || a.runID = "") a.runID) ∧
    ∀ st, e.runState = some st → Here runState (st.fireCount < 0) e.row.row.defID

theorem effect_activeRuns (defID : String) (l : List ScheduleActiveRun) :
    ∃ x, (l.foldl (restoreScheduleActiveRun defID) s).target =
        { s.target with activeRuns := x } ∧ s.target.activeRuns.rows <+: x.rows ∧
      ∀ a ∈ l, Here x (defID = "" || a.runID = "") a.runID := by
  induction l generalizing s with
  | nil => exact ⟨_, rfl, List.prefix_refl _, nofun⟩
  | cons a l ih =>
    have hstep : ∃ x, (restoreScheduleActiveRun defID s a).target =
        { s.target with activeRuns := x } ∧ s.target.activeRuns.rows <+: x.rows ∧
        Here x (defID = "" || a.runID = "") a.runID := by
      rw [restoreScheduleActiveRun, snapshotRestoreScheduleActiveRun, snapshotRestore]
      by_cases hmissing : defID = "" || a.runID = ""
      · rw [if_pos hmissing]
        exact ⟨_, rfl, List.prefix_refl _, .inl hmissing⟩
      · rw [if_neg hmissing]
        exact ⟨_, rfl, Table.rows_insertOrIgnore _ _, here_insertOrIgnore _ _ _⟩
    obtain ⟨x, hx, hrows, hhere⟩ := hstep
    obtain ⟨y, hy, hrows', hall⟩ := ih (restoreScheduleActiveRun defID s a)
    rw [hx] at hy hrows'
    exact ⟨y, hy, hrows.trans hrows', List.forall_mem_cons.mpr ⟨hhere.mono hrows', hall⟩⟩

theorem snapshotRestoreScheduleRunState_of_def {defs : Table DefRow.defID}
    {tbl : Table ScheduleRunState.defID} {r : ScheduleRunState} (hid : r.defID ≠ "")
    (hdef : (defs.find r.defID).isSome) :
    snapshotRestoreScheduleRunState defs tbl r =
      snapshotRestore (r.fireCount < 0) "snapshot restore schedule_run_state: negative fire_count"
        tbl r := by
  rw [snapshotRestoreScheduleRunState, snapshotRestore, if_neg hid]
  by_cases hneg : r.fireCount < 0
  · rw [if_pos hneg, if_pos (decide_eq_true hneg)]
  have hnone := mt Option.isNone_iff_eq_none.mp (Option.isSome_iff_ne_none.mp hdef)
  have hcount : ¬ decide (r.fireCount < 0) = true := by simpa using hneg
  rw [if_neg hneg, if_neg hnone, if_neg hcount]
  cases hfind : tbl.find r.defID with
  | some r' =>
    rw [if_pos Option.isSome_some, Table.insertOrIgnore_of_some hfind, Option.isNone_some]
  | none => rw [if_neg (by simp), Option.isNone_none]

theorem effect_scheduleState (e : DefEntry) (hid : e.row.row.defID ≠ "")
    (hdef : ((s.target.defs .schedule).find e.row.row.defID).isSome) :
    ∃ x y, (restoreScheduleState s e).target = { s.target with activeRuns := x, runState := y } ∧
      s.target.activeRuns.rows <+: x.rows ∧ s.target.runState.rows <+: y.rows ∧
      ScheduleSettled x y e := by
  obtain ⟨x, hx, hruns, hall⟩ := effect_activeRuns s e.row.row.defID e.activeRuns
  rw [restoreScheduleState]
  cases hst : e.runState with
  | none => exact ⟨x, _, hx, hruns, List.prefix_refl _, hall, by rw [hst]; nofun⟩
  | some st =>
    dsimp only
    rw [hx, snapshotRestoreScheduleRunState_of_def hid hdef]
    obtain ⟨y, hy, hrows, -, hhere⟩ := effect_record
      (s := e.activeRuns.foldl (restoreScheduleActiveRun e.row.row.defID) s)
      (fun t runState => { t with runState }) (show _ = _ by rw [hx]) .scheduleRunState
      (st.fireCount < 0) "snapshot restore schedule_run_state: negative fire_count"
      { st with defID := e.row.row.defID }
    refine ⟨x, y, hy.trans (by rw [hx]), hruns, hrows, hall, fun st' hst' => ?_⟩
    rw [hst] at hst'
    exact Option.some.inj hst' ▸ hhere

/-- Taking the definition again would change nothing. -/
def DefSettled (opts : RestoreOptions) (kind : DefKind) (tbl : Table DefRow.defID)
    (activeRuns : Table ScheduleActiveRun.runID) (runState : Table ScheduleRunState.defID)
    (e : DefEntry) : Prop :=
  ∀ body, restoredBody opts kind e = some body → validRestoredBody opts kind body →
    DefRefused tbl e.row.row ∨ e.row.row.defID ≠ "" ∧ e.row.row.name ≠ "" ∧
      (tbl.find e.row.row.defID).isSome ∧
      (kind = .schedule → ScheduleSettled activeRuns runState e)

/-- What follows the insert: the state of a schedule. -/
theorem effect_restoredDef (kind : DefKind) (e : DefEntry) (hid : e.row.row.defID ≠ "")
    (hdef : ((s.target.defs kind).find e.row.row.defID).isSome) :
    ∃ y z, (if kind = .schedule then restoreScheduleState s e else s).target =
        { s.target with activeRuns := y, runState := z } ∧
      s.target.activeRuns.rows <+: y.rows ∧ s.target.runState.rows <+: z.rows ∧
      (kind = .schedule → ScheduleSettled y z e) := by
  by_cases hk : kind = .schedule
  · subst hk
    obtain ⟨y, z, h, hy, hz, hset⟩ := effect_scheduleState s e hid hdef
    exact ⟨y, z, h, hy, hz, fun _ => hset⟩
  · rw [if_neg hk]
    exact ⟨_, _, rfl, List.prefix_refl _, List.prefix_refl _, fun h => absurd h hk⟩

/-- What taking a definition adds: a row of its kind, and the state of a schedule. -/
def TakesDef (opts : RestoreOptions) (kind : DefKind) (e : DefEntry) (t t' : Target) : Prop :=
  ∃ x y z, t' = { t with
      defs := Function.update t.defs kind x, activeRuns := y, runState := z } ∧
    OneMore (t.defs kind) x e.row.row.defID ∧ t.activeRuns.rows <+: y.rows ∧
    t.runState.rows <+: z.rows ∧ DefSettled opts kind x y z e

theorem effect_definition (kind : DefKind) (e : DefEntry) :
    TakesDef opts kind e s.target (restoreDef opts now kind s e).target := by
  have hsame
      (h : DefSettled opts kind (s.target.defs kind) s.target.activeRuns s.target.runState e) :
      TakesDef opts kind e s.target s.target :=
    ⟨_, _, _, by rw [Function.update_eq_self], .inl rfl, List.prefix_refl _, List.prefix_refl _, h⟩
  rw [restoreDef]
  split
  · next hbody => exact hsame fun body h => absurd (hbody.symm.trans h) nofun
  next body hbody =>
  split
  · next hvalid =>
    refine hsame fun body' h hvalid' => absurd hvalid' ?_
    rwa [← Option.mem_unique hbody h]
  obtain ⟨⟨message, hres⟩, hrefused⟩ | ⟨x, inserted, hres, hx, hid, hname, hsome⟩ :=
    snapshotRestoreDef_cases (s.target.defs kind) (restoredDef now e body)
  · rw [hres]
    exact hsame fun _ _ _ => .inl hrefused
  · have hdef : ((Function.update s.target.defs kind x kind).find e.row.row.defID).isSome := by
      rw [Function.update_self]
      exact hsome
    obtain ⟨y, z, h, hy, hz, hset⟩ := effect_restoredDef
      ⟨{ s.target with defs := Function.update s.target.defs kind x }, _⟩ kind e hid hdef
    rw [hres]
    exact ⟨x, y, z, h, hx, hy, hz, fun _ _ _ => .inr ⟨hid, hname, hsome, hset⟩⟩

/-! ## Memory -/

/-- The embedding an entry brings, when the store takes embeddings and it decodes to the length
it declares. -/
def carriedEmbedding (opts : RestoreOptions) (now : Instant) (supportsVectors : Bool)
    (e : MemoryEntry) : Option MemoryEmbedding := do
  guard (supportsVectors = true)
  let emb ← e.embedding
  let vector ← opts.wire.decodeFloat32LEBase64 emb.vector
  guard ((vector.length : Int) = emb.dimension ∧ 0 < emb.dimension)
  return restoredEmbedding now e.address emb vector

/-- The embedding is written over the one at the entry's address, whoever put it there. -/
def TakesEmbedding (opts : RestoreOptions) (now : Instant) (e : MemoryEntry) (t t' : Target) :
    Prop :=
  ∃ m, t' = { t with memory := m } ∧ m.memory = t.memory.memory ∧
    m.supportsVectors = t.memory.supportsVectors ∧
    m.embeddings = match carriedEmbedding opts now t.memory.supportsVectors e with
      | none => t.memory.embeddings
      | some emb => t.memory.embeddings.upsert emb

theorem effect_embedding (e : MemoryEntry)
    (hbase : (s.target.memory.memory.find (restoredAddress e.address)).isSome) :
    TakesEmbedding opts now e s.target (restoreMemoryEmbedding opts now s e).target := by
  have hsame (hnone : carriedEmbedding opts now s.target.memory.supportsVectors e = none) :
      TakesEmbedding opts now e s.target s.target := ⟨_, rfl, rfl, rfl, by rw [hnone]⟩
  rw [restoreMemoryEmbedding]
  split
  · next hemb => exact hsame (by simp [carriedEmbedding, hemb])
  next emb hemb =>
  split
  · next hvec => exact hsame (by simp [carriedEmbedding, hvec])
  next hvec =>
  split
  · next hdec => exact hsame (by simp [carriedEmbedding, hemb, hdec])
  next vector hdec =>
  split
  · next hlen => exact hsame (by simp [carriedEmbedding, hemb, hdec, hlen])
  next hlen =>
  by_cases hpos : (restoredEmbedding now e.address emb vector).dimension ≤ 0
  · have hnone : ¬ 0 < emb.dimension := not_lt.mpr hpos
    rw [memoryEmbedSet, if_neg hvec, if_pos hpos]
    exact hsame (by simp [carriedEmbedding, hemb, hdec, hnone])
  · have hsome : 0 < emb.dimension := not_le.mp hpos
    have hfits : ((restoredEmbedding now e.address emb vector).vector.length : Int) =
        (restoredEmbedding now e.address emb vector).dimension := not_not.mp hlen
    rw [memoryEmbedSet, if_neg hvec, if_neg hpos, if_neg (not_not.mpr hfits),
      dif_pos (by exact hbase)]
    refine ⟨_, rfl, rfl, rfl, ?_⟩
    simp [carriedEmbedding, not_not.mp hvec, hemb, hdec, not_not.mp hlen, hsome]

/-- The row of an entry is added unless its address is taken, and then its embedding is
written. -/
theorem effect_memory (e : MemoryEntry) :
    ∃ m, (restoreMemory opts now s e).target = { s.target with memory := m } ∧
      m.supportsVectors = s.target.memory.supportsVectors ∧
      ((m = s.target.memory ∧ (e.address.scope = "" ∨ e.address.key = "")) ∨
        (m.memory = s.target.memory.memory.insertOrIgnore (restoredRow now e) ∧
          ¬ (e.address.scope = "" ∨ e.address.key = "") ∧
          m.embeddings = match carriedEmbedding opts now s.target.memory.supportsVectors e with
            | none => s.target.memory.embeddings
            | some emb => s.target.memory.embeddings.upsert emb)) := by
  rw [restoreMemory, snapshotRestoreMemory]
  by_cases hmissing : (restoredRow now e).address.scope = "" ∨ (restoredRow now e).address.key = ""
  · rw [if_pos hmissing]
    exact ⟨_, rfl, rfl, .inl ⟨rfl, hmissing⟩⟩
  rw [if_neg hmissing]
  have hbase : ((s.target.memory.insert (restoredRow now e)).memory.find
      (restoredAddress e.address)).isSome := by
    rw [MemoryStore.insert, Table.find_insertOrIgnore, Option.isSome_or]
    simp [restoredRow]
  obtain ⟨m, hm, hrows, hvec, hemb⟩ := effect_embedding opts now
    (Restoring.count
      { s with target := { s.target with memory := s.target.memory.insert (restoredRow now e) } }
      (if (s.target.memory.memory.find (restoredRow now e).address).isNone then [.memory]
        else []))
    e hbase
  exact ⟨m, hm, hvec, .inr ⟨hrows, hmissing, hemb⟩⟩

/-! ## Runs -/

/-- Dropping the keys leaves whose run it is. -/
theorem withFreeKeys_columns (runs : Table Run.id) (row : Run) :
    (withFreeKeys runs row).id = row.id ∧ (withFreeKeys runs row).sessionID = row.sessionID ∧
      (withFreeKeys runs row).tenantID = row.tenantID := by
  rw [withFreeKeys]
  split
  · split <;> exact ⟨rfl, rfl, rfl⟩
  · exact ⟨rfl, rfl, rfl⟩

theorem withFreeKeys_id (runs : Table Run.id) (row : Run) :
    (withFreeKeys runs row).id = row.id := (withFreeKeys_columns runs row).1

/-- A run that is not here, without the keys others hold, collides with no run. -/
theorem withFreeKeys_free {row x : Run} (hfree : runs.find row.id = none) (hx : x ∈ runs.rows)
    (hkey : ((withFreeKeys runs row).idempotencyKey ≠ "" ∧ x.idempotencyKey = (withFreeKeys runs
      row).idempotencyKey) ∨ ((withFreeKeys runs row).deliveryAltKey ≠ "" ∧ x.deliveryAltKey =
      (withFreeKeys runs row).deliveryAltKey)) : False := by
  cases hheld : runByDeliveryKeys runs [row.idempotencyKey, row.deliveryAltKey] with
  | some held =>
    have hmem : held ∈ runs.rows :=
      List.mem_of_mem_filter (Paging.mem_of_mem_page (List.mem_of_mem_head? hheld))
    have hne : held.id ≠ row.id := Table.find_eq_none.mp hfree held hmem
    simp [withFreeKeys, hheld, hne] at hkey
  | none =>
    rw [withFreeKeys, hheld] at hkey
    have hnone := Paging.eq_nil_of_page Nat.one_pos (List.head?_eq_none_iff.mp hheld)
    refine List.filter_eq_nil_iff.mp hnone x hx ?_
    obtain ⟨hne, he⟩ | ⟨hne, he⟩ := hkey
    · simp [Run.holds, hne, he]
    · simp [Run.holds, hne, he]

theorem snapshotRestoreRun_cases {sessions : Table Session.id} (tbl : Table Run.id) (row : Run)
    (hid : row.id ≠ "") (hsid : row.sessionID ≠ "")
    (hsession : (sessions.find row.sessionID).isSome) :
    snapshotRestoreRun sessions tbl (withFreeKeys tbl row) = .ok (tbl, false) ∧
        (tbl.find row.id).isSome ∨
      snapshotRestoreRun sessions tbl (withFreeKeys tbl row) =
        .ok (tbl.insertOrIgnore (withFreeKeys tbl row), true) ∧ tbl.find row.id = none := by
  rw [snapshotRestoreRun, withFreeKeys_id, (withFreeKeys_columns tbl row).2.1,
    if_neg (by simp [hid, hsid])]
  cases hfind : tbl.find row.id with
  | some r => exact .inl ⟨if_pos rfl, rfl⟩
  | none =>
    have hnot := mt Option.isNone_iff_eq_none.mp (Option.isSome_iff_ne_none.mp hsession)
    rw [if_neg (by simp), if_neg ?_, if_neg hnot]
    · exact .inr ⟨rfl, rfl⟩
    · intro hany
      obtain ⟨x, hx, hkey⟩ := List.any_eq_true.mp hany
      exact withFreeKeys_free hfind hx (by simpa using hkey)

/-- A batch of events goes to a run with no transcript. -/
def TakesEvents (runID sessionID : String) (events : List TranscriptEvent) (t t' : Target) : Prop :=
  ∃ l, t' = { t with events := t.events ++ l } ∧
    (∀ x ∈ l, x.runID = runID ∧ x.sessionID = sessionID) ∧
    (l ≠ [] → events ≠ [] ∧ t.transcript runID = [])

theorem effect_transcript (runID sessionID : String) (events : List TranscriptEvent) :
    TakesEvents runID sessionID events s.target
      (restoreTranscript s runID sessionID events).target := by
  have hsame : TakesEvents runID sessionID events s.target s.target :=
    ⟨[], by rw [List.append_nil], nofun, fun h => absurd rfl h⟩
  rw [restoreTranscript]
  split
  · exact hsame
  next hempty =>
  dsimp only
  rw [snapshotRestoreRunEvents]
  split
  · exact hsame
  next target written h =>
  split at h
  · cases h
  split at h
  · cases h
    exact hsame
  split at h
  · cases h
    exact hsame
  next htranscript =>
  split at h
  · cases h
  · cases h
    refine ⟨_, rfl, ?_, fun _ => ⟨by simpa using hempty, not_not.mp htranscript⟩⟩
    intro x hx
    obtain ⟨y, -, rfl⟩ := List.mem_map.mp hx
    exact ⟨rfl, rfl⟩

/-- A run that is here has a transcript once its captured events were taken, if it has any. -/
theorem transcript_restoreTranscript {runID sessionID : String} {events : List TranscriptEvent}
    (hid : runID ≠ "") (hsid : sessionID ≠ "") (hrun : (s.target.runs.find runID).isSome)
    (hsession : (s.target.sessions.find sessionID).isSome) (hevents : events ≠ []) :
    (restoreTranscript s runID sessionID events).target.transcript runID ≠ [] := by
  have hkeys :
      ¬ ((s.target.runs.find runID).isNone ∨ (s.target.sessions.find sessionID).isNone) := by
    simp only [Option.isNone_iff_eq_none, ← Option.not_isSome_iff_eq_none, hrun, hsession,
      not_true_eq_false, or_self, not_false_eq_true]
  rw [restoreTranscript, if_neg (by simpa using hevents)]
  dsimp only
  rw [snapshotRestoreRunEvents, if_neg (by simp [hid, hsid]), if_neg (by simpa using hevents)]
  by_cases htranscript : s.target.transcript runID = []
  · rw [if_neg (not_not.mpr htranscript), if_neg hkeys]
    simpa [Target.transcript] using fun _ => List.exists_mem_of_ne_nil _ hevents
  · rw [if_pos htranscript]
    exact htranscript

theorem restoredSessionID_ne (sessionID runID : String) :
    restoredSessionID sessionID runID ≠ "" := by
  rw [restoredSessionID]
  split
  · simp [synthesizedID]
  · assumption

/-- The sessions after one was asked for: it is here, and only it was added. -/
structure SessionTaken (tbl x : Table Session.id) (id tenantID : String) : Prop where
  rows : tbl.rows <+: x.rows
  here : (x.find id).isSome
  new : ∀ r ∈ x.rows, r ∈ tbl.rows ∨ tbl.find id = none ∧ r.id = id ∧ r.tenantID = tenantID

/-- The runs after one was taken: only it was added, if it has an id that was free. -/
structure RunTaken (tbl y : Table Run.id) (id sessionID tenantID : String) : Prop where
  rows : tbl.rows <+: y.rows
  new : ∀ r ∈ y.rows, r ∈ tbl.rows ∨ (id ≠ "" ∧ tbl.find id = none) ∧ r.id = id ∧
    r.sessionID = sessionID ∧ r.tenantID = tenantID

theorem RunTaken.refl (tbl : Table Run.id) (id sessionID tenantID : String) :
    RunTaken tbl tbl id sessionID tenantID :=
  ⟨List.prefix_refl _, fun _ => .inl⟩

theorem snapshotRestoreSession_eq {tbl : Table Session.id} {r : Session} (h : r.id ≠ "") :
    snapshotRestoreSession tbl r = .ok (tbl.insertOrIgnore r, (tbl.find r.id).isNone) := by
  rw [snapshotRestoreSession, snapshotRestore, if_neg (by simpa using h)]

/-- The session of a run is taken, whatever the run's own id is. -/
theorem snapshotRestoreSession_taken (tbl : Table Session.id) (sessionID runID tenantID agent : String)
    (startedAt : Instant) (userID : String) :
    ∃ x inserted, snapshotRestoreSession tbl
        ⟨restoredSessionID sessionID runID, tenantID, agent, startedAt, userID⟩ = .ok (x, inserted) ∧
      SessionTaken tbl x (restoredSessionID sessionID runID) tenantID := by
  refine ⟨_, _, snapshotRestoreSession_eq (restoredSessionID_ne sessionID runID),
    Table.rows_insertOrIgnore _ _, (here_insertOrIgnore _ false _).resolve_left nofun,
    fun r' hr' => ?_⟩
  refine (Table.mem_insertOrIgnore hr').imp_right fun ⟨hfree, heq⟩ => ?_
  rw [heq]
  exact ⟨hfree, rfl, rfl⟩

theorem runTaken_insertOrIgnore (tbl : Table Run.id) {row : Run} (hid : row.id ≠ "") :
    RunTaken tbl (tbl.insertOrIgnore row) row.id row.sessionID row.tenantID where
  rows := Table.rows_insertOrIgnore _ _
  new r' hr' := by
    refine (Table.mem_insertOrIgnore hr').imp_right fun ⟨hfree, heq⟩ => ?_
    rw [heq]
    exact ⟨⟨hid, hfree⟩, rfl, rfl, rfl⟩

/-- Taking the run again would change nothing: its session is here, and the run with its
transcript is too, or it has no id. -/
def RunSettled (t : Target) (sessionID runID : String) (events : List TranscriptEvent) : Prop :=
  (t.sessions.find (restoredSessionID sessionID runID)).isSome ∧
    (runID = "" ∨ (t.runs.find runID).isSome ∧ (events = [] ∨ t.transcript runID ≠ []))

/-- The tenant a paused run is restored under: its own, or that of the session it is in. -/
def PausedRunEntry.tenant (e : PausedRunEntry) (sessions : Table Session.id) : String :=
  if e.tenantID ≠ "" then e.tenantID
  else ((sessions.find (restoredSessionID e.sessionID e.runID)).map (·.tenantID)).getD ""

/-- What taking a run adds: its session, itself in it, and its events, if `fresh` allows any. -/
def TakesRun (t t' : Target) (runID sessionID asked : String) (tenant : Table Session.id → String)
    (fresh : Table Run.id → Prop) : Prop :=
  ∃ x y l, t' = { t with sessions := x, runs := y, events := t.events ++ l } ∧
    SessionTaken t.sessions x sessionID asked ∧ RunTaken t.runs y runID sessionID (tenant x) ∧
    (∀ ev ∈ l, ev.runID = runID ∧ ev.sessionID = sessionID) ∧ (l ≠ [] → fresh y)

theorem takesRun_session {x : Table Session.id} {runID sessionID asked : String}
    {tenant : Table Session.id → String} {fresh : Table Run.id → Prop}
    (h : SessionTaken t.sessions x sessionID asked) :
    TakesRun t { t with sessions := x } runID sessionID asked tenant fresh :=
  ⟨x, _, [], by rw [List.append_nil], h, RunTaken.refl .., nofun, fun h => absurd rfl h⟩

theorem snapshotRestoreRun_unnamed {sessions : Table Session.id} (row : Run) (h : row.id = "") :
    snapshotRestoreRun sessions runs (withFreeKeys runs row) =
      .error "snapshot restore run: id and session_id required" := by
  rw [snapshotRestoreRun, withFreeKeys_id, if_pos (.inl h)]

/-- A paused run adds its session, itself and its events, these only to a run that has none. -/
theorem effect_pausedRun (e : PausedRunEntry) :
    TakesRun s.target (restorePausedRun now s e).target e.runID
      (restoredSessionID e.sessionID e.runID) e.tenantID e.tenant (fun y =>
        e.runID ≠ "" ∧ e.transcriptEvents ≠ [] ∧ s.target.transcript e.runID = [] ∧
          (y.find e.runID).isSome) ∧
      RunSettled (restorePausedRun now s e).target e.sessionID e.runID e.transcriptEvents := by
  have hsid := restoredSessionID_ne e.sessionID e.runID
  rw [restorePausedRun]
  obtain ⟨x, inserted, hres, hsession⟩ := snapshotRestoreSession_taken s.target.sessions
    e.sessionID e.runID e.tenantID e.agent (e.startedAt.getD now) e.userID
  rw [hres]
  dsimp only
  have htenant : (if e.tenantID ≠ "" then some e.tenantID
      else (x.find (restoredSessionID e.sessionID e.runID)).map (·.tenantID)) =
        some (e.tenant x) := by
    obtain ⟨r, hr⟩ := Option.isSome_iff_exists.mp hsession.here
    rw [PausedRunEntry.tenant, hr]
    split <;> rfl
  rw [htenant]
  dsimp only
  by_cases hid : e.runID = ""
  · rw [target_count, snapshotRestoreRun_unnamed (e.run now (e.tenant x)) hid]
    exact ⟨takesRun_session hsession, hsession.here, .inl hid⟩
  obtain ⟨y, inserted, hres, hy, hsome⟩ : ∃ y inserted, snapshotRestoreRun x s.target.runs
      (withFreeKeys s.target.runs (e.run now (e.tenant x))) = .ok (y, inserted) ∧
      RunTaken s.target.runs y e.runID (restoredSessionID e.sessionID e.runID) (e.tenant x) ∧
      (y.find e.runID).isSome := by
    obtain ⟨hres, hsome⟩ | ⟨hres, hfree⟩ := snapshotRestoreRun_cases s.target.runs
      (e.run now (e.tenant x)) hid hsid hsession.here
    · exact ⟨_, _, hres, RunTaken.refl .., hsome⟩
    · obtain ⟨hname, hplace, htenant⟩ := withFreeKeys_columns s.target.runs (e.run now (e.tenant x))
      have htaken := runTaken_insertOrIgnore s.target.runs (hname.trans_ne hid)
      have hhere := here_insertOrIgnore s.target.runs false
        (withFreeKeys s.target.runs (e.run now (e.tenant x)))
      rw [hname, hplace, htenant] at htaken
      rw [hname] at hhere
      exact ⟨_, _, hres, htaken, hhere.resolve_left nofun⟩
  rw [target_count, hres]
  dsimp only
  obtain ⟨l, hl, hids, hfresh⟩ := effect_transcript
    ⟨{ s.target with sessions := x, runs := y }, _⟩ e.runID
    (restoredSessionID e.sessionID e.runID) e.transcriptEvents
  refine ⟨⟨x, y, l, hl, hsession, hy, hids,
    fun h => ⟨hid, (hfresh h).1, (hfresh h).2, hsome⟩⟩, ?_, .inr ⟨?_, ?_⟩⟩
  · exact (congrArg Target.sessions hl) ▸ hsession.here
  · exact (congrArg Target.runs hl) ▸ hsome
  · by_cases hevents : e.transcriptEvents = []
    · exact .inl hevents
    · exact .inr (transcript_restoreTranscript _ hid hsid hsome hsession.here hevents)

/-- The request goes onto the row just inserted, so the rows before it stay as they were. -/
theorem effect_queuedInput {r : Run} (e : QueuedRunEntry)
    (hruns : s.target.runs = runs.insertOrIgnore r) (hfree : runs.find r.id = none)
    (hid : r.id = e.runID) (hne : r.id ≠ "") :
    ∃ y, (restoreQueuedInput opts s e).target = { s.target with runs := y } ∧
      RunTaken runs y e.runID r.sessionID r.tenantID ∧ (y.find e.runID).isSome := by
  have hfind : s.target.runs.find e.runID = some r := by
    rw [hruns, Table.find_insertOrIgnore, ← hid, hfree, if_pos rfl]
    rfl
  have hsame : ∃ y, s.target = { s.target with runs := y } ∧
      RunTaken runs y e.runID r.sessionID r.tenantID ∧ (y.find e.runID).isSome :=
    ⟨_, rfl, hruns ▸ hid ▸ runTaken_insertOrIgnore runs hne, hfind ▸ rfl⟩
  rw [restoreQueuedInput]
  split
  · exact hsame
  next input _ =>
  split
  · exact hsame
  next y hy =>
  rw [setQueuedInput, hfind] at hy
  dsimp only at hy
  split at hy
  · cases hy
    have hrows : ((runs.insertOrIgnore r).upsert { r with queuedInput := input }).rows =
        runs.rows ++ [{ r with queuedInput := input }] :=
      Table.rows_upsert_insertOrIgnore hfree rfl
    refine ⟨_, rfl, ⟨?_, fun r' hr' => ?_⟩, ?_⟩
    · rw [hruns, hrows]
      exact List.prefix_append _ _
    · rw [hruns, hrows] at hr'
      refine (List.mem_append.mp hr').imp_right fun h => ?_
      rw [List.mem_singleton.mp h, ← hid]
      exact ⟨⟨hne, hfree⟩, rfl, rfl, rfl⟩
    · rw [Table.find_upsert, if_pos hid]
      rfl
  · cases hy

/-- A queued run adds its session, itself and its events, and past the session nothing when the
run is here. -/
theorem effect_queuedRun (e : QueuedRunEntry) :
    TakesRun s.target (restoreQueuedRun opts now s e).target e.runID
      (restoredSessionID e.sessionID e.runID) e.tenantID (fun _ => e.tenantID)
      (fun y => e.runID ≠ "" ∧ s.target.runs.find e.runID = none ∧ (y.find e.runID).isSome) ∧
      RunSettled (restoreQueuedRun opts now s e).target e.sessionID e.runID [] := by
  have hsid := restoredSessionID_ne e.sessionID e.runID
  rw [restoreQueuedRun]
  obtain ⟨x, inserted, hres, hsession⟩ := snapshotRestoreSession_taken s.target.sessions
    e.sessionID e.runID e.tenantID e.agent (e.startedAt.getD now) e.userID
  rw [hres]
  dsimp only
  by_cases hid : e.runID = ""
  · rw [target_count, snapshotRestoreRun_unnamed (e.run now opts.replicaID) hid]
    exact ⟨takesRun_session hsession, hsession.here, .inl hid⟩
  obtain ⟨hres, hsome⟩ | ⟨hres, hfree⟩ := snapshotRestoreRun_cases s.target.runs
    (e.run now opts.replicaID) hid hsid hsession.here
  · rw [target_count, hres]
    exact ⟨takesRun_session hsession, hsession.here, .inr ⟨hsome, .inl rfl⟩⟩
  · obtain ⟨hname, hplace, htenant⟩ :=
      withFreeKeys_columns s.target.runs (e.run now opts.replicaID)
    rw [target_count, hres]
    dsimp only
    set runs := s.target.runs.insertOrIgnore
      (withFreeKeys s.target.runs (e.run now opts.replicaID)) with hruns
    obtain ⟨z, hz, hy, hsome⟩ := effect_queuedInput opts
      ⟨{ s.target with sessions := x, runs }, _⟩ e hruns (hname ▸ hfree) hname (hname.trans_ne hid)
    rw [hplace, htenant] at hy
    obtain ⟨l, hl, hids, -⟩ := effect_transcript _ e.runID
      (restoredSessionID e.sessionID e.runID) e.transcriptEvents
    have htarget := hl.trans
      (congrArg (fun t : Target => { t with events := t.events ++ l }) hz)
    refine ⟨⟨x, z, l, htarget, hsession, hy, hids, fun _ => ⟨hid, hfree, hsome⟩⟩, ?_,
      .inr ⟨?_, .inl rfl⟩⟩
    · exact (congrArg Target.sessions htarget) ▸ hsession.here
    · exact (congrArg Target.runs htarget) ▸ hsome

/-! ## Any entry -/

/-- What a step leaves alone, beside growing the target. -/
structure Step (e : Entry) (t t' : Target) : Prop where
  grows : Grows t t'
  defs : ∀ kind, (∀ d, e ≠ .definition kind d) → t'.defs kind = t.defs kind
  active : ∀ kind, (∀ p, e ≠ .active kind p) → t'.active kind = t.active kind
  memory : (∀ m, e ≠ .memory m) → t'.memory = t.memory
  runs : (∀ r, e ≠ .pausedRun r) → (∀ r, e ≠ .queuedRun r) →
    t'.sessions = t.sessions ∧ t'.runs = t.runs ∧ t'.events = t.events

theorem rows_update {ρ κ : Type} {key : ρ → κ} {f : DefKind → Table key} {kind : DefKind}
    {x : Table key} (h : (f kind).rows <+: x.rows) (k : DefKind) :
    (f k).rows <+: (Function.update f kind x k).rows := by
  by_cases hk : k = kind
  · subst hk
    rwa [Function.update_self]
  · exact ⟨[], by rw [Function.update_of_ne hk, List.append_nil]⟩

theorem Step.refl (e : Entry) (t : Target) : Step e t t :=
  ⟨.refl t, fun _ _ => rfl, fun _ _ => rfl, fun _ => rfl, fun _ _ => ⟨rfl, rfl, rfl⟩⟩

theorem TakesRun.step {e : Entry} {runID sessionID asked : String}
    {tenant : Table Session.id → String} {fresh : Table Run.id → Prop}
    (h : TakesRun t t' runID sessionID asked tenant fresh)
    (he : (∀ r, e ≠ .pausedRun r) → ∃ r, e = .queuedRun r) : Step e t t' := by
  obtain ⟨x, y, l, rfl, hx, hy, -, -⟩ := h
  exact { Step.refl e t with
    grows := { Grows.refl t with
      sessions := hx.rows, runs := hy.rows, events := List.prefix_append _ _ }
    runs := fun hp hq => (he hp).elim fun r hr => absurd hr (hq r) }

theorem step_restoreEntry (e : Entry) : Step e s.target (restoreEntry opts now s e).target := by
  have hsame := Step.refl e s.target
  have hrefl := hsame.grows
  cases e with
  | definition kind d =>
    obtain ⟨x, y, z, h, hx, hy, hz, -⟩ := effect_definition opts now s kind d
    rw [restoreEntry, h]
    refine { hsame with
      grows := { hrefl with defs := rows_update (OneMore.rows hx), activeRuns := hy, runState := hz }
      defs := fun k hk => Function.update_of_ne ?_ _ _ }
    rintro rfl
    exact hk d rfl
  | active kind p =>
    obtain ⟨x, h, hx, -⟩ := effect_active now s kind p
    rw [restoreEntry, h]
    refine { hsame with
      grows := { hrefl with active := rows_update hx }
      active := fun k hk => Function.update_of_ne ?_ _ _ }
    rintro rfl
    exact hk p rfl
  | volume v =>
    obtain ⟨x, dirs, h, hx, hdirs, -⟩ := effect_volume opts now s v
    rw [restoreEntry, h]
    exact { hsame with grows := { hrefl with volumes := hx, dirs := hdirs } }
  | memory m =>
    obtain ⟨x, h, hvec, hx⟩ := effect_memory opts now s m
    have hrows : s.target.memory.memory.rows <+: x.memory.rows := by
      obtain ⟨rfl, -⟩ | ⟨hins, -⟩ := hx
      · exact List.prefix_refl _
      · exact hins ▸ Table.rows_insertOrIgnore _ _
    rw [restoreEntry, h]
    exact { hsame with
      grows := { hrefl with supportsVectors := hvec, memory := hrows }
      memory := fun hm => absurd rfl (hm m) }
  | channel c =>
    obtain ⟨x, h, hx, -⟩ := effect_channel opts now s c
    rw [restoreEntry, h]
    exact { hsame with grows := { hrefl with channels := hx } }
  | message m =>
    obtain ⟨x, h, hx, -⟩ := effect_message now s m
    rw [restoreEntry, h]
    exact { hsame with grows := { hrefl with messages := hx } }
  | cursor c =>
    obtain ⟨x, h, hx, -⟩ := effect_cursor now s c
    rw [restoreEntry, h]
    exact { hsame with grows := { hrefl with cursors := hx } }
  | evaluation ev =>
    obtain ⟨x, h, hx, -⟩ := effect_evaluation now s ev
    rw [restoreEntry, h]
    exact { hsame with grows := { hrefl with evaluations := hx } }
  | pausedRun r => exact (effect_pausedRun now s r).1.step fun h => absurd rfl (h r)
  | queuedRun r => exact (effect_queuedRun opts now s r).1.step fun _ => ⟨r, rfl⟩

end Loomcycle.Snapshot
