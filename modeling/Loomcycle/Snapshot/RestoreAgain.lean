import Loomcycle.Lib.Replay
import Loomcycle.Snapshot.RestoreFrame

/-! Restoring the same envelope again. Every entry but a definition is settled once it was taken,
and stays so; a definition may be refused the first time and taken the second. An embedding is
written each time, so it is the last one at an address that counts. -/

namespace Loomcycle.Snapshot

open Lib Store

variable {opts : RestoreOptions} {now later : Instant} {env : Envelope} {t : Target}
  {s s' : Restoring}

/-! ## What changes nothing -/

/-- `s'` is `s` with warnings added at most. -/
def Unmoved (s s' : Restoring) : Prop :=
  s'.target = s.target ∧ s'.result.restored = s.result.restored

theorem Unmoved.refl (s : Restoring) : Unmoved s s := ⟨rfl, rfl⟩

theorem Unmoved.trans {s'' : Restoring} (h : Unmoved s s') (h' : Unmoved s' s'') :
    Unmoved s s'' :=
  ⟨h'.1.trans h.1, h'.2.trans h.2⟩

theorem unmoved_warn (s : Restoring) (w : String) : Unmoved s (s.warn w) := ⟨rfl, rfl⟩

theorem unmoved_count (s : Restoring) : Unmoved s (s.count []) := ⟨rfl, List.append_nil _⟩

/-- A pass over settled entries, when taking one leaves the target to the next. -/
theorem unmoved_foldl {ε : Type} {step : Restoring → ε → Restoring} {l : List ε}
    (hstep : ∀ e ∈ l, ∀ s', s'.target = s.target → Unmoved s' (step s' e)) :
    Unmoved s (l.foldl step s) := by
  refine List.foldlRecOn (motive := Unmoved s) l _ (Unmoved.refl s) fun s' hs' e he => ?_
  exact hs'.trans (hstep e he s' hs'.1)

theorem unmoved_activeRun {defID : String} {a : ScheduleActiveRun}
    (h : Here s.target.activeRuns (defID = "" || a.runID = "") a.runID) :
    Unmoved s (restoreScheduleActiveRun defID s a) := by
  rw [restoreScheduleActiveRun, snapshotRestoreScheduleActiveRun, snapshotRestore]
  by_cases hmissing : defID = "" || a.runID = ""
  · rw [if_pos hmissing]
    exact unmoved_warn _ _
  · obtain ⟨r, hr⟩ := Option.isSome_iff_exists.mp (h.resolve_left hmissing)
    have hsame : s.target.activeRuns.insertOrIgnore { a with defID } = s.target.activeRuns :=
      Table.insertOrIgnore_of_some hr
    rw [if_neg hmissing, hsame]
    exact Unmoved.refl s

theorem unmoved_scheduleState {e : DefEntry} (hid : e.row.row.defID ≠ "")
    (hdef : ((s.target.defs .schedule).find e.row.row.defID).isSome)
    (h : ScheduleSettled s.target.activeRuns s.target.runState e) :
    Unmoved s (restoreScheduleState s e) := by
  have hruns : Unmoved s (e.activeRuns.foldl (restoreScheduleActiveRun e.row.row.defID) s) :=
    unmoved_foldl fun a ha s' hs' => unmoved_activeRun (hs' ▸ h.1 a ha)
  rw [restoreScheduleState]
  cases hst : e.runState with
  | none => exact hruns
  | some st =>
    dsimp only
    rw [hruns.1, snapshotRestoreScheduleRunState_of_def hid hdef]
    refine hruns.trans (quiet_record _ ?_ _ _ (h.2 st hst))
    rw [hruns.1]

variable {kind : DefKind} {sessionID runID : String} {events : List TranscriptEvent} {e : Entry}
  {supportsVectors : Bool} {m : MemoryEntry}

theorem unmoved_definition {e : DefEntry}
    (h : DefSettled opts kind (s.target.defs kind) s.target.activeRuns s.target.runState e) :
    Unmoved s (restoreDef opts now kind s e) := by
  rw [restoreDef]
  split
  · exact unmoved_warn _ _
  next body hbody =>
  split
  · exact unmoved_warn _ _
  next hvalid =>
  obtain hrefused | ⟨hid, hname, hsome, hstate⟩ := h body hbody (not_not.mp hvalid)
  · obtain ⟨message, hres⟩ :=
      snapshotRestoreDef_of_refused (r := restoredDef now e body) hrefused
    rw [hres]
    exact unmoved_warn _ _
  have hhere : snapshotRestoreDef (s.target.defs kind) (restoredDef now e body) =
      .ok (s.target.defs kind, false) :=
    (if_neg (not_or.mpr ⟨hid, hname⟩)).trans (if_pos hsome)
  rw [hhere]
  dsimp only
  rw [Function.update_eq_self]
  split
  · next hk =>
    subst hk
    exact (unmoved_count s).trans (unmoved_scheduleState hid hsome (hstate rfl))
  · exact unmoved_count s

/-- A section that takes the rows the store admits, when such a row is here. -/
theorem unmoved_admitted {ρ κ : Type} [DecidableEq κ] {key : ρ → κ} {tbl : Table key} {c : Prop}
    [Decidable c] (put : Target → Table key → Target) (hput : put s.target tbl = s.target)
    (counter : Counter) (missing : Bool) (w message : String) (r : ρ)
    (h : c → Here tbl missing (key r)) :
    Unmoved s (if ¬ c then s.warn w
      else s.record counter put (snapshotRestore missing message tbl r)) := by
  split
  · exact unmoved_warn _ _
  · next hadmitted => exact quiet_record put hput _ _ (h (not_not.mp hadmitted))

theorem unmoved_volume {e : VolumeDefEntry}
    (h : VolumeSettled opts s.target.volumes s.target.dirs e) :
    Unmoved s (restoreVolumeDef opts now s e) := by
  rw [restoreVolumeDef]
  split
  · exact unmoved_warn _ _
  next hroot =>
  split
  · exact unmoved_warn _ _
  next hvalid =>
  split
  · exact unmoved_warn _ _
  next hstatic =>
  split
  · exact Unmoved.refl s
  next hfind =>
  split
  · exact unmoved_warn _ _
  next path hpath =>
  obtain h | h | h | h | h | ⟨hname, hdirs⟩ := h
  · exact absurd h hroot
  · exact absurd h hvalid
  · exact absurd h hstatic
  · exact absurd (hpath.symm.trans h) (Option.some_ne_none _)
  · exact absurd h hfind
  · rw [mkdirFenced, if_pos (hdirs path hpath)]
    exact quiet_record _ rfl _ _ (.inl (decide_eq_true hname))

/-- Taking the memory entry again would add no row. -/
def MemorySettled (m : MemoryStore) (e : MemoryEntry) : Prop :=
  e.address.scope = "" ∨ e.address.key = "" ∨ (m.memory.find (restoredAddress e.address)).isSome

theorem restored_restoreMemoryEmbedding (opts : RestoreOptions) (now : Instant) (s : Restoring)
    (e : MemoryEntry) :
    (restoreMemoryEmbedding opts now s e).result.restored = s.result.restored := by
  rw [restoreMemoryEmbedding]
  split
  · rfl
  split
  · rfl
  split
  · rfl
  split
  · rfl
  split <;> rfl

/-- `s'` is `s` with embeddings rewritten in their places, and warnings added, at most. -/
def Rewritten (s s' : Restoring) : Prop :=
  s'.result.restored = s.result.restored ∧ ∃ m, s'.target = { s.target with memory := m } ∧
    m.memory = s.target.memory.memory ∧ m.supportsVectors = s.target.memory.supportsVectors ∧
    m.embeddings.rows.map MemoryEmbedding.address =
      s.target.memory.embeddings.rows.map MemoryEmbedding.address

theorem Unmoved.rewritten (h : Unmoved s s') : Rewritten s s' :=
  ⟨h.2, _, h.1, rfl, rfl, rfl⟩

theorem Rewritten.trans {s'' : Restoring} (h : Rewritten s s') (h' : Rewritten s' s'') :
    Rewritten s s'' := by
  obtain ⟨hrestored, m, hm, hrows, hvectors, hkeys⟩ := h
  obtain ⟨hrestored', m', hm', hrows', hvectors', hkeys'⟩ := h'
  rw [hm] at hm' hrows' hvectors' hkeys'
  exact ⟨hrestored'.trans hrestored, m', hm', hrows'.trans hrows, hvectors'.trans hvectors,
    hkeys'.trans hkeys⟩

theorem rewritten_memory {m : MemoryEntry} (h : MemorySettled s.target.memory m)
    (hemb : ∀ emb, Entry.embedding opts now s.target.memory.supportsVectors (.memory m) = some emb →
      (s.target.memory.embeddings.find emb.address).isSome) :
    Rewritten s (restoreMemory opts now s m) := by
  rw [restoreMemory, snapshotRestoreMemory]
  by_cases hmissing : (restoredRow now m).address.scope = "" ∨ (restoredRow now m).address.key = ""
  · rw [if_pos hmissing]
    exact (unmoved_warn _ _).rewritten
  rw [if_neg hmissing]
  obtain h | h | hsome := h
  · exact absurd (.inl h) hmissing
  · exact absurd (.inr h) hmissing
  obtain ⟨r, hr⟩ := Option.isSome_iff_exists.mp hsome
  have hrow : (s.target.memory.memory.find (restoredRow now m).address) = some r := hr
  have hmem : s.target.memory.insert (restoredRow now m) = s.target.memory :=
    MemoryStore.ext (Table.insertOrIgnore_of_some hr) rfl rfl
  change Rewritten s (restoreMemoryEmbedding opts now (Restoring.count
    { s with target := { s.target with memory := s.target.memory.insert (restoredRow now m) } }
    (if (s.target.memory.memory.find (restoredRow now m).address).isNone then [.memory] else [])) m)
  rw [hmem, hrow]
  obtain ⟨x, hx, hrows, hvec, hembs⟩ := effect_embedding opts now (s.count []) m hsome
  refine ⟨(restored_restoreMemoryEmbedding ..).trans (List.append_nil _), x, hx, hrows, hvec, ?_⟩
  rw [hembs]
  split
  · rfl
  · next emb hcarried =>
    have hwritten : Entry.embedding opts now s.target.memory.supportsVectors (.memory m) =
        some emb := (if_neg hmissing).trans hcarried
    obtain ⟨emb', hemb'⟩ := Option.isSome_iff_exists.mp (hemb emb hwritten)
    exact Table.keys_upsert_of_some hemb'

theorem unmoved_transcript (hid : runID ≠ "") (hsid : sessionID ≠ "")
    (h : events = [] ∨ s.target.transcript runID ≠ []) :
    Unmoved s (restoreTranscript s runID sessionID events) := by
  rw [restoreTranscript]
  split
  · exact Unmoved.refl s
  next hevents =>
  have hnonempty : events ≠ [] := by simpa using hevents
  dsimp only
  rw [snapshotRestoreRunEvents, if_neg (by simp [hid, hsid]), if_neg (by simpa using hnonempty),
    if_pos (h.resolve_left hnonempty)]
  exact unmoved_count s

/-- A session that is here is found and not inserted. -/
theorem snapshotRestoreSession_of_some {tbl : Table Session.id} {r : Session} (hid : r.id ≠ "")
    (h : (tbl.find r.id).isSome) : snapshotRestoreSession tbl r = .ok (tbl, false) := by
  obtain ⟨r', hr'⟩ := Option.isSome_iff_exists.mp h
  rw [snapshotRestoreSession_eq hid, Table.insertOrIgnore_of_some hr', hr', Option.isNone_some]

/-- A run that is here, or that has no id, is not inserted. -/
theorem snapshotRestoreRun_of_settled {sessions : Table Session.id} {tbl : Table Run.id} (row : Run)
    (hsid : row.sessionID ≠ "") (hsession : (sessions.find row.sessionID).isSome)
    (h : row.id = "" ∨ (tbl.find row.id).isSome) :
    (∃ message, snapshotRestoreRun sessions tbl (withFreeKeys tbl row) = .error message) ∨
      row.id ≠ "" ∧ snapshotRestoreRun sessions tbl (withFreeKeys tbl row) = .ok (tbl, false) := by
  by_cases hid : row.id = ""
  · exact .inl ⟨_, snapshotRestoreRun_unnamed row hid⟩
  · refine .inr ⟨hid, ?_⟩
    obtain ⟨hres, -⟩ | ⟨-, hnone⟩ := snapshotRestoreRun_cases tbl row hid hsid hsession
    · exact hres
    · rw [hnone] at h
      exact absurd (h.resolve_left hid) Bool.false_ne_true

theorem unmoved_pausedRun {e : PausedRunEntry}
    (h : RunSettled s.target e.sessionID e.runID e.transcriptEvents) :
    Unmoved s (restorePausedRun now s e) := by
  have hsid := restoredSessionID_ne e.sessionID e.runID
  obtain ⟨hsession, hrun⟩ := h
  rw [restorePausedRun]
  rw [snapshotRestoreSession_of_some hsid hsession]
  dsimp only
  split
  · exact (unmoved_count s).trans (unmoved_warn _ _)
  next tenantID _ =>
  obtain ⟨message, hres⟩ | ⟨hid, hres⟩ := snapshotRestoreRun_of_settled
    (e.run now tenantID) hsid hsession (hrun.imp_right And.left)
  · rw [target_count, hres]
    exact (unmoved_count s).trans (unmoved_warn _ _)
  · rw [target_count, hres]
    refine (unmoved_count s).trans ((unmoved_count (s.count [])).trans ?_)
    exact unmoved_transcript hid hsid (hrun.resolve_left hid).2

theorem unmoved_queuedRun {e : QueuedRunEntry} (h : RunSettled s.target e.sessionID e.runID []) :
    Unmoved s (restoreQueuedRun opts now s e) := by
  have hsid := restoredSessionID_ne e.sessionID e.runID
  obtain ⟨hsession, hrun⟩ := h
  rw [restoreQueuedRun]
  rw [snapshotRestoreSession_of_some hsid hsession]
  dsimp only
  obtain ⟨message, hres⟩ | ⟨-, hres⟩ := snapshotRestoreRun_of_settled
    (e.run now opts.replicaID) hsid hsession (hrun.imp_right And.left)
  · rw [target_count, hres]
    exact (unmoved_count s).trans (unmoved_warn _ _)
  · rw [target_count, hres]
    exact unmoved_count s

/-! ## Settled entries -/

/-- Taking the entry would change nothing, but for an embedding. -/
def Settled (opts : RestoreOptions) : Entry → Target → Prop
  | .definition kind e, t => DefSettled opts kind (t.defs kind) t.activeRuns t.runState e
  | .active kind e, t => admitActivePointer t kind e.row →
      Here (t.active kind) (e.row.name = "" || e.row.defID = "") e.row.owner
  | .volume e, t => VolumeSettled opts t.volumes t.dirs e
  | .memory e, t => MemorySettled t.memory e
  | .channel e, t => opts.channelValidator.all (fun v => v e.row) →
      Here t.channels false e.row.owner
  | .message m, t => teamChannelAdmits t m.tenantID m.channel →
      Here t.messages (m.id = "" || m.channel = "") m.id
  | .cursor c, t => teamChannelAdmits t c.row.tenantID c.row.channel →
      Here t.cursors (c.row.channel = "" || c.row.cursor = "") c.row.place
  | .evaluation e, t => Here t.evaluations (e.row.evalID = "" || e.row.runID = "") e.row.evalID
  | .pausedRun e, t => RunSettled t e.sessionID e.runID e.transcriptEvents
  | .queuedRun e, t => RunSettled t e.sessionID e.runID []

theorem rewritten_restoreEntry (h : Settled opts e s.target)
    (hemb : ∀ emb, e.embedding opts now s.target.memory.supportsVectors = some emb →
      (s.target.memory.embeddings.find emb.address).isSome) :
    Rewritten s (restoreEntry opts now s e) := by
  cases e with
  | definition kind e => exact (unmoved_definition h).rewritten
  | active kind e =>
    refine (unmoved_admitted _ ?_ _ _ _ _
      ({ e.row with promotedAt := e.time.getD now } : ActiveRow) h).rewritten
    rw [Function.update_eq_self]
  | volume e => exact (unmoved_volume h).rewritten
  | memory e => exact rewritten_memory h hemb
  | channel e =>
    exact (unmoved_admitted (fun t channels => { t with channels }) rfl _ false _ ""
      { e.row with createdAt := e.time.getD now } h).rewritten
  | message m => exact (unmoved_admitted _ rfl _ _ _ _ (restoredMessage now m) h).rewritten
  | cursor c =>
    exact (unmoved_admitted _ rfl _ _ _ _
      ({ c.row with updatedAt := c.time.getD now } : ChannelCursor) h).rewritten
  | evaluation e => exact Unmoved.rewritten (quiet_record _ rfl _ _ h)
  | pausedRun e => exact (unmoved_pausedRun h).rewritten
  | queuedRun e => exact (unmoved_queuedRun h).rewritten

/-- It does not matter to an entry what the embeddings are. -/
theorem Settled.of_rewritten (h : Settled opts e s.target) (hs : Rewritten s s') :
    Settled opts e s'.target := by
  obtain ⟨-, m, hm, hrows, -⟩ := hs
  rw [hm]
  cases e with
  | memory e =>
    rw [Settled, MemorySettled] at h ⊢
    dsimp only
    rwa [hrows]
  | _ => exact h

/-- An entry is settled by its own step. -/
theorem settled_self (opts : RestoreOptions) (now : Instant) (s : Restoring) (e : Entry) :
    Settled opts e (restoreEntry opts now s e).target := by
  cases e with
  | definition kind e =>
    obtain ⟨x, y, z, h, -, -, -, hset⟩ := effect_definition opts now s kind e
    rw [restoreEntry, h, Settled]
    dsimp only
    rwa [Function.update_self]
  | active kind e =>
    obtain ⟨x, h, -, -, hset⟩ := effect_active now s kind e
    rw [restoreEntry, h, Settled]
    dsimp only
    rwa [Function.update_self]
  | volume e =>
    obtain ⟨x, dirs, h, -, -, hset⟩ := effect_volume opts now s e
    rw [restoreEntry, h]
    exact hset
  | memory e =>
    obtain ⟨x, h, -, ⟨rfl, hmissing⟩ | ⟨hrows, -⟩⟩ := effect_memory opts now s e
    · exact hmissing.elim .inl (.inr ∘ .inl)
    rw [restoreEntry, h]
    refine .inr (.inr ?_)
    rw [hrows]
    exact (here_insertOrIgnore _ false (restoredRow now e)).resolve_left Bool.false_ne_true
  | channel e =>
    obtain ⟨x, h, -, hset⟩ := effect_channel opts now s e
    rw [restoreEntry, h]
    exact hset
  | message m =>
    obtain ⟨x, h, -, hset⟩ := effect_message now s m
    rw [restoreEntry, h]
    exact hset
  | cursor c =>
    obtain ⟨x, h, -, hset⟩ := effect_cursor now s c
    rw [restoreEntry, h]
    exact hset
  | evaluation e =>
    obtain ⟨x, h, -, hset⟩ := effect_evaluation now s e
    rw [restoreEntry, h]
    exact hset
  | pausedRun e => exact (effect_pausedRun now s e).2
  | queuedRun e => exact (effect_queuedRun opts now s e).2

/-! ## The order of the sections -/

def Entry.section : Entry → Section
  | .definition kind _ => .definitions kind
  | .active kind _ => .pointers kind
  | .volume _ => .volumes
  | .memory _ => .memory
  | .channel _ => .channelDefs
  | .message _ => .messages
  | .cursor _ => .cursors
  | .evaluation _ => .evaluations
  | .pausedRun _ => .pausedRuns
  | .queuedRun _ => .queuedRuns

theorem section_of_mem {sec : Section} (h : e ∈ env.entriesOf sec) : e.section = sec := by
  cases sec <;> obtain ⟨_, -, rfl⟩ := List.mem_map.mp h <;> rfl

/-- The entries of a section taken after another leave its entries settled. -/
def Section.clear : Section → Section → Bool
  | .pointers kind, .definitions kind' => kind ≠ kind'
  | .messages, .definitions kind => kind ≠ .team
  | .cursors, .definitions kind => kind ≠ .team
  | _, _ => true

theorem sections_clear : sections.Pairwise fun a b => Section.clear a b := by decide

theorem clear_entries (env : Envelope) :
    env.entries.Pairwise fun e e' => e.section.clear e'.section := by
  refine List.pairwise_flatMap.mpr ⟨fun sec _ => ?_, ?_⟩
  · cases sec <;> exact List.pairwise_map.mpr (List.pairwise_of_forall fun _ _ => rfl)
  · refine sections_clear.imp fun hclear e he e' he' => ?_
    rwa [section_of_mem he, section_of_mem he']

/-! ## Steps that leave an entry settled -/

theorem VolumeSettled.mono {volumes volumes' : Table VolumeDefRow.owner} {dirs dirs' : List String}
    {e : VolumeDefEntry} (h : VolumeSettled opts volumes dirs e)
    (hrows : volumes.rows <+: volumes'.rows) (hdirs : dirs <+: dirs') :
    VolumeSettled opts volumes' dirs' e := by
  obtain h | h | h | h | h | ⟨hname, hmade⟩ := h
  · exact .inl h
  · exact .inr (.inl h)
  · exact .inr (.inr (.inl h))
  · exact .inr (.inr (.inr (.inl h)))
  · exact .inr (.inr (.inr (.inr (.inl (isSome_of_rows hrows h)))))
  · exact .inr (.inr (.inr (.inr (.inr ⟨hname, fun path hp => hdirs.subset (hmade path hp)⟩))))

/-- A definition is left out: a later one of its plane may disturb it. -/
def SettledSection (opts : RestoreOptions) (e : Entry) (t : Target) : Prop :=
  (∀ kind d, e ≠ .definition kind d) → Settled opts e t

theorem settled_step {e' : Entry} (h : SettledSection opts e s.target)
    (hclear : e.section.clear e'.section) :
    SettledSection opts e (restoreEntry opts now s e').target := by
  intro hdef
  replace h := h hdef
  have hstep := step_restoreEntry opts now s e'
  have hgrows := hstep.grows
  cases e with
  | definition kind d => exact absurd rfl (hdef kind d)
  | active kind p =>
    have hdefs : (restoreEntry opts now s e').target.defs kind = s.target.defs kind :=
      hstep.defs kind fun d hd => by subst hd; exact of_decide_eq_true hclear rfl
    intro hadmitted
    rw [admitActivePointer, hdefs] at hadmitted
    exact (h hadmitted).mono (hgrows.active kind)
  | volume v => exact VolumeSettled.mono h hgrows.volumes hgrows.dirs
  | memory m => exact h.imp_right (Or.imp_right (isSome_of_rows hgrows.memory))
  | channel c => exact fun hvalid => (h hvalid).mono hgrows.channels
  | message _ | cursor _ =>
    have hdefs : (restoreEntry opts now s e').target.defs .team = s.target.defs .team :=
      hstep.defs .team fun d hd => by subst hd; exact Bool.false_ne_true hclear
    intro hadmits
    rw [teamChannelAdmits, hdefs] at hadmits
    exact (h hadmits).mono (by first | exact hgrows.messages | exact hgrows.cursors)
  | evaluation ev => exact Here.mono h hgrows.evaluations
  | pausedRun r | queuedRun r => exact RunSettled.mono h hgrows

/-! ## The second restore -/

theorem settled_restore (he : e ∈ env.entries) (hdef : ∀ kind d, e ≠ .definition kind d) :
    Settled opts e (restore opts now env t).target :=
  Replay.settled_foldl (fun (e : Entry) (s : Restoring) => SettledSection opts e s.target)
    (fun s e _ _ => settled_self opts now s e) (fun _ _ _ => settled_step) (clear_entries env)
    ⟨t, ⟨[], []⟩⟩ e he hdef

/-- What a second restore at `later` must find: each definition is still refused or here with its
state, and the last embedding at an address is the same by either clock. -/
structure Repeats (opts : RestoreOptions) (now later : Instant) (env : Envelope) (t : Target) :
    Prop where
  definitions : ∀ kind, ∀ d ∈ env.defs kind,
    DefSettled opts kind ((restore opts now env t).target.defs kind)
      (restore opts now env t).target.activeRuns (restore opts now env t).target.runState d
  embeddings : ∀ a, lastEmbedding opts later t.memory.supportsVectors env.entries a =
    lastEmbedding opts now t.memory.supportsVectors env.entries a

theorem definition_mem_entries {kind : DefKind} {d : DefEntry} (h : d ∈ env.defs kind) :
    Entry.definition kind d ∈ env.entries := by
  refine List.mem_flatMap.mpr ⟨.definitions kind, ?_, List.mem_map_of_mem h⟩
  cases kind <;> decide

/-- A restore that leaves its target as it was found every definition settled. -/
theorem definitions_of_unmoved (h : (restore opts now env t).target = t) {kind : DefKind}
    {d : DefEntry} (hd : d ∈ env.defs kind) :
    DefSettled opts kind (t.defs kind) t.activeRuns t.runState d := by
  obtain ⟨pre, post, heq⟩ := List.append_of_mem (definition_mem_entries hd)
  set s : Restoring := pre.foldl (restoreEntry opts now) ⟨t, ⟨[], []⟩⟩
  have hsettled := settled_self opts now s (.definition kind d)
  have hbefore : Grows t (restoreEntry opts now s (.definition kind d)).target :=
    (grows_foldl opts now pre ⟨t, ⟨[], []⟩⟩).trans (step_restoreEntry opts now s _).grows
  have hafter := grows_foldl opts now post (restoreEntry opts now s (.definition kind d))
  rw [restore, heq, List.foldl_append, List.foldl_cons] at h
  rw [h] at hafter
  -- between the target and itself no table can have grown
  have hdefs := Table.ext ((hafter.defs kind).sublist.antisymm (hbefore.defs kind).sublist)
  have hruns := Table.ext (hafter.activeRuns.sublist.antisymm hbefore.activeRuns.sublist)
  have hstate := Table.ext (hafter.runState.sublist.antisymm hbefore.runState.sublist)
  rwa [Settled, hdefs, hruns, hstate] at hsettled

/-- The clock does not matter to where an embedding is written. -/
theorem address_embedding (now later : Instant) (e : Entry) :
    (e.embedding opts now supportsVectors).map (·.address) =
      (e.embedding opts later supportsVectors).map (·.address) := by
  cases e with
  | memory m =>
    rw [Entry.embedding, Entry.embedding]
    split
    · rfl
    cases hemb : m.embedding with
    | none => simp [carriedEmbedding, hemb]
    | some emb =>
      cases hvector : opts.wire.decodeFloat32LEBase64 emb.vector with
      | none => simp [carriedEmbedding, hemb, hvector]
      | some vector => simp [carriedEmbedding, hemb, hvector, restoredEmbedding, Option.map_bind]
  | _ => rfl

theorem isSome_lastEmbedding {a : Address} :
    (lastEmbedding opts now supportsVectors l a).isSome ↔
      ∃ e ∈ l, (e.embedding opts now supportsVectors).map (·.address) = some a := by
  simp only [lastEmbedding, List.find?_isSome, List.mem_reverse, List.mem_filterMap,
    decide_eq_true_eq, Option.map_eq_some_iff]
  constructor
  · rintro ⟨emb, ⟨e, he, hemb⟩, haddr⟩
    exact ⟨e, he, emb, hemb, haddr⟩
  · rintro ⟨e, he, emb, hemb, haddr⟩
    exact ⟨emb, ⟨e, he, hemb⟩, haddr⟩

theorem isSome_lastEmbedding_congr (now later : Instant) {a : Address}
    (h : (lastEmbedding opts now supportsVectors l a).isSome) :
    (lastEmbedding opts later supportsVectors l a).isSome := by
  obtain ⟨e, he, haddr⟩ := isSome_lastEmbedding.mp h
  exact isSome_lastEmbedding.mpr ⟨e, he, address_embedding now later e ▸ haddr⟩

variable (opts now later env t) in
theorem find_embeddings_again (a : Address) :
    (restore opts later env (restore opts now env t).target).target.memory.embeddings.find a =
      (lastEmbedding opts later t.memory.supportsVectors env.entries a).or
        ((lastEmbedding opts now t.memory.supportsVectors env.entries a).or
          (t.memory.embeddings.find a)) := by
  rw [find_embeddings_restore, (grows_restore opts now env t).supportsVectors,
    find_embeddings_restore]

theorem embeddings_of_unmoved
    (h : (restore opts later env (restore opts now env t).target).target =
      (restore opts now env t).target) (a : Address) :
    lastEmbedding opts later t.memory.supportsVectors env.entries a =
      lastEmbedding opts now t.memory.supportsVectors env.entries a := by
  have hsame := find_embeddings_again opts now later env t a
  rw [h, find_embeddings_restore] at hsame
  cases hlater : lastEmbedding opts later t.memory.supportsVectors env.entries a with
  | none =>
    refine (Option.not_isSome_iff_eq_none.mp fun hsome => ?_).symm
    have hnot := isSome_lastEmbedding_congr now later hsome
    rw [hlater] at hnot
    cases hnot
  | some emb =>
    obtain ⟨emb', hnow⟩ := Option.isSome_iff_exists.mp
      (isSome_lastEmbedding_congr later now (Option.isSome_iff_exists.mpr ⟨emb, hlater⟩))
    rw [hlater, hnow] at hsame
    rw [hnow]
    exact hsame.symm

theorem rewritten_restore (h : Repeats opts now later env t) :
    Rewritten ⟨(restore opts now env t).target, ⟨[], []⟩⟩
      (restore opts later env (restore opts now env t).target) := by
  refine List.foldlRecOn (motive := Rewritten ⟨(restore opts now env t).target, ⟨[], []⟩⟩)
    env.entries _ (Unmoved.refl _).rewritten fun s hs e he => hs.trans ?_
  have hsettled : Settled opts e (restore opts now env t).target := by
    by_cases hdef : ∃ kind d, e = .definition kind d
    · obtain ⟨kind, d, rfl⟩ := hdef
      exact h.definitions kind d (mem_of_mem_entries he)
    · exact settled_restore he fun kind d heq => hdef ⟨kind, d, heq⟩
  refine rewritten_restoreEntry
    (hsettled.of_rewritten (s := ⟨(restore opts now env t).target, ⟨[], []⟩⟩) hs) fun emb hemb => ?_
  -- what is written now was written the first time
  obtain ⟨-, m, hm, -, hvectors, hkeys⟩ := hs
  rw [hm] at hemb ⊢
  dsimp only at hemb hkeys ⊢
  rw [hvectors, (grows_restore opts now env t).supportsVectors] at hemb
  have hlast := isSome_lastEmbedding_congr later now
    (isSome_lastEmbedding.mpr ⟨e, he, congrArg (Option.map _) hemb⟩)
  rw [Table.isSome_find, hkeys, ← Table.isSome_find, find_embeddings_restore, Option.isSome_or,
    hlast, Bool.true_or]

theorem unmoved_restore_iff (opts : RestoreOptions) (now later : Instant) (env : Envelope)
    (t : Target) :
    Unmoved ⟨(restore opts now env t).target, ⟨[], []⟩⟩
        (restore opts later env (restore opts now env t).target) ↔
      Repeats opts now later env t := by
  constructor
  · intro h
    exact ⟨fun _ _ hd => definitions_of_unmoved h.1 hd, embeddings_of_unmoved h.1⟩
  · intro h
    obtain ⟨hrestored, m, hm, hrows, hvectors, hkeys⟩ := rewritten_restore h
    have hfind (a : Address) :
        m.embeddings.find a = (restore opts now env t).target.memory.embeddings.find a := by
      have hagain := find_embeddings_again opts now later env t a
      rw [hm, h.embeddings a, ← Option.or_assoc, Option.or_self] at hagain
      exact hagain.trans (find_embeddings_restore opts now env t a).symm
    have hmemory : m = (restore opts now env t).target.memory :=
      MemoryStore.ext hrows (Table.eq_of_find hkeys hfind) hvectors
    refine ⟨hm.trans ?_, hrestored⟩
    rw [hmemory]

/-- A host with every plane's validator wired and open, and floats one a character. -/
def sampleOptions : RestoreOptions where
  wire := ⟨some, fun v => String.ofList (v.map fun _ => 'f'),
    fun v => some (v.toList.map fun c => c.val)⟩
  replicaID := "replica"
  validators _ := some fun _ => true
  volumeValidator := none
  channelValidator := none
  volumeRoot := ""
  staticVolumeNames := []
  provision _ _ := none
  forceCaptureDisabled _ _ := none
  stripQueuedSecrets := some

def sampleMemory (key model : String) : MemoryEntry where
  address := ⟨"acme", "user", "u1", key⟩
  value := "1"
  expiresAt := none
  createdAt := some 1
  updatedAt := some 1
  observedAt := none
  validAt := none
  invalidAt := none
  embedding := some ⟨"provider", model, 1, "f", "text", some 1⟩

def sampleAgent (defID name parentDefID : String) : DefEntry where
  row := ⟨{ defID, tenantID := "acme", name, version := 1, parentDefID, definition := ""
            description := "", createdAt := 0, createdByAgentID := "", createdByRunID := ""
            retired := false, bootstrappedFromStatic := false, contentSHA256 := ""
            operatorAuthored := false }, some 1⟩
  strippedCredentials := []
  activeRuns := []
  runState := none

def sampleRun (transcriptEvents : List TranscriptEvent) : PausedRunEntry where
  runID := "run"
  agentID := "a1"
  parentAgentID := ""
  userID := "u1"
  userTier := ""
  agent := "agent"
  agentDefID := ""
  sessionID := "session"
  startedAt := some 1
  model := "model"
  pauseState := "paused"
  tenantID := "acme"
  parentRunID := ""
  interactive := false
  operatorKeyRestricted := false
  isolated := false
  credentialsNoUserScope := false
  parentContext := ""
  runConfig := ""
  idempotencyKey := "key"
  deliveryAltKey := ""
  transcriptEvents

/-- A target that holds a note with its embedding and a run, the latter with these events. -/
def sampleTarget (events : List TranscriptEvent) : Target :=
  (restore sampleOptions 1
    { Envelope.empty with
      memory := [sampleMemory "note" "model"], pausedRuns := [sampleRun events] }
    (.empty true)).target

end Loomcycle.Snapshot
