import Loomcycle.Snapshot.RestoreSteps

/-! A restore adds to the target. The tables keep their rows whatever the envelope holds; the
embeddings and transcripts of what the target held stay if and only if envelope and target fit. -/

namespace Loomcycle.Snapshot

open Lib Store

variable {opts : RestoreOptions} {now : Instant} {env : Envelope} {t t' : Target} {s : Restoring}
  {e : Entry} {l : List Entry} {id sessionID runID : String} {events : List TranscriptEvent}

theorem grows_foldl (opts : RestoreOptions) (now : Instant) (l : List Entry) (s : Restoring) :
    Grows s.target (l.foldl (restoreEntry opts now) s).target :=
  List.foldlRecOn (motive := fun s' : Restoring => Grows s.target s'.target) l _ (.refl _)
    fun s' hs' e _ => hs'.trans (step_restoreEntry opts now s' e).grows

theorem grows_restore (opts : RestoreOptions) (now : Instant) (env : Envelope) (t : Target) :
    Grows t (restore opts now env t).target :=
  grows_foldl opts now env.entries ⟨t, ⟨[], []⟩⟩

theorem mem_of_mem_entries (h : e ∈ env.entries) : match e with
    | .definition kind d => d ∈ env.defs kind
    | .pausedRun r => r ∈ env.pausedRuns
    | _ => True := by
  obtain ⟨sec, -, h⟩ := List.mem_flatMap.mp h
  cases sec <;> cases e <;> simp_all [Envelope.entriesOf]
  exact h.2 ▸ h.1

/-! ## Embeddings -/

/-- The embedding an entry writes. -/
def Entry.embedding (opts : RestoreOptions) (now : Instant) (supportsVectors : Bool) :
    Entry → Option MemoryEmbedding
  | .memory m =>
    if m.address.scope = "" ∨ m.address.key = "" then none
    else carriedEmbedding opts now supportsVectors m
  | _ => none

/-- The last embedding that is written at the address. -/
def lastEmbedding (opts : RestoreOptions) (now : Instant) (supportsVectors : Bool)
    (l : List Entry) (a : Address) : Option MemoryEmbedding :=
  (l.filterMap (Entry.embedding opts now supportsVectors)).reverse.find? fun emb => emb.address = a

variable {supportsVectors : Bool} {a : Address}

theorem lastEmbedding_cons (e : Entry) (l : List Entry) (a : Address) :
    lastEmbedding opts now supportsVectors (e :: l) a =
      (lastEmbedding opts now supportsVectors l a).or
        ((e.embedding opts now supportsVectors).filter fun emb => emb.address = a) := by
  simp only [lastEmbedding, List.filterMap_cons]
  cases e.embedding opts now supportsVectors with
  | none => simp
  | some emb =>
    rw [List.reverse_cons, List.find?_append, List.find?_singleton]
    simp [Option.filter_some]

theorem find_embeddings_step (opts : RestoreOptions) (now : Instant) (s : Restoring) (e : Entry)
    (a : Address) :
    (restoreEntry opts now s e).target.memory.embeddings.find a =
      ((e.embedding opts now s.target.memory.supportsVectors).filter fun emb => emb.address = a).or
        (s.target.memory.embeddings.find a) := by
  by_cases hmem : ∃ m, e = .memory m
  swap
  · rw [(step_restoreEntry opts now s e).memory (not_exists.mp hmem)]
    cases e <;> first | rfl | exact absurd ⟨_, rfl⟩ hmem
  obtain ⟨m, rfl⟩ := hmem
  obtain ⟨x, hx, -, ⟨rfl, hmissing⟩ | ⟨-, hnamed, hemb⟩⟩ := effect_memory opts now s m
  · rw [restoreEntry, hx, Entry.embedding, if_pos hmissing]
    rfl
  · rw [restoreEntry, hx, hemb, Entry.embedding, if_neg hnamed]
    cases carriedEmbedding opts now s.target.memory.supportsVectors m with
    | none => rfl
    | some emb =>
      dsimp only
      rw [Table.find_upsert, Option.filter_some]
      by_cases haddr : emb.address = a
      · simp [haddr]
      · simp [haddr]

theorem find_embeddings_foldl (opts : RestoreOptions) (now : Instant) (l : List Entry)
    (s : Restoring) (a : Address) :
    (l.foldl (restoreEntry opts now) s).target.memory.embeddings.find a =
      (lastEmbedding opts now s.target.memory.supportsVectors l a).or
        (s.target.memory.embeddings.find a) := by
  induction l generalizing s with
  | nil => rfl
  | cons e l ih =>
    rw [List.foldl_cons, ih, (step_restoreEntry opts now s e).grows.supportsVectors,
      find_embeddings_step, lastEmbedding_cons, Option.or_assoc]

theorem find_embeddings_restore (opts : RestoreOptions) (now : Instant) (env : Envelope)
    (t : Target) (a : Address) :
    (restore opts now env t).target.memory.embeddings.find a =
      (lastEmbedding opts now t.memory.supportsVectors env.entries a).or
        (t.memory.embeddings.find a) :=
  find_embeddings_foldl opts now env.entries ⟨t, ⟨[], []⟩⟩ a

/-! ## Transcripts -/

theorem RunSettled.mono (h : RunSettled t sessionID runID events) (hgrows : Grows t t') :
    RunSettled t' sessionID runID events := by
  refine ⟨isSome_of_rows hgrows.sessions h.1, h.2.imp_right fun ⟨hrun, hevents⟩ => ?_⟩
  refine ⟨isSome_of_rows hgrows.runs hrun, hevents.imp_right fun hne => ?_⟩
  exact (hgrows.events.filter _).ne_nil hne

/-- Events of one run leave the transcript of another alone. -/
theorem transcript_append {l : List Event} (h : ∀ ev ∈ l, ev.runID ≠ id) :
    (t.events ++ l).filter (·.runID = id) = t.transcript id := by
  have hnil : l.filter (·.runID = id) = [] := List.filter_eq_nil_iff.mpr (by simpa using h)
  rw [List.filter_append, hnil, List.append_nil, Target.transcript]

/-- A run that is here keeps its transcript unless it has none and a paused run brings one. -/
theorem transcript_step {r : Run} (hr : s.target.runs.find id = some r)
    (hpaused : ∀ p, e = .pausedRun p → p.runID = id → p.runID ≠ "" → p.transcriptEvents ≠ [] →
      s.target.transcript id ≠ []) :
    (restoreEntry opts now s e).target.transcript id = s.target.transcript id := by
  have hstep := step_restoreEntry opts now s e
  cases e with
  | pausedRun p =>
    obtain ⟨⟨x, y, l, hp, -, -, hids, hfresh⟩, -⟩ := effect_pausedRun now s p
    rw [restoreEntry, hp]
    refine transcript_append (t := s.target) fun ev hev heq => ?_
    obtain ⟨hid, hevents, hempty, -⟩ := hfresh (List.ne_nil_of_mem hev)
    have hsame : p.runID = id := (hids ev hev).1.symm.trans heq
    exact hpaused p rfl hsame hid hevents (hsame ▸ hempty)
  | queuedRun q =>
    obtain ⟨⟨x, y, l, hq, -, -, hids, hfree⟩, -⟩ := effect_queuedRun opts now s q
    rw [restoreEntry, hq]
    refine transcript_append (t := s.target) fun ev hev heq => ?_
    have hnone := (hfree (List.ne_nil_of_mem hev)).2.1
    rw [(hids ev hev).1.symm.trans heq, hr] at hnone
    cases hnone
  | _ => rw [Target.transcript, (hstep.runs (by simp) (by simp)).2.2, Target.transcript]

/-! ## What the target held -/

/-- Everything `t` holds is in `t'` as it was: the rows of every table, the embedding of every
memory row, the transcript of every run. -/
structure Kept (t t' : Target) : Prop where
  grows : Grows t t'
  embeddings : ∀ a, (t.memory.memory.find a).isSome →
    t'.memory.embeddings.find a = t.memory.embeddings.find a
  transcripts : ∀ id, (t.runs.find id).isSome → t'.transcript id = t.transcript id

/-- The overlap of envelope and target: the last embedding that comes with a row the target holds
is the one it has, and a paused run the target holds has its transcript if one comes with it. -/
structure Fits (opts : RestoreOptions) (now : Instant) (env : Envelope) (t : Target) : Prop where
  embeddings : ∀ a emb, lastEmbedding opts now t.memory.supportsVectors env.entries a = some emb →
    (t.memory.memory.find a).isSome → t.memory.embeddings.find a = some emb
  transcripts : ∀ p ∈ env.pausedRuns, p.runID ≠ "" → p.transcriptEvents ≠ [] →
    (t.runs.find p.runID).isSome → t.transcript p.runID ≠ []

theorem transcript_restore (hfits : Fits opts now env t) (h : (t.runs.find id).isSome) :
    (restore opts now env t).target.transcript id = t.transcript id := by
  refine (List.foldlRecOn (motive := fun s : Restoring => Grows t s.target ∧
    s.target.transcript id = t.transcript id) env.entries (restoreEntry opts now)
    ⟨.refl t, rfl⟩ fun s ⟨hgrows, hsame⟩ e he => ?_).2
  obtain ⟨r, hr⟩ := Option.isSome_iff_exists.mp (isSome_of_rows hgrows.runs h)
  refine ⟨hgrows.trans (step_restoreEntry opts now s e).grows, (transcript_step hr ?_).trans hsame⟩
  rintro p rfl rfl hid hevents
  rw [hsame]
  exact hfits.transcripts p (mem_of_mem_entries he) hid hevents h

/-- A paused run that comes with events has a transcript afterwards. -/
theorem transcript_ne_nil {p : PausedRunEntry} (hp : p ∈ env.pausedRuns) (hid : p.runID ≠ "")
    (hevents : p.transcriptEvents ≠ []) : (restore opts now env t).target.transcript p.runID ≠ [] := by
  have he : Entry.pausedRun p ∈ env.entries :=
    List.mem_flatMap.mpr ⟨.pausedRuns, by decide, List.mem_map_of_mem hp⟩
  obtain ⟨pre, post, heq⟩ := List.append_of_mem he
  have hsettled := (effect_pausedRun now (pre.foldl (restoreEntry opts now) ⟨t, ⟨[], []⟩⟩) p).2.mono
    (grows_foldl opts now post (restoreEntry opts now _ (.pausedRun p)))
  rw [restore, heq, List.foldl_append, List.foldl_cons]
  exact (hsettled.2.resolve_left hid).2.resolve_left hevents

theorem kept_restore_iff (opts : RestoreOptions) (now : Instant) (env : Envelope) (t : Target) :
    Kept t (restore opts now env t).target ↔ Fits opts now env t := by
  constructor
  · rintro ⟨-, hembeddings, htranscripts⟩
    refine ⟨fun a emb hemb hrow => ?_, fun p hp hid hevents hrun => ?_⟩
    · have hkept := hembeddings a hrow
      rw [find_embeddings_restore, hemb] at hkept
      exact hkept.symm
    · exact htranscripts p.runID hrun ▸ transcript_ne_nil hp hid hevents
  · intro hfits
    refine ⟨grows_restore opts now env t, fun a hrow => ?_, fun id hrun => transcript_restore hfits hrun⟩
    rw [find_embeddings_restore]
    cases hemb : lastEmbedding opts now t.memory.supportsVectors env.entries a with
    | none => rfl
    | some emb => exact (hfits.embeddings a emb hemb hrow).symm

end Loomcycle.Snapshot
