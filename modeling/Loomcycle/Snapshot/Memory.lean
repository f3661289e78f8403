import Loomcycle.Snapshot.Envelope

/-! Capture and restore of the memory section. -/

namespace Loomcycle.Snapshot

open Store

/-! ## Capture -/

def captureEmbedding (w : Wire) (s : MemoryStore) (a : Address) : Option MemoryEmbeddingSnapshot :=
  if s.supportsVectors then
    (s.embeddings.find a).map fun emb =>
      { provider := emb.provider, model := emb.model, dimension := emb.dimension
        vector := w.encodeFloat32LEBase64 emb.vector, embedText := emb.embedText
        createdAt := some emb.createdAt }
  else none

/-- One entry of the section as it stands in the exported envelope. -/
def captureEntry (w : Wire) (s : MemoryStore) (r : MemoryRow) : Option MemoryEntry := do
  let value ← w.rewrite r.value
  return { address := r.address, value, expiresAt := r.expiresAt, createdAt := some r.createdAt
           updatedAt := some r.updatedAt, observedAt := r.observedAt, validAt := r.validAt
           invalidAt := r.invalidAt, embedding := captureEmbedding w s r.address }

/-- The memory section of a capture at `now`; `none` when a value is not JSON. -/
def captureMemory (w : Wire) (now : Instant) (s : MemoryStore) : Option (List MemoryEntry) :=
  (snapshotReadMemory s.memory now).mapM (captureEntry w s)

/-! ## Restore -/

def restoreDocumentChunkPrefix : String := "doc.chunk:"
def restoreDocumentUnitPrefix : String := "doc.unit:"

/-- The tenant's name in a SQL Memory scope. -/
def scopeTenant (tenant : String) : String := if tenant ≠ "" then tenant else "default"

def hasDocumentKey (key : String) : Bool :=
  restoreDocumentChunkPrefix.toList.isPrefixOf key.toList ||
    restoreDocumentUnitPrefix.toList.isPrefixOf key.toList

/-- The scope id a captured memory row restores at. -/
def restoredMemoryScopeID (a : Address) : String :=
  if a.scope ≠ memoryScopeTenant ∨ a.scopeID = "" ∨ a.scopeID ≠ scopeTenant a.tenantID then
    a.scopeID
  else if ¬ hasDocumentKey a.key then a.scopeID
  else ""

def restoredAddress (a : Address) : Address := { a with scopeID := restoredMemoryScopeID a }

/-- The row an entry is inserted as; a zero time takes the clock's. -/
def restoredRow (now : Instant) (e : MemoryEntry) : MemoryRow where
  address := restoredAddress e.address
  value := e.value
  expiresAt := e.expiresAt
  createdAt := e.createdAt.getD now
  updatedAt := e.updatedAt.getD (e.createdAt.getD now)
  observedAt := e.observedAt
  validAt := e.validAt
  invalidAt := e.invalidAt
  supersededAt := none
  accessCount := 0
  lastAccessedAt := none

def restoredEmbedding (now : Instant) (a : Address) (emb : MemoryEmbeddingSnapshot)
    (vector : List UInt32) : MemoryEmbedding where
  address := restoredAddress a
  provider := emb.provider
  model := emb.model
  dimension := emb.dimension
  vector := vector
  embedText := emb.embedText
  createdAt := emb.createdAt.getD now

/-- Writes the entry's embedding, whether or not the entry's row was inserted. -/
def restoreMemoryEmbedding (opts : RestoreOptions) (now : Instant) (s : Restoring)
    (e : MemoryEntry) : Restoring :=
  match e.embedding with
  | none => s
  | some emb =>
    if ¬ s.target.memory.supportsVectors then
      s.warn "embedding dropped (target backend has no vector support)"
    else
      match opts.wire.decodeFloat32LEBase64 emb.vector with
      | none => s.warn "embedding: the vector does not decode"
      | some vector =>
        if (vector.length : Int) ≠ emb.dimension then
          s.warn "embedding: decoded floats differ from the expected dimension"
        else
          match memoryEmbedSet s.target.memory (restoredEmbedding now e.address emb vector) with
          | .error message => s.warn ("embedding write: " ++ message)
          | .ok memory => { s with target := { s.target with memory } }

def restoreMemory (opts : RestoreOptions) (now : Instant) (s : Restoring) (e : MemoryEntry) :
    Restoring :=
  match snapshotRestoreMemory s.target.memory (restoredRow now e) with
  | .error message => s.warn message
  | .ok (memory, inserted) =>
    restoreMemoryEmbedding opts now
      ({ s with target := { s.target with memory } }.count (if inserted then [.memory] else [])) e

end Loomcycle.Snapshot
