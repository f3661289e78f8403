import Mathlib.Data.List.Infix
import Loomcycle.Lib.Partial
import Loomcycle.Snapshot.RestoreSteps

/-! Memory through a capture and a restore onto a target that has none: what the target's gets
and listings answer is what the source's answer, its older tenant document rows re-keyed. -/

namespace Loomcycle.Snapshot

open Lib Store

variable {opts : RestoreOptions} {now : Instant} {env : Envelope} {w : Wire} {src : MemoryStore}
  {a b : Address}

/-! ## The source with its older document rows re-keyed -/

/-- The row is not past its time by the test of the capture and the listings. -/
def live (now : Instant) (r : MemoryRow) : Bool := r.expiresAt.all (now < ·)

/-- The older address of a tenant document row. -/
def former (a : Address) : Option Address :=
  if a.scope = memoryScopeTenant ∧ a.scopeID = "" ∧ hasDocumentKey a.key then
    some { a with scopeID := scopeTenant a.tenantID }
  else none

def moveTo (a : Address) (r : MemoryRow) : MemoryRow := { r with address := a }

/-- What the table holds once its older document rows are at their new addresses: the rows not
past their time, those that stay first, and then the others where that leaves room. -/
def rekeyed (now : Instant) (t : MemoryTable) : MemoryTable :=
  let rows := t.rows.filter (live now)
  let stay := rows.filter fun r => restoredAddress r.address = r.address
  let old := rows.filter fun r => restoredAddress r.address ≠ r.address
  (stay ++ old.map fun r => moveTo (restoredAddress r.address) r).foldl Table.insertOrIgnore .empty

theorem scopeTenant_ne (tenant : String) : scopeTenant tenant ≠ "" := by
  rw [scopeTenant]
  split
  · assumption
  · decide

theorem restoredAddress_former (h : former a = some b) : restoredAddress b = a := by
  obtain ⟨tenantID, scope, scopeID, key⟩ := a
  rw [former] at h
  split at h
  · next hold =>
    obtain ⟨rfl, rfl, hkey⟩ := hold
    cases h
    simp [restoredAddress, restoredMemoryScopeID, scopeTenant_ne, hkey]
  · cases h

/-- The rows that restore at an address: its own, if that stays, and the one at its older
address. -/
theorem of_restoredAddress (h : restoredAddress b = a) :
    (b = a ∧ restoredAddress a = a) ∨ former a = some b := by
  by_cases hstay : restoredAddress b = b
  · obtain rfl := hstay.symm.trans h
    exact .inl ⟨rfl, hstay⟩
  rw [restoredAddress, restoredMemoryScopeID] at h hstay
  split at hstay
  · exact absurd rfl hstay
  split at hstay
  · exact absurd rfl hstay
  · next hold hkey =>
    obtain ⟨tenantID, scope, scopeID, key⟩ := b
    simp only [not_or, not_not] at hold hkey
    obtain ⟨rfl, -, rfl⟩ := hold
    subst h
    exact .inr (by simp [former, hkey])

theorem former_scope (h : former a = some b) :
    b.scope = a.scope ∧ a.scopeID < b.scopeID := by
  rw [former] at h
  split at h
  · next hold =>
    cases h
    refine ⟨rfl, ?_⟩
    rw [hold.2.1, String.lt_iff_toList_lt]
    have hne : (scopeTenant a.tenantID).toList ≠ [] := by simpa using scopeTenant_ne a.tenantID
    obtain ⟨c, l, hl⟩ := List.exists_cons_of_ne_nil hne
    rw [hl]
    exact List.Lex.nil
  · cases h

theorem former_ne (h : former a = some b) : restoredAddress b ≠ b := by
  intro heq
  have hba := heq.symm.trans (restoredAddress_former h)
  exact absurd (former_scope h).2 (hba ▸ lt_irrefl _)

theorem former_stays (h : former a = some b) : restoredAddress a = a := by
  rw [former] at h
  split at h
  · next hold => rw [restoredAddress, restoredMemoryScopeID, if_pos (.inr (.inl hold.2.1))]
  · cases h

/-! ## What is found at an address -/

/-- The row at an address, if it is not past its time. -/
def liveAt (t : MemoryTable) (now : Instant) (a : Address) : Option MemoryRow :=
  (t.find a).filter (live now)

variable {t : MemoryTable} {r : MemoryRow}

theorem liveAt_eq_some : liveAt t now a = some r ↔ r ∈ t.rows ∧ live now r ∧ r.address = a := by
  rw [liveAt, Option.filter_eq_some_iff, Table.find_eq_some]
  tauto

/-- The row that will read at an address. -/
def rowFor (t : MemoryTable) (now : Instant) (a : Address) : Option MemoryRow :=
  (if restoredAddress a = a then liveAt t now a else none).or ((former a).bind (liveAt t now))

theorem mem_snapshotReadMemory : r ∈ snapshotReadMemory t now ↔ r ∈ t.rows ∧ live now r := by
  rw [snapshotReadMemory, List.mem_insertionSort, List.mem_filter, live]

theorem mem_of_rowFor (h : rowFor t now a = some r) :
    r ∈ t.rows ∧ live now r ∧ restoredAddress r.address = a := by
  rw [rowFor, Option.or_eq_some_iff] at h
  obtain h | ⟨-, h⟩ := h
  · split at h
    · next hstay =>
      obtain ⟨hmem, hlive, rfl⟩ := liveAt_eq_some.mp h
      exact ⟨hmem, hlive, hstay⟩
    · cases h
  · obtain ⟨b, hformer, hb⟩ := Option.bind_eq_some_iff.mp h
    obtain ⟨hmem, hlive, rfl⟩ := liveAt_eq_some.mp hb
    exact ⟨hmem, hlive, restoredAddress_former hformer⟩

/-- A list of the rows not past their time in which a row at an older address comes after the
one at the address it restores at: the first to restore at an address is the one that will
read there. -/
theorem find_eq_rowFor {rows : List MemoryRow} (hmem : ∀ r, r ∈ rows ↔ r ∈ t.rows ∧ live now r)
    (hord : rows.Pairwise fun r r' => former r'.address ≠ some r.address) (a : Address) :
    rows.find? (fun r => restoredAddress r.address = a) = rowFor t now a := by
  cases hfind : rows.find? (fun r => restoredAddress r.address = a) with
  | none =>
    cases hrow : rowFor t now a with
    | none => rfl
    | some r =>
      obtain ⟨hr, hlive, hp⟩ := mem_of_rowFor hrow
      exact absurd (decide_eq_true hp) (List.find?_eq_none.mp hfind r ((hmem r).mpr ⟨hr, hlive⟩))
  | some r =>
    obtain ⟨hp, before, after, rfl, hbefore⟩ := List.find?_eq_some_iff_append.mp hfind
    obtain ⟨hr, hlive⟩ := (hmem r).mp (List.mem_append_right _ List.mem_cons_self)
    obtain ⟨haddr, hstay⟩ | hformer := of_restoredAddress (of_decide_eq_true hp)
    · rw [rowFor, if_pos hstay, liveAt_eq_some.mpr ⟨hr, hlive, haddr⟩, Option.some_or]
    · rw [rowFor, if_pos (former_stays hformer), hformer, Option.bind_some,
        liveAt_eq_some.mpr ⟨hr, hlive, rfl⟩]
      cases hown : liveAt t now a with
      | none => rfl
      | some r' =>
        -- a row that stays at the address would have been found before this one
        obtain ⟨hr', hlive', rfl⟩ := liveAt_eq_some.mp hown
        obtain hmem' | hmem' := List.mem_append.mp ((hmem r').mpr ⟨hr', hlive'⟩)
        · exact absurd (decide_eq_true (former_stays hformer)) (by simpa using hbefore r' hmem')
        obtain rfl | hmem' := List.mem_cons.mp hmem'
        · rfl
        · have hlater := (List.pairwise_cons.mp (List.pairwise_append.mp hord).2.1).1 r' hmem'
          exact absurd hformer hlater

/-- Of two rows that restore at one address, the capture lists the one that stays first. -/
theorem find_snapshotReadMemory (t : MemoryTable) (now : Instant) (a : Address) :
    (snapshotReadMemory t now).find? (fun r => restoredAddress r.address = a) = rowFor t now a := by
  refine find_eq_rowFor (fun _ => mem_snapshotReadMemory)
    ((List.pairwise_insertionSort _ _).imp fun hle hformer => ?_) a
  -- the older address sorts after the empty scope id
  obtain ⟨hscope, hid⟩ := former_scope hformer
  exact absurd (Prod.Lex.toLex_lt_toLex.mpr (.inr ⟨hscope.symm,
    Prod.Lex.toLex_lt_toLex.mpr (.inl hid)⟩)) (not_lt.mpr hle)

/-- Rows put at the addresses they restore at. -/
theorem find_moved {rows : List MemoryRow} {row : Option MemoryRow}
    (hrows : rows.find? (fun r => restoredAddress r.address = a) = row)
    (f : MemoryRow → MemoryRow) :
    ((rows.map fun r => moveTo (restoredAddress r.address) (f r)).foldl Table.insertOrIgnore
      (.empty : MemoryTable)).find a = row.map fun r => moveTo a (f r) := by
  have hcomp : (fun r : MemoryRow => decide (r.address = a)) ∘
      (fun r => moveTo (restoredAddress r.address) (f r)) =
      fun r => decide (restoredAddress r.address = a) := rfl
  have hempty : (Table.empty : MemoryTable).find a = none := rfl
  rw [Table.find_foldl_insertOrIgnore, hempty, Option.none_or, List.find?_map, hcomp, hrows]
  refine Option.map_congr fun r hr => ?_
  have haddr := List.find?_some (hrows.trans hr)
  rw [of_decide_eq_true haddr]

/-- The re-keyed table answers with the row that will read there. -/
theorem find_rekeyed (t : MemoryTable) (now : Instant) (a : Address) :
    (rekeyed now t).find a = (rowFor t now a).map (moveTo a) := by
  let stays (r : MemoryRow) : Bool := restoredAddress r.address = r.address
  let stay := (t.rows.filter (live now)).filter stays
  let old := (t.rows.filter (live now)).filter fun r => !stays r
  have hof {r : MemoryRow} (hr : r ∈ stay) : restoredAddress r.address = r.address := by
    simpa [stays] using List.of_mem_filter hr
  have hrekeyed : rekeyed now t = ((stay ++ old).map fun r =>
      moveTo (restoredAddress r.address) r).foldl Table.insertOrIgnore .empty := by
    have hstay : stay.map (fun r => moveTo (restoredAddress r.address) r) = stay :=
      (List.map_congr_left fun r hr => by rw [hof hr]; rfl).trans (List.map_id _)
    rw [List.map_append, hstay]
    simp only [rekeyed, stay, old, stays, ne_eq, decide_not]
  have hrows : (stay ++ old).find? (fun r => restoredAddress r.address = a) = rowFor t now a := by
    have hfirst {r r' : MemoryRow} (hr : r ∈ stay) : former r'.address ≠ some r.address :=
      fun h => former_ne h (hof hr)
    refine find_eq_rowFor (fun r => (List.filter_append_perm stays _).mem_iff.trans
      List.mem_filter) (List.pairwise_append.mpr ⟨?_, ?_, fun r hr r' _ => hfirst hr⟩) a
    · exact List.pairwise_of_forall_mem_list fun r hr r' _ => hfirst hr
    · refine List.pairwise_of_forall_mem_list fun r _ r' hr' h => ?_
      simpa [stays, former_stays h] using List.of_mem_filter hr'
  rw [hrekeyed]
  exact find_moved hrows id

/-! ## The target -/

/-- A row as it comes back: the value's text as the envelope has it, and no columns the envelope
does not carry. -/
def carried (w : Wire) (r : MemoryRow) : MemoryRow :=
  { r with
    value := (w.rewrite r.value).getD r.value
    supersededAt := none, accessCount := 0, lastAccessedAt := none }

theorem restoredRow_captureEntry {m : MemoryEntry} (now : Instant)
    (h : captureEntry w src r = some m) : m.address = r.address ∧
      restoredRow now m = moveTo (restoredAddress r.address) (carried w r) := by
  rw [captureEntry, Option.bind_eq_bind, Option.bind_eq_some_iff] at h
  obtain ⟨value, hvalue, h⟩ := h
  cases h
  exact ⟨rfl, by simp [restoredRow, moveTo, carried, hvalue]⟩

/-- A restore takes no row without a scope or a key. -/
def named (a : Address) : Bool := a.scope ≠ "" ∧ a.key ≠ ""

/-- The row an entry of any section inserts into `memory`. -/
def Entry.memoryRow (now : Instant) : Entry → Option MemoryRow
  | .memory m => if named m.address then some (restoredRow now m) else none
  | _ => none

theorem memory_restoreEntry (opts : RestoreOptions) (now : Instant) (s : Restoring) (e : Entry) :
    (restoreEntry opts now s e).target.memory.memory =
      (e.memoryRow now).elim s.target.memory.memory s.target.memory.memory.insertOrIgnore := by
  cases e with
  | memory m =>
    by_cases hnamed : named m.address
    · obtain ⟨x, hx, -, ⟨-, hwhy⟩ | ⟨hrows, -⟩⟩ := effect_memory opts now s m
      · exact absurd hwhy (not_or.mpr (of_decide_eq_true hnamed))
      · rw [Entry.memoryRow, if_pos hnamed, restoreEntry, hx]
        exact hrows
    · have hrefused : (restoredRow now m).address.scope = "" ∨
          (restoredRow now m).address.key = "" := by
        simpa [named, -not_and, not_and_or, restoredRow, restoredAddress] using hnamed
      rw [Entry.memoryRow, if_neg hnamed, restoreEntry, restoreMemory, snapshotRestoreMemory,
        if_pos hrefused]
      rfl
  | _ =>
    rw [(step_restoreEntry opts now s _).memory (by simp)]
    rfl

theorem memory_foldl_restoreEntry (opts : RestoreOptions) (now : Instant) (l : List Entry)
    (s : Restoring) :
    (l.foldl (restoreEntry opts now) s).target.memory.memory =
      (l.filterMap (Entry.memoryRow now)).foldl Table.insertOrIgnore s.target.memory.memory := by
  induction l generalizing s with
  | nil => rfl
  | cons e l ih =>
    rw [List.foldl_cons, ih, memory_restoreEntry]
    cases hrow : e.memoryRow now with
    | none => rw [List.filterMap_cons_none hrow, Option.elim_none]
    | some r => rw [List.filterMap_cons_some hrow, List.foldl_cons, Option.elim_some]

/-- Only the memory section writes `memory`. -/
theorem filterMap_memoryRow_entries (now : Instant) (env : Envelope) :
    env.entries.filterMap (Entry.memoryRow now) =
      env.memory.filterMap fun m => (Entry.memory m).memoryRow now := by
  have hsection (sec : Section) : (env.entriesOf sec).filterMap (Entry.memoryRow now) =
      if sec = .memory then env.memory.filterMap fun m => (Entry.memory m).memoryRow now
      else [] := by
    cases sec with
    | memory => exact List.filterMap_map
    | _ =>
      rw [Envelope.entriesOf, List.filterMap_map]
      exact List.filterMap_eq_nil_iff.mpr fun _ _ => rfl
  rw [Envelope.entries, List.filterMap_flatMap]
  simp only [hsection]
  simp [sections]

/-! ## What the target reads -/

/-- What the source answers for an address: for its own row, or for the one at its older address. -/
def readAt (t : MemoryTable) (now : Instant) (a : Address) : Option (Store.MemoryEntry String) :=
  (if restoredAddress a = a then memoryGet t now a else none).or ((former a).bind (memoryGet t now))

/-- A source whose memory comes back. Of the rows that will read, those with a scope and a key are
not superseded and the others are; and no get answers with a row whose time is exactly now. -/
structure Portable (now : Instant) (t : MemoryTable) : Prop where
  standing : ∀ a r, rowFor t now a = some r → (r.supersededAt = none ↔ named a)
  expiry : ∀ a e, readAt t now a = some e → e.expiresAt ≠ some now

/-- The captured rows that the restore takes. -/
theorem filterMap_memoryRow_captured {l : List MemoryEntry}
    (h : captureMemory w now src = some l) :
    (l.filterMap fun m => (Entry.memory m).memoryRow now) =
      ((snapshotReadMemory src.memory now).filter fun r => named r.address).map fun r =>
        moveTo (restoredAddress r.address) (carried w r) := by
  have hall := Partial.forall₂_of_mapM h
  clear h
  generalize snapshotReadMemory src.memory now = rows at hall ⊢
  induction hall with
  | nil => rfl
  | @cons r m rows l hentry _ ih =>
    obtain ⟨haddr, hrow⟩ := restoredRow_captureEntry now hentry
    by_cases hnamed : named r.address
    · have htaken : (Entry.memory m).memoryRow now =
          some (moveTo (restoredAddress r.address) (carried w r)) := by
        rw [Entry.memoryRow, haddr, if_pos hnamed, hrow]
      rw [List.filterMap_cons, htaken, List.filter_cons, if_pos hnamed, List.map_cons, ih]
    · have hrefused : (Entry.memory m).memoryRow now = none := by
        rw [Entry.memoryRow, haddr, if_neg hnamed]
      rw [List.filterMap_cons, hrefused, List.filter_cons, if_neg hnamed, ih]

theorem mem_rekeyed {v : MemoryRow} (h : v ∈ (rekeyed now t).rows) :
    ∃ r, rowFor t now v.address = some r ∧ v = moveTo v.address r := by
  have hfind := Table.find_eq_some.mpr ⟨h, rfl⟩
  rw [find_rekeyed, Option.map_eq_some_iff] at hfind
  obtain ⟨r, hr, hv⟩ := hfind
  exact ⟨r, hr, hv.symm⟩

/-- What the target finds at an address: the row that will read there, if it was taken. -/
theorem find_restored {target : Target} (hcapture : captureMemory w now src = some env.memory)
    (hempty : target.memory.memory = Table.empty) (a : Address) :
    (restore opts now env target).target.memory.memory.find a =
      ((rowFor src.memory now a).filter fun _ => named a).map fun r => moveTo a (carried w r) := by
  have hrows : ((snapshotReadMemory src.memory now).filter fun r =>
      named r.address).find? (fun r => restoredAddress r.address = a) =
      (rowFor src.memory now a).filter fun _ => named a := by
    have hsame : ∀ r : MemoryRow, (named r.address = true ∧
        decide (restoredAddress r.address = a) = true) ↔
          named a = true ∧ restoredAddress r.address = a := by
      intro r
      rw [decide_eq_true_eq]
      refine and_congr_left fun haddr => ?_
      rw [← haddr]
      rfl
    rw [List.find?_filter, ← find_snapshotReadMemory]
    simp only [hsame]
    cases named a with
    | true =>
      simp only [true_and]
      cases (snapshotReadMemory src.memory now).find? fun r => restoredAddress r.address = a <;> rfl
    | false => simp
  rw [restore, memory_foldl_restoreEntry, filterMap_memoryRow_entries,
    filterMap_memoryRow_captured hcapture, hempty, find_moved hrows]

/-! ### Gets -/

theorem memoryGet_eq_some {e : Store.MemoryEntry String} : memoryGet t now a = some e ↔
    ∃ r, t.find a = some r ∧ r.supersededAt = none ∧ (live now r ∨ r.expiresAt = some now) ∧
      r.got = e := by
  have hpast (r : MemoryRow) : ¬ r.expiresAt.any (· < now) ↔ live now r ∨ r.expiresAt = some now := by
    rw [live]
    cases r.expiresAt with
    | none => simp
    | some at' => simp [le_iff_lt_or_eq, eq_comm]
  rw [memoryGet]
  cases t.find a with
  | none => simp
  | some r =>
    dsimp only
    cases hsuperseded : r.supersededAt with
    | some _ => simp [hsuperseded]
    | none =>
      rw [if_neg nofun]
      split
      · next h => simpa [hsuperseded] using fun hr => absurd h ((hpast r).mpr hr)
      · next h => simp [hsuperseded, (hpast r).mp h]

variable {J : Type} {read : String → J} (hread : ∀ v v', w.rewrite v = some v' → read v' = read v)

include hread in
theorem read_carried (r : MemoryRow) :
    read (carried w r).value = read r.value := by
  cases hrewrite : w.rewrite r.value with
  | none => simp [carried, hrewrite]
  | some v => simp [carried, hrewrite, hread _ _ hrewrite]

theorem former_named (h : former a = some b) : named a = true := by
  rw [former] at h
  split at h
  · next hold =>
    have hkey : a.key ≠ "" := by
      intro hempty
      rw [hempty] at hold
      exact absurd hold.2.2 (by decide)
    exact decide_eq_true ⟨hold.1 ▸ by decide, hkey⟩
  · cases h

/-- A get that answers with no row exactly at its time answers with the row not past it. -/
theorem memoryGet_eq (h : ∀ e, memoryGet t now a = some e → e.expiresAt ≠ some now) :
    memoryGet t now a =
      ((liveAt t now a).filter fun r => r.supersededAt.isNone).map MemoryRow.got := by
  refine Option.ext fun e => ?_
  simp only [Option.map_eq_some_iff, Option.filter_eq_some_iff, liveAt, Option.isNone_iff_eq_none]
  constructor
  · intro hget
    obtain ⟨r, hr, hstanding, hlive, rfl⟩ := memoryGet_eq_some.mp hget
    exact ⟨r, ⟨⟨hr, hlive.resolve_right (h _ hget)⟩, hstanding⟩, rfl⟩
  · rintro ⟨r, ⟨⟨hr, hlive⟩, hstanding⟩, rfl⟩
    exact memoryGet_eq_some.mpr ⟨r, hr, hstanding, .inl hlive, rfl⟩

/-- What a source answers for the row that will read at an address. -/
theorem readAt_eq (hportable : Portable now t) (a : Address) :
    readAt t now a =
      ((rowFor t now a).filter fun r => r.supersededAt.isNone).map MemoryRow.got := by
  have hexpiry := hportable.expiry a
  cases hformer : former a with
  | none =>
    rw [readAt, hformer, Option.bind_none, Option.or_none] at hexpiry ⊢
    rw [rowFor, hformer, Option.bind_none, Option.or_none]
    split
    · next hstay =>
      rw [if_pos hstay] at hexpiry
      exact memoryGet_eq hexpiry
    · rfl
  | some b =>
    have hstay := former_stays hformer
    have hstanding (r) (hrow : rowFor t now a = some r) : r.supersededAt = none :=
      (hportable.standing a r hrow).mpr (former_named hformer)
    rw [readAt, hformer, Option.bind_some, if_pos hstay] at hexpiry ⊢
    rw [rowFor, hformer, Option.bind_some, if_pos hstay] at hstanding ⊢
    have hown := memoryGet_eq fun e he => hexpiry e (by rw [he, Option.some_or])
    cases hlive : liveAt t now a with
    | some r =>
      -- a row with a former address that will read is not superseded
      have hnone := hstanding r (by rw [hlive, Option.some_or])
      rw [hown, hlive, Option.some_or, Option.filter_some, if_pos (hnone ▸ rfl), Option.map_some,
        Option.some_or]
    | none =>
      rw [hlive, Option.filter_none, Option.map_none] at hown
      rw [hown, Option.none_or, Option.none_or]
      refine memoryGet_eq fun e he => hexpiry e ?_
      rw [hown, Option.none_or, he]

variable {u : MemoryTable} {q : Listing} {p : MemoryRow → Bool}
  (hfind : ∀ a, u.find a =
    ((rowFor t now a).filter fun _ => named a).map fun r => moveTo a (carried w r))

include hread hfind in
theorem memoryGet_restored (hportable : Portable now t) (a : Address) :
    (memoryGet u now a).map (MemoryEntry.map read) =
      (readAt t now a).map (MemoryEntry.map read) := by
  rw [readAt_eq hportable, memoryGet, hfind]
  cases hrow : rowFor t now a with
  | none => rfl
  | some r =>
    obtain ⟨-, hlive, haddr⟩ := mem_of_rowFor hrow
    have hstanding : r.supersededAt.isNone = named a := by
      rw [Bool.eq_iff_iff, Option.isNone_iff_eq_none]
      exact hportable.standing a r hrow
    rw [Option.filter_some, Option.filter_some, hstanding]
    cases named a with
    | false => rfl
    | true =>
      have hpast : ¬ r.expiresAt.any (· < now) := by
        rw [live] at hlive
        cases hexpires : r.expiresAt with
        | none => nofun
        | some e =>
          rw [hexpires] at hlive
          have hlt : now < e := of_decide_eq_true hlive
          simpa using hlt.le
      have hkey : r.address.key = a.key := haddr ▸ rfl
      have hvalue := read_carried hread r
      simp only [Option.map_some, carried, moveTo, Option.isSome_none, Bool.false_eq_true,
        ↓reduceIte, hpast, MemoryEntry.map, MemoryRow.got, MemoryRow.listed, hkey] at hvalue ⊢
      rw [hvalue]

/-! ### Listings -/

/-- The rows a listing takes differ in their keys. -/
theorem eq_of_key (hp : ∀ r, p r → q.takes now r) :
    ∀ r ∈ u.rows.filter p, ∀ r' ∈ u.rows.filter p, r.address.key = r'.address.key → r = r' := by
  intro r hr r' hr' hkey
  obtain ⟨hr, hpr⟩ := List.mem_filter.mp hr
  obtain ⟨hr', hpr'⟩ := List.mem_filter.mp hr'
  have htakes := hp r hpr
  have htakes' := hp r' hpr'
  simp only [Listing.takes, Bool.and_eq_true, decide_eq_true_eq] at htakes htakes'
  obtain ⟨⟨⟨⟨⟨htenant, hscope⟩, hid⟩, -⟩, -⟩, -⟩ := htakes
  obtain ⟨⟨⟨⟨⟨htenant', hscope'⟩, hid'⟩, -⟩, -⟩, -⟩ := htakes'
  have haddr : r.address = r'.address := Address.ext (htenant.trans htenant'.symm)
    (hscope.trans hscope'.symm) (hid.trans hid'.symm) hkey
  have hfind : u.find r.address = some r' := haddr ▸ Table.find_eq_some.mpr ⟨hr', rfl⟩
  exact Option.mem_unique (Table.find_eq_some.mpr ⟨hr, rfl⟩) hfind

theorem standing_of_takes (h : q.takes now r) : r.supersededAt.isNone = true := by
  simp only [Listing.takes, Bool.and_eq_true] at h
  exact h.2

include hfind in
theorem page_restored (hportable : Portable now t) (limit : Nat) (hp : ∀ r, p r → q.takes now r)
    (hcarried : ∀ r, r.supersededAt = none → p (carried w r) = p r) :
    Paging.page (·.address.key) limit (u.rows.filter p) =
      (Paging.page (·.address.key) limit ((rekeyed now t).rows.filter p)).map (carried w) := by
  have hstanding : ∀ r ∈ (rekeyed now t).rows,
      named r.address = r.supersededAt.isNone := by
    intro v hv
    obtain ⟨r, hrow, hmoved⟩ := mem_rekeyed hv
    rw [Bool.eq_iff_iff, Option.isNone_iff_eq_none, ← hportable.standing v.address r hrow, hmoved]
    rfl
  have hrekeyed (a : Address) : u.find a =
      (((rekeyed now t).find a).filter fun r => named r.address).map (carried w) := by
    rw [hfind, find_rekeyed, Option.filter_map, Option.map_map]
    rfl
  have hperm := Table.perm_map_of_find (f := carried w) (fun _ => rfl) hrekeyed
  have hfilter : (((rekeyed now t).rows.filter fun r => named r.address).map
      (carried w)).filter p = ((rekeyed now t).rows.filter p).map (carried w) := by
    rw [List.filter_map, List.filter_filter]
    refine congrArg _ (List.filter_congr fun r hr => ?_)
    rw [hstanding r hr, Function.comp_apply]
    cases hnone : r.supersededAt.isNone with
    | true => rw [hcarried r (Option.isNone_iff_eq_none.mp hnone), Bool.and_true]
    | false =>
      refine (Bool.and_false _).trans (Bool.eq_false_iff.mpr fun hpr => ?_).symm
      rw [standing_of_takes (hp r hpr)] at hnone
      cases hnone
  rw [Paging.page_of_perm (hperm.filter p) (eq_of_key hp), hfilter, Paging.page_map]
  exact fun _ => rfl

/-- No older document row lies in the scope the listing reads. -/
def Listing.Settled (q : Listing) (t : MemoryTable) : Prop :=
  ∀ r ∈ t.rows, r.address.tenantID = q.tenantID → r.address.scope = q.scope →
    restoredAddress r.address = r.address

theorem mem_rekeyed_iff (hq : Listing.Settled q t) (htakes : q.takes now r) :
    r ∈ (rekeyed now t).rows ↔ r ∈ t.rows := by
  have hlive : live now r := by
    simp only [Listing.takes, Bool.and_eq_true] at htakes
    exact htakes.1.2
  have hscope : r.address.tenantID = q.tenantID ∧ r.address.scope = q.scope := by
    simp only [Listing.takes, Bool.and_eq_true, decide_eq_true_eq] at htakes
    exact htakes.1.1.1.1
  constructor
  · intro hr
    obtain ⟨r', hrow, hmoved⟩ := mem_rekeyed hr
    obtain ⟨hmem, -, haddr⟩ := mem_of_rowFor hrow
    have hstay := hq r' hmem ?_ ?_
    · rw [hmoved, ← haddr, hstay]
      exact hmem
    · rw [← hscope.1, ← haddr]
      rfl
    · rw [← hscope.2, ← haddr]
      rfl
  · intro hr
    have hstay := hq r hr hscope.1 hscope.2
    have hrow : rowFor t now r.address = some r := by
      rw [rowFor, if_pos hstay, liveAt_eq_some.mpr ⟨hr, hlive, rfl⟩, Option.some_or]
    have hfind : (rekeyed now t).find r.address = some r := by
      rw [find_rekeyed, hrow]
      rfl
    exact (Table.find_eq_some.mp hfind).1

/-- Where nothing is re-keyed, the re-keyed table lists as the source does. -/
theorem page_rekeyed (hq : Listing.Settled q t) (limit : Nat) (hp : ∀ r, p r → q.takes now r) :
    Paging.page (·.address.key) limit ((rekeyed now t).rows.filter p) =
      Paging.page (·.address.key) limit (t.rows.filter p) := by
  refine Paging.page_of_perm ((List.perm_ext_iff_of_nodup ?_ ?_).mpr fun r => ?_) (eq_of_key hp)
  · exact ((rekeyed now t).nodup.of_map _).filter _
  · exact (t.nodup.of_map _).filter _
  · rw [List.mem_filter, List.mem_filter]
    exact and_congr_left fun hpr => mem_rekeyed_iff hq (hp r hpr)

theorem takes_carried (h : r.supersededAt = none) : q.takes now (carried w r) = q.takes now r := by
  rw [Listing.takes, Listing.takes, h]
  rfl

/-- What a listing answers, without the retrieval counters. -/
def uncounted {ν : Type} (e : Store.MemoryEntry ν) : Store.MemoryEntry ν :=
  { e with accessCount := 0, lastAccessedAt := none }

/-- The entries of a listing, each looked at with `f`. -/
def listing {X : Type} (f : Store.MemoryEntry String → X)
    (out : List (Store.MemoryEntry String) × Bool) : List X × Bool :=
  (out.1.map f, out.2)

variable {X : Type} {f : Store.MemoryEntry String → X}

include hfind in
theorem memoryList_restored (hportable : Portable now t)
    (hf : ∀ r ∈ (rekeyed now t).rows, r.supersededAt = none →
      f (carried w r).listed = f r.listed) (q : Listing) (limit : Int) :
    listing f (memoryList u now q limit) =
      listing f (memoryList (rekeyed now t) now q limit) := by
  have hpage (n : Nat) := page_restored (p := q.takes now) hfind hportable n (fun _ h => h)
    fun _ hr => takes_carried hr
  have hlook (n : Nat) : ((Paging.page (·.address.key) n (u.rows.filter (q.takes now))).map
      MemoryRow.listed).map f = ((Paging.page (·.address.key) n
        ((rekeyed now t).rows.filter (q.takes now))).map MemoryRow.listed).map f := by
    rw [hpage, List.map_map, List.map_map, List.map_map]
    refine List.map_congr_left fun r hr => ?_
    obtain ⟨hmem, htakes⟩ := List.mem_filter.mp (Paging.mem_of_mem_page hr)
    exact hf r hmem (Option.isNone_iff_eq_none.mp (standing_of_takes htakes))
  have hlength (n : Nat) := congrArg List.length (hlook n)
  simp only [List.length_map] at hlength
  simp only [memoryList, List.length_map, hlength]
  generalize (if limit ≤ 0 then 100 else limit.toNat) = n
  split
  · simp only [listing, List.map_take, hlook]
  · simp only [listing, hlook]

include hread hfind in
theorem memoryListAfter_restored (hportable : Portable now t) (q : Listing) (afterKey : String)
    (limit : Int) :
    (memoryListAfter u now q afterKey limit).map (MemoryEntry.map read) =
      (memoryListAfter (rekeyed now t) now q afterKey limit).map (MemoryEntry.map read) := by
  rw [memoryListAfter, memoryListAfter,
    page_restored hfind hportable _ (q := q), List.map_map, List.map_map, List.map_map]
  · refine List.map_congr_left fun r _ => ?_
    have hvalue := read_carried hread r
    simp only [Function.comp_apply, MemoryRow.paged, MemoryEntry.map, hvalue]
    rfl
  · exact fun r h => (Bool.and_eq_true_iff.mp h).1
  · intro r hr
    rw [takes_carried hr]
    rfl

/-! ### What the listings tell -/

/-- The listing of everything in the scope of an address. -/
def scopeOf (a : Address) : Listing := ⟨a.tenantID, a.scope, a.scopeID, ""⟩

theorem takes_scopeOf : (scopeOf a).takes now r ↔ (r.address.tenantID = a.tenantID ∧
    r.address.scope = a.scope ∧ r.address.scopeID = a.scopeID) ∧ live now r ∧
      r.supersededAt.isNone := by
  have hlike : like (likePattern (escapeLikePrefix "" ++ ['%'])) r.address.key.toList = true := by
    simp [escapeLikePrefix, likePattern, like]
  simp only [Listing.takes, Bool.and_eq_true, decide_eq_true_eq]
  simp only [scopeOf, hlike, live, and_true, and_assoc]

/-- A limit past all rows leaves none out. -/
theorem mem_memoryList {n : Nat} (hn : u.rows.length < n) {e : Store.MemoryEntry String} :
    e ∈ (memoryList u now q n).1 ↔ ∃ r ∈ u.rows, q.takes now r ∧ r.listed = e := by
  have hlimit : (if (n : Int) ≤ 0 then 100 else (n : Int).toNat) = n := by
    rw [if_neg (by omega), Int.toNat_natCast]
  have hshort : ¬ n < ((Paging.page (·.address.key) (n + 1)
      (u.rows.filter (q.takes now))).map MemoryRow.listed).length := by
    have hfilter := List.length_filter_le (q.takes now) u.rows
    simp only [Paging.page, List.length_map, List.length_take, List.length_insertionSort]
    omega
  have hall : (Paging.page (·.address.key) (n + 1) (u.rows.filter (q.takes now))).Perm
      (u.rows.filter (q.takes now)) := by
    have hfilter := List.length_filter_le (q.takes now) u.rows
    rw [Paging.page, List.take_of_length_le (by rw [List.length_insertionSort]; omega)]
    exact List.perm_insertionSort _ _
  simp only [memoryList, hlimit, if_neg hshort, List.mem_map, hall.mem_iff, List.mem_filter,
    and_assoc]

/-- Where listings look alike, what one table lists at an address the other lists there too. -/
theorem listed_of_lists {u' : MemoryTable} (hkey : ∀ e e', f e = f e' → e.key = e'.key)
    (h : ∀ q limit, listing f (memoryList u now q limit) = listing f (memoryList u' now q limit))
    (hr : u.find a = some r) (hlive : live now r) (hstanding : r.supersededAt = none) :
    ∃ r', u'.find a = some r' ∧ r'.supersededAt = none ∧ f r'.listed = f r.listed := by
  obtain ⟨hmem, rfl⟩ := Table.find_eq_some.mp hr
  obtain ⟨n, hn, hn'⟩ : ∃ n, u.rows.length < n ∧ u'.rows.length < n :=
    ⟨u.rows.length + u'.rows.length + 1, by omega, by omega⟩
  have hsame : (memoryList u now (scopeOf r.address) n).1.map f =
      (memoryList u' now (scopeOf r.address) n).1.map f :=
    congrArg Prod.fst (h (scopeOf r.address) n)
  have hlisted : r.listed ∈ (memoryList u now (scopeOf r.address) n).1 :=
    (mem_memoryList hn).mpr
      ⟨r, hmem, takes_scopeOf.mpr ⟨⟨rfl, rfl, rfl⟩, hlive, hstanding ▸ rfl⟩, rfl⟩
  have hf := List.mem_map_of_mem (f := f) hlisted
  rw [hsame] at hf
  obtain ⟨e, he, hfe⟩ := List.mem_map.mp hf
  obtain ⟨r', hmem', htakes, rfl⟩ := (mem_memoryList hn').mp he
  obtain ⟨⟨htenant, hscope, hid⟩, -, hstanding'⟩ := takes_scopeOf.mp htakes
  have haddr : r'.address = r.address := Address.ext htenant hscope hid (hkey _ _ hfe)
  exact ⟨r', Table.find_eq_some.mpr ⟨hmem', haddr⟩, Option.isNone_iff_eq_none.mp hstanding', hfe⟩

/-- The target reads as the source: a get answers what the source answers there, or at the older
address of a tenant document row, and a listing, looked at with `f`, as on the re-keyed source. -/
structure ReadsAs (read : String → J) (f : Store.MemoryEntry String → X) (now : Instant)
    (t u : MemoryTable) : Prop where
  gets : ∀ a, (memoryGet u now a).map (MemoryEntry.map read) =
    (readAt t now a).map (MemoryEntry.map read)
  lists : ∀ q limit, listing f (memoryList u now q limit) =
    listing f (memoryList (rekeyed now t) now q limit)
  pages : ∀ q afterKey limit, (memoryListAfter u now q afterKey limit).map (MemoryEntry.map read) =
    (memoryListAfter (rekeyed now t) now q afterKey limit).map (MemoryEntry.map read)

/-- No row that will read was ever retrieved. -/
def Unread (now : Instant) (t : MemoryTable) : Prop :=
  ∀ a r, rowFor t now a = some r → r.supersededAt = none →
    r.accessCount = 0 ∧ r.lastAccessedAt = none

include hfind in
theorem portable_of_reads (hkey : ∀ e e', f e = f e' → e.key = e'.key)
    (h : ReadsAs read f now t u) : Portable now t := by
  refine ⟨fun a r hrow => ?_, fun a e hread hnow => ?_⟩
  · have hlive := (mem_of_rowFor hrow).2.1
    have hmoved : (rekeyed now t).find a = some (moveTo a r) := by rw [find_rekeyed, hrow]; rfl
    have htarget := hfind a
    rw [hrow, Option.filter_some] at htarget
    constructor
    · intro hstanding
      obtain ⟨r', hr', -⟩ :=
        listed_of_lists hkey (fun q limit => (h.lists q limit).symm) hmoved hlive hstanding
      by_contra hnot
      rw [if_neg hnot] at htarget
      cases htarget.symm.trans hr'
    · intro hnamed
      rw [if_pos hnamed] at htarget
      obtain ⟨r', hr', hstanding, -⟩ := listed_of_lists hkey h.lists htarget hlive rfl
      rw [hmoved] at hr'
      rw [← Option.some.inj hr'] at hstanding
      exact hstanding
  · have hget := h.gets a
    rw [hread, Option.map_some] at hget
    obtain ⟨e', he', hsame⟩ := Option.map_eq_some_iff.mp hget
    obtain ⟨r', hr', -, -, rfl⟩ := memoryGet_eq_some.mp he'
    have hexpires : r'.expiresAt = some now :=
      (congrArg Store.MemoryEntry.expiresAt hsame).trans hnow
    -- the capture has left out every row that is past its time now
    rw [hfind, Option.map_eq_some_iff] at hr'
    obtain ⟨r, hr, rfl⟩ := hr'
    have hlive := (mem_of_rowFor (Option.filter_eq_some_iff.mp hr).1).2.1
    have hnot : live now r = decide (now < now) := by
      rw [live, show r.expiresAt = some now from hexpires]
      rfl
    simp [hnot] at hlive

include hfind in
theorem unread_of_reads (h : ReadsAs read (MemoryEntry.map read) now t u) : Unread now t := by
  intro a r hrow hstanding
  have hlive := (mem_of_rowFor hrow).2.1
  have hmoved : (rekeyed now t).find a = some (moveTo a r) := by rw [find_rekeyed, hrow]; rfl
  obtain ⟨r', hr', -, hsame⟩ := listed_of_lists (f := MemoryEntry.map read)
    (fun e e' hee' => by injection hee') (fun q limit => (h.lists q limit).symm) hmoved hlive
    hstanding
  rw [hfind, Option.map_eq_some_iff] at hr'
  obtain ⟨r₀, -, rfl⟩ := hr'
  exact ⟨(congrArg Store.MemoryEntry.accessCount hsame).symm,
    (congrArg Store.MemoryEntry.lastAccessedAt hsame).symm⟩

include hread hfind in
theorem reads_of_portable (hportable : Portable now t)
    (hf : ∀ r ∈ (rekeyed now t).rows, r.supersededAt = none →
      f (carried w r).listed = f r.listed) : ReadsAs read f now t u :=
  ⟨memoryGet_restored hread hfind hportable, memoryList_restored hfind hportable hf,
    memoryListAfter_restored hread hfind hportable⟩

/-- Memory reads on an empty target as it did on the source if and only if the source is
`Portable`, up to the retrieval counters of listings, and with these if and only if no row was
read either. The re-keyed source lists as the source itself wherever no row is re-keyed. -/
theorem memory_round_trip {target : Target}
    (hread : ∀ v v', w.rewrite v = some v' → read v' = read v)
    (hcapture : captureMemory w now src = some env.memory)
    (hempty : target.memory.memory = Table.empty) :
    let u := (restore opts now env target).target.memory.memory
    (ReadsAs read (uncounted ∘ MemoryEntry.map read) now src.memory u ↔
      Portable now src.memory) ∧
    (ReadsAs read (MemoryEntry.map read) now src.memory u ↔
      Portable now src.memory ∧ Unread now src.memory) ∧
    ∀ q, Listing.Settled q src.memory →
      (∀ limit, memoryList (rekeyed now src.memory) now q limit =
        memoryList src.memory now q limit) ∧
      ∀ afterKey limit, memoryListAfter (rekeyed now src.memory) now q afterKey limit =
        memoryListAfter src.memory now q afterKey limit := by
  intro u
  have hfind : ∀ a, u.find a = _ := find_restored hcapture hempty
  refine ⟨⟨fun h => ?_, fun h => ?_⟩, ⟨fun h => ⟨?_, unread_of_reads hfind h⟩, fun h => ?_⟩,
    fun q hq => ⟨fun limit => ?_, fun afterKey limit => ?_⟩⟩
  · exact portable_of_reads hfind (fun e e' hee' => by injection hee') h
  · refine reads_of_portable hread hfind h fun r _ _ => ?_
    have hvalue := read_carried hread r
    simp only [Function.comp_apply, MemoryRow.listed, MemoryEntry.map, hvalue]
    rfl
  · exact portable_of_reads hfind (fun e e' hee' => by injection hee') h
  · refine reads_of_portable hread hfind h.1 fun r hr hstanding => ?_
    obtain ⟨r', hrow, hmoved⟩ := mem_rekeyed hr
    rw [hmoved] at hstanding
    obtain ⟨hcount, hlast⟩ := h.2 r.address r' hrow hstanding
    have hvalue := read_carried hread r
    simp only [MemoryRow.listed, MemoryEntry.map, hvalue]
    rw [hmoved, moveTo, hcount, hlast]
    rfl
  · rw [memoryList, memoryList, page_rekeyed hq _ fun _ h => h]
  · rw [memoryListAfter, memoryListAfter, page_rekeyed hq]
    exact fun r h => (Bool.and_eq_true_iff.mp h).1

/-- A wire that leaves texts as they are, and a host that only restores memory. -/
def memoryOptions : RestoreOptions where
  wire := ⟨some, fun _ => "", fun _ => none⟩
  replicaID := ""
  validators _ := none
  volumeValidator := none
  channelValidator := none
  volumeRoot := ""
  staticVolumeNames := []
  provision _ _ := none
  forceCaptureDisabled _ _ := none
  stripQueuedSecrets _ := none

def sampleRow (address : Address) (expiresAt supersededAt : Option Instant) (accessCount : Nat) :
    MemoryRow where
  address := address
  value := "1"
  expiresAt := expiresAt
  createdAt := 1
  updatedAt := 2
  observedAt := some 1
  validAt := none
  invalidAt := none
  supersededAt := supersededAt
  accessCount := accessCount
  lastAccessedAt := none

def sampleSource (rows : List MemoryRow) : MemoryStore := rows.foldl .insert (.empty false)

/-- The envelope of a capture at 5, and the table it is restored to. -/
def sampleCapture (rows : List MemoryRow) : Envelope :=
  { Envelope.empty with memory := (captureMemory memoryOptions.wire 5 (sampleSource rows)).getD [] }

def sampleRestored (rows : List MemoryRow) : MemoryTable :=
  (restore memoryOptions 5 (sampleCapture rows) (.empty false)).target.memory.memory

/-- A note, a note past its time, and a document row at its older address. -/
def sampleRows : List MemoryRow :=
  [sampleRow ⟨"acme", "user", "u1", "note"⟩ (some 9) none 0,
   sampleRow ⟨"acme", "user", "u1", "past"⟩ (some 4) (some 3) 0,
   sampleRow ⟨"acme", "tenant", "acme", "doc.unit:x"⟩ none none 0]

theorem memory_round_trip_document :
    (memoryGet (sampleRestored sampleRows) 5 ⟨"acme", "tenant", "", "doc.unit:x"⟩).map
        (MemoryEntry.map id) =
      (memoryGet (sampleSource sampleRows).memory 5 ⟨"acme", "tenant", "acme", "doc.unit:x"⟩).map
        (MemoryEntry.map id) := by
  have hread : ∀ v v' : String, memoryOptions.wire.rewrite v = some v' → id v' = id v :=
    fun _ _ h => (Option.some.inj h).symm
  have hcapture : captureMemory memoryOptions.wire 5 (sampleSource sampleRows) =
      some (sampleCapture sampleRows).memory := rfl
  have hrows : ∀ r ∈ (sampleSource sampleRows).memory.rows, r.expiresAt ≠ some 5 ∧
      (live 5 r → r.supersededAt = none ∧ named r.address = true) := by decide +kernel
  have hportable : Portable 5 (sampleSource sampleRows).memory := by
    refine ⟨fun a r hrow => ?_, fun a e hread => ?_⟩
    · obtain ⟨hmem, hlive, rfl⟩ := mem_of_rowFor hrow
      obtain ⟨hstanding, hnamed⟩ := (hrows r hmem).2 hlive
      exact iff_of_true hstanding hnamed
    · obtain ⟨b, hget⟩ : ∃ b, memoryGet (sampleSource sampleRows).memory 5 b = some e := by
        obtain h | ⟨-, h⟩ := Option.or_eq_some_iff.mp hread
        · exact ⟨a, (Option.ite_none_right_eq_some.mp h).2⟩
        · exact (Option.bind_eq_some_iff.mp h).imp fun _ hb => hb.2
      obtain ⟨r, hr, -, -, rfl⟩ := memoryGet_eq_some.mp hget
      exact (hrows r (Table.find_eq_some.mp hr).1).1
  exact (((memory_round_trip hread hcapture rfl).1.mpr hportable).gets _).trans (by decide +kernel)

/-- What is superseded on the source reads on the target; what is past its time exactly now is
lost; and the retrieval counters a listing answers with start again. -/
theorem memory_reads_change :
    (let rows := [sampleRow ⟨"acme", "user", "u1", "note"⟩ none (some 3) 0]
     memoryGet (sampleSource rows).memory 5 ⟨"acme", "user", "u1", "note"⟩ = none ∧
       (memoryGet (sampleRestored rows) 5 ⟨"acme", "user", "u1", "note"⟩).isSome ∧
       (memoryList (sampleSource rows).memory 5 ⟨"acme", "user", "u1", ""⟩ 10).1 = [] ∧
       (memoryList (sampleRestored rows) 5 ⟨"acme", "user", "u1", ""⟩ 10).1 ≠ []) ∧
    (let rows := [sampleRow ⟨"acme", "user", "u1", "note"⟩ (some 5) none 0]
     (memoryGet (sampleSource rows).memory 5 ⟨"acme", "user", "u1", "note"⟩).isSome ∧
       memoryGet (sampleRestored rows) 5 ⟨"acme", "user", "u1", "note"⟩ = none) ∧
    (let rows := [sampleRow ⟨"acme", "user", "u1", "note"⟩ none none 7]
     (memoryList (sampleSource rows).memory 5 ⟨"acme", "user", "u1", ""⟩ 10).1.map
         (·.accessCount) = [7] ∧
       (memoryList (sampleRestored rows) 5 ⟨"acme", "user", "u1", ""⟩ 10).1.map
         (·.accessCount) = [0]) := by
  refine ⟨⟨?_, ?_, ?_, ?_⟩, ⟨?_, ?_⟩, ?_, ?_⟩ <;> decide +kernel

end Loomcycle.Snapshot
