import Loomcycle.Lib.Paging
import Loomcycle.Lib.Transition
import Mathlib.Data.Prod.Lex
import Mathlib.Order.MinMax
import Mathlib.Order.WithBot

/-! Delivery on one channel and scope. A message is at the position (visible_at, id), a
subscriber reads the visible messages past its committed cursor in that order and acks the
position of the last one. Each tenant has rows and a cursor of its own; on a global channel a
tenant reads the operator's rows with its own, and starts from the operator's cursor. A write takes
its time stamp before its transaction begins, and its rows appear when the transaction commits;
other writes and reads fall in between. -/

namespace Loomcycle.Channels
open Lib Lib.Transition

/-- `MintChannelMessageID`: the time, and random bits behind it. -/
abbrev MsgID := Nat ×ₗ Nat

/-- A cursor's tuple. -/
abbrev Position := Nat ×ₗ MsgID

structure ChannelMessage where
  id : MsgID
  payload : String
  visibleAt : Nat
  expiresAt : Option Nat
deriving DecidableEq

namespace ChannelMessage

def position (m : ChannelMessage) : Position := toLex (m.visibleAt, m.id)

/-- `expires_at IS NULL OR expires_at > now` -/
def unexpired (m : ChannelMessage) (now : Nat) : Bool :=
  m.expiresAt.all fun t => now < t

end ChannelMessage

/-- 2200-01-01, the instant of a message held for an operator. -/
def channelHeldVisibleAt : Nat := 7258118400000000000

/-- 2200-01-02, the instant of a message that awaits its channel's hooks. -/
def channelHookHeldVisibleAt : Nat := 7258204800000000000

/-- The three writes that make a message deliverable. A `visibleAt` or `dest` of zero is the zero
time; `leased` tells whether the lease given is the message's. -/
inductive WriteOp
  | publish (rand : Nat) (payload : String) (visibleAt : Nat) (expiresAt : Option Nat)
      (maxMessages : Nat)
  | release (count : Nat)
  | releaseHookHeld (id : MsgID) (payload : Option String) (dest : Nat) (leased : Bool)
deriving DecidableEq

/-- A write to a tenant's rows that has taken its time stamp. -/
structure Write where
  tenantID : String
  now : Nat
  op : WriteOp
deriving DecidableEq

/-- The last `n` rows in delivery order. -/
def last (n : Nat) (rows : List ChannelMessage) : List ChannelMessage :=
  Paging.page (fun m => OrderDual.toDual m.position) n rows

/-- The rows a publish keeps: its own and the `maxMessages` last in delivery order. -/
def trim (maxMessages : Nat) (own : MsgID) (rows : List ChannelMessage) : List ChannelMessage :=
  if maxMessages = 0 then rows
  else rows.filter fun m => m.id = own ∨ m.id ∈ (last maxMessages rows).map ChannelMessage.id

/-- How many rows the trim of a publish deletes. -/
def trimmed (maxMessages : Nat) (own : MsgID) (rows : List ChannelMessage) : Nat :=
  if maxMessages = 0 then 0
  else rows.countP fun m => m.id ≠ own ∧ m.id ∉ (last maxMessages rows).map ChannelMessage.id

def channelPublish (now rand : Nat) (payload : String) (visibleAt : Nat) (expiresAt : Option Nat)
    (maxMessages : Nat) (rows : List ChannelMessage) : List ChannelMessage :=
  let msg : ChannelMessage := ⟨toLex (now, rand), payload, max visibleAt now, expiresAt⟩
  trim maxMessages msg.id (msg :: rows)

def releaseCount (count : Nat) : Nat := if count = 0 then 1 else count

/-- The `count` oldest messages held for an operator become deliverable now. -/
def channelRelease (now count : Nat) (rows : List ChannelMessage) : List ChannelMessage :=
  let held := rows.filter fun m => m.visibleAt = channelHeldVisibleAt ∧ m.unexpired now
  let ids := ((held.insertionSort fun a b => a.id ≤ b.id).take (releaseCount count)).map
    ChannelMessage.id
  rows.map fun m =>
    if m.id ∈ ids ∧ m.visibleAt = channelHeldVisibleAt then { m with visibleAt := now } else m

def channelReleaseHookHeld (now : Nat) (id : MsgID) (payload : Option String) (dest : Nat)
    (leased : Bool) (rows : List ChannelMessage) : List ChannelMessage :=
  rows.map fun m =>
    if m.id = id ∧ m.visibleAt = channelHookHeldVisibleAt ∧ m.unexpired now ∧ leased then
      { m with visibleAt := max dest now, payload := payload.getD m.payload }
    else m

/-- What a write does to its tenant's rows when it commits. -/
def Write.apply (w : Write) (rows : List ChannelMessage) : List ChannelMessage :=
  match w.op with
  | .publish rand payload visibleAt expiresAt maxMessages =>
    channelPublish w.now rand payload visibleAt expiresAt maxMessages rows
  | .release count => channelRelease w.now count rows
  | .releaseHookHeld id payload dest leased =>
    channelReleaseHookHeld w.now id payload dest leased rows

/-- A row a write leaves was there before, or is visible from the write's time stamp at the
earliest. -/
theorem Write.mem_apply {w : Write} {rows : List ChannelMessage} {m : ChannelMessage}
    (h : m ∈ w.apply rows) : m ∈ rows ∨ w.now ≤ m.visibleAt := by
  rw [Write.apply] at h
  split at h
  · rw [channelPublish, trim] at h
    have hmem := by
      split at h
      · exact h
      · exact List.mem_of_mem_filter h
    obtain rfl | hold := List.mem_cons.mp hmem
    · exact .inr (Nat.le_max_right ..)
    · exact .inl hold
  · obtain ⟨m', hm', rfl⟩ := List.mem_map.mp h
    split
    · exact .inr (Nat.le_refl _)
    · exact .inl hm'
  · obtain ⟨m', hm', rfl⟩ := List.mem_map.mp h
    split
    · exact .inr (Nat.le_max_right ..)
    · exact .inl hm'

/-- `ChannelOperatorTenant` -/
def channelOperatorTenant : String := ""

/-- The tenants whose rows a subscriber reads. -/
def channelReadTenants (tenantID : String) (isGlobal : Bool) : String × String :=
  if isGlobal then (tenantID, channelOperatorTenant) else (tenantID, tenantID)

def channelCursorFallback (tenantID : String) (isGlobal : Bool) : Bool :=
  isGlobal && tenantID ≠ channelOperatorTenant

/-- A channel and scope with the rows and cursors of its tenants, and one subscriber, of tenant
`tenantID`. `next` is the cursor its last read returned, until it is acked. `passed` is the
furthest position a read of it returned, `returned` all the ids. -/
structure Channel where
  tenantID : String
  isGlobal : Bool
  clock : Nat := 0
  rows : String → List ChannelMessage := fun _ => []
  cursors : String → Option Position := fun _ => none
  writes : List Write := []
  minted : List MsgID := []
  next : Option Position := none
  passed : WithBot Position := ⊥
  returned : List MsgID := []

namespace Channel

inductive Label
  | tick (now : Nat)
  | begin (tenantID : String) (op : WriteOp)
  | commit (k : Nat)
  | rollback (k : Nat)
  | read (limit : Nat)
  | ack
  /-- a subscriber of another tenant acks -/
  | ackOther (tenantID : String) (cursor : Position)
  /-- rows are swept or purged -/
  | delete (ids : List MsgID)
deriving DecidableEq

/-- `tenant_id IN (own, shared)` -/
def Reads (s : Channel) (tenantID : String) : Prop :=
  tenantID = (channelReadTenants s.tenantID s.isGlobal).1 ∨
    tenantID = (channelReadTenants s.tenantID s.isGlobal).2

instance (s : Channel) (tenantID : String) : Decidable (s.Reads tenantID) :=
  inferInstanceAs (Decidable (_ ∨ _))

/-- The subscriber's own cursor, or the operator's on a global channel it has never acked. -/
def committedCursor (s : Channel) : Option Position :=
  (s.cursors s.tenantID).or
    (if channelCursorFallback s.tenantID s.isGlobal then s.cursors channelOperatorTenant else none)

/-- Whether a read from the cursor takes the subscriber's own rows from the start. -/
def ownLayerFromStart (s : Channel) (fromCursor : Position) : Bool :=
  channelCursorFallback s.tenantID s.isGlobal && (s.cursors s.tenantID).isNone &&
    (s.cursors channelOperatorTenant).any (fromCursor ≤ ·) &&
    (ofLex fromCursor).2 ∉ (s.rows s.tenantID).map ChannelMessage.id

/-- The rows of one tenant that a read selects from. -/
def readableOf (s : Channel) (tenantID : String) : List ChannelMessage :=
  (s.rows tenantID).filter fun m => m.visibleAt ≤ s.clock ∧ m.unexpired s.clock ∧
    s.committedCursor.all fun c =>
      (s.ownLayerFromStart c && tenantID = s.tenantID) || c < m.position

def readable (s : Channel) : List ChannelMessage :=
  let (own, shared) := channelReadTenants s.tenantID s.isGlobal
  if shared = own then s.readableOf own else s.readableOf own ++ s.readableOf shared

/-- `channelRead` from the committed cursor. -/
def channelRead (s : Channel) (limit : Nat) : List ChannelMessage :=
  Paging.page ChannelMessage.position (if limit = 0 then 10 else limit) s.readable

/-- `ChannelAck`: a cursor older than the tenant's own is refused. -/
def channelAck (s : Channel) (tenantID : String) (cursor : Position) : Option Channel :=
  if (s.cursors tenantID).any (cursor < ·) then none
  else some { s with cursors := Function.update s.cursors tenantID (some cursor) }

def step (s : Channel) : Label → Option Channel
  | .tick now => if s.clock ≤ now then some { s with clock := now } else none
  | .begin tenantID op =>
    match op with
    | .publish rand _ _ _ _ =>
      if toLex (s.clock, rand) ∈ s.minted then none
      else some { s with
        writes := s.writes ++ [⟨tenantID, s.clock, op⟩]
        minted := toLex (s.clock, rand) :: s.minted }
    | _ => some { s with writes := s.writes ++ [⟨tenantID, s.clock, op⟩] }
  | .commit k =>
    (s.writes[k]?).map fun w => { s with
      rows := Function.update s.rows w.tenantID (w.apply (s.rows w.tenantID))
      writes := s.writes.eraseIdx k }
  | .rollback k =>
    if k < s.writes.length then some { s with writes := s.writes.eraseIdx k } else none
  | .read limit =>
    let batch := s.channelRead limit
    let last := batch.getLast?.map ChannelMessage.position
    some { s with
      next := last
      passed := max s.passed (last.elim ⊥ fun p => (p : WithBot Position))
      returned := s.returned ++ batch.map ChannelMessage.id }
  | .ack =>
    match s.next with
    | none => some s
    | some c => some (((s.channelAck s.tenantID c).map ({ · with next := none })).getD s)
  | .ackOther tenantID cursor => if tenantID = s.tenantID then none else s.channelAck tenantID cursor
  | .delete ids => some { s with rows := fun t => (s.rows t).filter fun m => m.id ∉ ids }

/-- A position that lies before an instant. -/
def Before (p : WithBot Position) (t : Nat) : Prop :=
  p < ((toLex (t, toLex (0, 0)) : Position) : WithBot Position)

/-- No read returns a message that is visible at or after the time stamp of a write under way to
rows the subscriber reads, and such a write takes its time stamp later than the last message read
became visible; and while the subscriber has no cursor of its own, the operator's is not moved
past what the subscriber has read. -/
def Apart (s : Channel) : Label → Prop
  | .read limit =>
    ∀ m ∈ s.channelRead limit, ∀ w ∈ s.writes, s.Reads w.tenantID → m.visibleAt < w.now
  | .begin tenantID _ => s.Reads tenantID → Before s.passed s.clock
  | .ackOther tenantID cursor => tenantID = channelOperatorTenant →
      channelCursorFallback s.tenantID s.isGlobal → s.cursors s.tenantID = none →
      (cursor : WithBot Position) ≤ s.passed
  | _ => True

instance (p : WithBot Position) (t : Nat) : Decidable (Before p t) :=
  inferInstanceAs (Decidable (p < _))

instance (s : Channel) : (a : Label) → Decidable (Apart s a)
  | .read limit => inferInstanceAs (Decidable
      (∀ m ∈ s.channelRead limit, ∀ w ∈ s.writes, s.Reads w.tenantID → m.visibleAt < w.now))
  | .begin tenantID _ => inferInstanceAs (Decidable (s.Reads tenantID → Before s.passed s.clock))
  | .ackOther tenantID cursor => inferInstanceAs (Decidable (tenantID = channelOperatorTenant →
      channelCursorFallback s.tenantID s.isGlobal → s.cursors s.tenantID = none →
      (cursor : WithBot Position) ≤ s.passed))
  | .tick _ | .commit _ | .rollback _ | .ack | .delete _ => .isTrue trivial

variable {s s' : Channel} {a : Label} {m : ChannelMessage}

variable {t : Nat} {tenantID : String}

theorem lt_position {p : WithBot Position} (hp : Before p t) (h : t ≤ m.visibleAt) :
    p < (m.position : WithBot Position) := by
  refine lt_of_lt_of_le hp (WithBot.coe_le_coe.mpr ?_)
  obtain hlt | heq := Nat.lt_or_eq_of_le h
  · exact le_of_lt (Prod.Lex.toLex_lt_toLex.mpr (.inl hlt))
  · refine Prod.Lex.toLex_le_toLex.mpr (.inr ⟨heq, ?_⟩)
    rw [← toLex_ofLex m.id, Prod.Lex.toLex_le_toLex]
    obtain hpos | hzero := Nat.eq_zero_or_pos (ofLex m.id).1 |>.symm
    · exact .inl hpos
    · exact .inr ⟨hzero.symm, Nat.zero_le _⟩

/-- What lies at or before the furthest position read was returned, or has expired; and all
that is still to be written lies behind it. -/
structure Sound (s : Channel) : Prop where
  cursor : ∀ c, s.committedCursor = some c → (c : WithBot Position) ≤ s.passed
  next : ∀ p, s.next = some p → (p : WithBot Position) ≤ s.passed
  writes : ∀ w ∈ s.writes, s.Reads w.tenantID → Before s.passed w.now
  seen : ∀ t, s.Reads t → ∀ m ∈ s.rows t, (m.position : WithBot Position) ≤ s.passed →
    m.id ∈ s.returned ∨ m.unexpired s.clock = false

theorem sound_init (tenantID : String) (isGlobal : Bool) : Sound { tenantID, isGlobal } := by
  refine ⟨fun c hc => ?_, nofun, nofun, nofun⟩
  simp [committedCursor] at hc

theorem unexpired_mono {t' : Nat} (ht : t ≤ t') (h : m.unexpired t = false) :
    m.unexpired t' = false := by
  rw [ChannelMessage.unexpired] at h ⊢
  cases hexp : m.expiresAt with
  | none => rw [hexp] at h; cases h
  | some e =>
    simp only [hexp, Option.all_some, decide_eq_false_iff_not] at h ⊢
    exact fun hlt => h (Nat.lt_of_le_of_lt ht hlt)

theorem sound_commit (hs : Sound s) {w : Write} (hw : w ∈ s.writes) (k : Nat) :
    Sound { s with
      rows := Function.update s.rows w.tenantID (w.apply (s.rows w.tenantID))
      writes := s.writes.eraseIdx k } := by
  refine ⟨hs.cursor, hs.next, fun v hv => hs.writes v (List.mem_of_mem_eraseIdx hv), ?_⟩
  intro t ht m hm hle
  by_cases hown : t = w.tenantID
  · subst hown
    dsimp only at hm
    rw [Function.update_self] at hm
    obtain hold | hnew := Write.mem_apply hm
    · exact hs.seen _ ht m hold hle
    · exact absurd hle (not_le.mpr (lt_position (hs.writes w hw ht) hnew))
  · dsimp only at hm
    rw [Function.update_of_ne hown] at hm
    exact hs.seen t ht m hm hle

/-- A row of any tenant the subscriber reads is selected if it is past the cursor. -/
theorem mem_readable (ht : s.Reads tenantID) (hm : m ∈ s.rows tenantID)
    (hvisible : m.visibleAt ≤ s.clock) (hexp : m.unexpired s.clock = true)
    (hpast : ∀ c, s.committedCursor = some c → c < m.position) : m ∈ s.readable := by
  have hof : m ∈ s.readableOf tenantID := by
    refine List.mem_filter.mpr ⟨hm, decide_eq_true ⟨hvisible, hexp, ?_⟩⟩
    rw [Option.all_eq_true]
    intro c hc
    rw [decide_eq_true (hpast c hc), Bool.or_true]
  rw [readable]
  dsimp only
  obtain rfl | rfl := ht
  · split
    · exact hof
    · exact List.mem_append_left _ hof
  · split
    · next h => rwa [h] at hof
    · exact List.mem_append_right _ hof

theorem visible_of_mem_readable (h : m ∈ s.readable) : m.visibleAt ≤ s.clock := by
  have hof {t : String} (h : m ∈ s.readableOf t) : m.visibleAt ≤ s.clock :=
    (of_decide_eq_true (List.mem_filter.mp h).2).1
  rw [readable] at h
  dsimp only at h
  split at h
  · exact hof h
  · exact (List.mem_append.mp h).elim hof hof

/-- A row at or before the last position of a batch was returned by now, or has expired. -/
theorem seen_read (hs : Sound s) {limit : Nat} {last : ChannelMessage}
    (hlast : (s.channelRead limit).getLast? = some last) (ht : s.Reads tenantID)
    (hm : m ∈ s.rows tenantID) (hle : m.position ≤ last.position) :
    m.id ∈ s.returned ++ (s.channelRead limit).map ChannelMessage.id ∨
      m.unexpired s.clock = false := by
  have hmem := List.mem_of_getLast? hlast
  have hvisible : last.visibleAt ≤ s.clock := visible_of_mem_readable (Paging.mem_of_mem_page hmem)
  cases hexp : m.unexpired s.clock with
  | false => exact .inr rfl
  | true =>
    refine .inl ?_
    by_cases hcursor : ∃ c, s.committedCursor = some c ∧ m.position ≤ c
    · obtain ⟨c, hc, hmc⟩ := hcursor
      have hseen := hs.seen _ ht m hm ((WithBot.coe_le_coe.mpr hmc).trans (hs.cursor c hc))
      rw [hexp] at hseen
      exact List.mem_append_left _ (hseen.resolve_right nofun)
    refine List.mem_append_right _ ?_
    obtain hlt | heq := lt_or_eq_of_le hle
    · have hread : m ∈ s.readable := by
        refine mem_readable ht hm (le_trans ?_ hvisible) hexp fun c hc => ?_
        · exact (Prod.Lex.toLex_le_toLex.mp hle).elim le_of_lt fun h => le_of_eq h.1
        · exact not_le.mp fun hmc => hcursor ⟨c, hc, hmc⟩
      exact List.mem_map_of_mem (Paging.mem_page_of_lt hread hmem hlt)
    · have hid : m.id = last.id := (Prod.mk.inj (toLex_inj.mp heq)).2
      rw [hid]
      exact List.mem_map_of_mem hmem

theorem sound_read (hs : Sound s) {limit : Nat} (ha : Apart s (.read limit))
    (h : step s (.read limit) = some s') : Sound s' := by
  cases h
  cases hlast : (s.channelRead limit).getLast? with
  | none =>
    have hnil := List.getLast?_eq_none_iff.mp hlast
    simp only [hnil, Option.map_none, Option.elim_none, max_bot_right, List.map_nil,
      List.append_nil]
    exact ⟨hs.cursor, nofun, hs.writes, hs.seen⟩
  | some last =>
    have hmem := List.mem_of_getLast? hlast
    refine ⟨fun c hc => le_max_of_le_left (hs.cursor c hc), fun p hp => ?_, fun w hw ht => ?_,
      fun t ht m hm hle => ?_⟩
    · cases hp
      exact le_max_right ..
    · exact max_lt (hs.writes w hw ht) (WithBot.coe_lt_coe.mpr
        (Prod.Lex.toLex_lt_toLex.mpr (.inl (ha last hmem w hw ht))))
    · obtain hle | hle := le_max_iff.mp hle
      · exact (hs.seen t ht m hm hle).imp (List.mem_append_left _) id
      · exact seen_read hs hlast ht hm (WithBot.coe_le_coe.mp hle)

/-- The committed cursor after an ack is the one acked, or the one before. -/
theorem committedCursor_update {c c' : Position}
    (h : committedCursor { s with cursors := Function.update s.cursors tenantID (some c') } =
      some c) :
    c = c' ∧ (tenantID = s.tenantID ∨ tenantID = channelOperatorTenant ∧
        channelCursorFallback s.tenantID s.isGlobal ∧ s.cursors s.tenantID = none) ∨
      s.committedCursor = some c := by
  rw [committedCursor] at h ⊢
  dsimp only at h
  by_cases hown : tenantID = s.tenantID
  · subst hown
    rw [Function.update_self, Option.some_or] at h
    exact .inl ⟨(Option.some.inj h).symm, .inl rfl⟩
  rw [Function.update_of_ne (Ne.symm hown)] at h
  cases hcursor : s.cursors s.tenantID with
  | some c₀ =>
    rw [hcursor, Option.some_or] at h
    rw [Option.some_or]
    exact .inr h
  | none =>
    rw [hcursor, Option.none_or] at h
    rw [Option.none_or]
    by_cases hop : channelOperatorTenant = tenantID
    · subst hop
      rw [Function.update_self] at h
      obtain ⟨hfallback, h⟩ := Option.ite_none_right_eq_some.mp h
      exact .inl ⟨(Option.some.inj h).symm, .inr ⟨rfl, hfallback, rfl⟩⟩
    · rw [Function.update_of_ne hop] at h
      exact .inr h

theorem sound_step (hs : Sound s) (ha : Apart s a) (h : step s a = some s') : Sound s' := by
  cases a with
  | tick now =>
    rw [step] at h
    split at h
    · next hnow =>
      cases h
      exact ⟨hs.cursor, hs.next, hs.writes, fun t ht m hm hle =>
        (hs.seen t ht m hm hle).imp id (unexpired_mono hnow)⟩
    · cases h
  | begin tenantID op =>
    have hbegin : ∀ minted : List MsgID,
        Sound { s with writes := s.writes ++ [⟨tenantID, s.clock, op⟩], minted } := by
      refine fun minted => ⟨hs.cursor, hs.next, ?_, hs.seen⟩
      exact List.forall_mem_append.mpr ⟨hs.writes, List.forall_mem_singleton.mpr ha⟩
    cases op with
    | publish rand payload visibleAt expiresAt maxMessages =>
      rw [step] at h
      split at h
      · cases h
      · cases h
        exact hbegin _
    | release count | releaseHookHeld id payload dest leased => cases h; exact hbegin s.minted
  | commit k =>
    obtain ⟨w, hw, rfl⟩ := Option.map_eq_some_iff.mp h
    exact sound_commit hs (List.mem_of_getElem? hw) k
  | rollback k =>
    rw [step] at h
    split at h
    · cases h
      exact ⟨hs.cursor, hs.next, fun w hw => hs.writes w (List.mem_of_mem_eraseIdx hw), hs.seen⟩
    · cases h
  | read limit => exact sound_read hs ha h
  | ack =>
    rw [step] at h
    split at h
    · cases h
      exact hs
    · next c hnext =>
      cases h
      rw [channelAck]
      split
      · exact hs
      · refine ⟨fun c' hc' => ?_, nofun, hs.writes, hs.seen⟩
        have hc' : committedCursor
            { s with cursors := Function.update s.cursors s.tenantID (some c) } = some c' := hc'
        obtain ⟨rfl, -⟩ | hold := committedCursor_update hc'
        · exact hs.next c' hnext
        · exact hs.cursor c' hold
  | ackOther tenantID cursor =>
    rw [step, channelAck] at h
    split at h
    · cases h
    next hother =>
    split at h
    · cases h
    · cases h
      refine ⟨fun c' hc' => ?_, hs.next, hs.writes, hs.seen⟩
      obtain ⟨rfl, hown | ⟨hop, hfallback, hnone⟩⟩ | hold := committedCursor_update hc'
      · exact absurd hown hother
      · exact ha hop hfallback hnone
      · exact hs.cursor c' hold
  | delete ids =>
    cases h
    exact ⟨hs.cursor, hs.next, hs.writes, fun t ht m hm => hs.seen t ht m (List.mem_of_mem_filter hm)⟩

/-- When reads and time stamps keep apart: what a write commits to rows the subscriber reads lies
behind every position it has passed; and when a read from the committed cursor finds nothing,
every message there that is visible and not expired has been returned. -/
theorem no_message_skipped (tenantID : String) (isGlobal : Bool)
    (h : Run step Apart { tenantID, isGlobal } s) :
    (∀ w ∈ s.writes, s.Reads w.tenantID → ∀ m ∈ w.apply (s.rows w.tenantID),
      m ∉ s.rows w.tenantID → s.passed < (m.position : WithBot Position)) ∧
    ∀ limit, s.channelRead limit = [] → ∀ t, s.Reads t → ∀ m ∈ s.rows t, m.visibleAt ≤ s.clock →
      m.unexpired s.clock = true → m.id ∈ s.returned := by
  have hs := h.invariant (fun _ _ _ hs ha he => sound_step hs ha he) (sound_init tenantID isGlobal)
  refine ⟨fun w hw ht m hm hnew => ?_, fun limit hempty t ht m hm hvisible hexp => ?_⟩
  · exact lt_position (hs.writes w hw ht) ((Write.mem_apply hm).resolve_left hnew)
  · have hnone : s.readable = [] := by
      refine Paging.eq_nil_of_page ?_ hempty
      split
      · decide
      · next hlimit => exact Nat.pos_of_ne_zero hlimit
    obtain ⟨c, hc, hle⟩ : ∃ c, s.committedCursor = some c ∧ m.position ≤ c := by
      by_contra hpast
      have hread := mem_readable ht hm hvisible hexp fun c hc =>
        not_le.mp fun hle => hpast ⟨c, hc, hle⟩
      rw [hnone] at hread
      cases hread
    have hseen := hs.seen t ht m hm ((WithBot.coe_le_coe.mpr hle).trans (hs.cursor c hc))
    rw [hexp] at hseen
    exact hseen.resolve_right nofun

/-- A tenant on a global channel, with a message of its own, one of the operator's, and one that
is held until the operator releases it. -/
theorem no_message_skipped_released :
    ∃ s, Run step Apart { tenantID := "acme", isGlobal := true } s ∧ s.channelRead 10 = [] ∧
      (s.rows "").map (·.payload) = ["c", "b"] ∧ (s.rows "acme").map (·.payload) = ["a"] ∧
      ∀ t, s.Reads t → ∀ m ∈ s.rows t, m.visibleAt ≤ s.clock → m.unexpired s.clock = true →
        m.id ∈ s.returned := by
  obtain ⟨s, hrun, hempty, hrows⟩ := exists_run_guarded step Apart
    { tenantID := "acme", isGlobal := true }
    [.tick 10, .begin "acme" (.publish 0 "a" 0 none 5), .begin "" (.publish 1 "b" 0 none 5),
      .begin "" (.publish 2 "c" channelHeldVisibleAt none 5), .commit 0, .commit 0, .commit 0,
      .read 10, .ackOther "" (toLex (10, toLex (10, 0))), .read 10, .ack, .tick 11,
      .begin "" (.release 1), .commit 0, .read 10, .ack]
    (p := fun s => s.channelRead 10 = [] ∧ (s.rows "").map (·.payload) = ["c", "b"] ∧
      (s.rows "acme").map (·.payload) = ["a"]) (by decide +kernel)
  exact ⟨s, hrun, hempty, hrows.1, hrows.2, (no_message_skipped "acme" true hrun).2 10 hempty⟩

/-- Two publishes take their time stamps in one order and commit in the other, with a read and
its ack in between: the second to commit lies before the cursor, and no later read returns
it. -/
theorem message_skipped :
    ∃ s, Run step Any { tenantID := "", isGlobal := false } s ∧ s.writes = [] ∧
      s.channelRead 10 = [] ∧
      ∃ m ∈ s.rows "", m.visibleAt ≤ s.clock ∧ m.unexpired s.clock = true ∧ m.id ∉ s.returned ∧
        (m.position : WithBot Position) ≤ s.passed := by
  exact exists_run step { tenantID := "", isGlobal := false }
    [.tick 10, .begin "" (.publish 0 "a" 0 none 0), .tick 11, .begin "" (.publish 0 "b" 0 none 0),
      .commit 1, .read 10, .ack, .commit 0, .read 10, .ack] (by decide +kernel)

end Channel

end Loomcycle.Channels
