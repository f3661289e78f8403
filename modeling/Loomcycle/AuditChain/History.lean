import Loomcycle.AuditChain.Sink
import Loomcycle.AuditChain.Transactions
import Loomcycle.Lib.Transition

/-! # Honest histories

What the runtime does to the audit tables over its life: appends and prunes, under
whatever keys it is configured with at the time, any of them failing at any
statement. Beside the tables a history keeps what the runtime signed, so that "an
honest writer signed this" has a meaning. Signatures made in a transaction that was
then rolled back count as made. -/

namespace Loomcycle.AuditChain.History
open Lib.Encoding Lib.Transition
open AuditChain.Store AuditChain.Chain
open AuditChain.Walk AuditChain.Transactions

/-- One use of a key: what was signed, exactly. -/
structure Signature where
  key : Bytes
  domain : MacDomain
  tenant : Bytes
  seq : Int
  hash : Bytes
  extra : List Bytes
  deriving DecidableEq, Repr

def Signature.mac (C : Crypto) (g : Signature) : Bytes :=
  chainMAC C g.key g.domain g.tenant g.seq g.hash g.extra

structure World where
  store : AuditStore
  sealed : List AuditEventRow
  ledger : List Signature

def World.init : World := ⟨.empty, [], []⟩

inductive Label
  | append (k : ChainKeys) (rows : List AuditEventRow) (opened : Option AuditEventRow)
    (fail : Fault)
  | prune (k : ChainKeys) (t : Bytes) (before limit : Int) (fail : Fault)

def Label.keys : Label → ChainKeys
  | .append k .. => k
  | .prune k .. => k

def noFault : Fault := fun _ _ => none

/-- An instance of the idealised primitives, to evaluate histories with: it hides
nothing, and nothing collides. -/
def plain : Crypto where
  sha256 m := m
  hmacSHA256 key m := lpField key ++ m

section
variable (C : Crypto)

/-- The rows an append seals. A statement that fails ends it after some of them, so
the rows of an append without a failure are at least those. -/
def sealedBy (k : ChainKeys) (s : AuditStore) (rows : List AuditEventRow)
    (opened : Option AuditEventRow) : List AuditEventRow :=
  match auditAppendBody noFault s rows (k.seal C) opened with
  | .ok (_, a) => a.opened ++ a.written
  | .error _ => []

/-- Sealing a row signs it, and the head moved to it. -/
def rowSignatures (k : ChainKeys) (r : AuditEventRow) : List Signature :=
  [⟨k.current, .row, r.tenantID, r.seq, r.hash, []⟩,
    ⟨k.current, .head, r.tenantID, r.seq, r.hash, []⟩]

/-- What a prune hands to its seal. -/
def prunePlan (s : AuditStore) (t : Bytes) (before limit : Int) :
    Option (AuditHead × List AuditEventRow) :=
  (s.heads t).bind fun head =>
    let limit := if limit ≤ 0 then auditPruneDefault else limit
    (s.findLast t head.anchorSeq (wrapInt64 (head.anchorSeq + limit)) before).map fun last =>
      (head, s.range t head.anchorSeq last)

/-- What a prune signs: its anchor, and the head again when it reaches it. -/
def pruneSignatures (k : ChainKeys) (s : AuditStore) (t : Bytes) (before limit : Int) :
    List Signature :=
  match prunePlan s t before limit with
  | none => []
  | some (head, pruned) => match k.sealAnchor C head pruned, pruned.getLast? with
    | .ok sealed, some last =>
      ⟨k.current, .anchor, t, last.seq, last.hash, [sealed.state]⟩ ::
        if last.seq = head.seq then [⟨k.current, .head, t, head.seq, head.hash, []⟩] else []
    | _, _ => []

def step (w : World) : Label → Option World
  | .append k rows opened fail =>
    let written := sealedBy C k w.store rows opened
    some {
      store := (auditAppend fail w.store rows (k.seal C) opened).1
      sealed := w.sealed ++ written
      ledger := w.ledger ++ written.flatMap (rowSignatures k) }
  | .prune k t before limit fail =>
    some {
      store := (auditPrune fail w.store t before limit (k.sealAnchor C)).1
      sealed := w.sealed
      ledger := w.ledger ++ pruneSignatures C k w.store t before limit }

end

variable {C : Crypto}

/-! ## What every honest history keeps -/

/-- Every head's hash is hexadecimal, and no head lies below 0. -/
def HeadsHold (s : AuditStore) : Prop :=
  ∀ t, IsHex (headOf s t).hash ∧ 0 ≤ (headOf s t).seq

/-- A row as the seal left it. -/
structure SealedRow (C : Crypto) (r : AuditEventRow) : Prop where
  hash_eq : r.hash = rowHash C r.prevHash r
  prevHash_hex : IsHex r.prevHash
  seq_pos : 1 ≤ r.seq

/-- What the ledger's signatures vouch for. -/
structure Honest (C : Crypto) (w : World) : Prop where
  heads : HeadsHold w.store
  sealed : ∀ r ∈ w.sealed, SealedRow C r
  rows : ∀ g ∈ w.ledger, g.domain = .row →
    ∃ r ∈ w.sealed, r.tenantID = g.tenant ∧ r.seq = g.seq ∧ r.hash = g.hash ∧ r.mac = g.mac C ∧
      g.extra = []
  headSeq : ∀ g ∈ w.ledger, g.domain = .head → 1 ≤ g.seq
  anchorHash : ∀ g ∈ w.ledger, g.domain = .anchor → IsHex g.hash

variable {s : AuditStore} {rows : List AuditEventRow} {k : ChainKeys}

/-- Appends keep the heads well formed, and every row they seal is well formed. -/
theorem writes_heads_hold {s' : AuditStore} {written : List AuditEventRow}
    (h : Writes C k s rows written s') (hs : HeadsHold s) :
    HeadsHold s' ∧ ∀ r ∈ written, SealedRow C r ∧ r.mac =
      chainMAC C k.current .row r.tenantID r.seq r.hash [] := by
  induction h with
  | nil => exact ⟨hs, nofun⟩
  | create hn _ ih => exact ih fun u => by rw [headOf_insertHead hn]; exact hs u
  | @append s s₁ s' row r rows written ha _ ih =>
    have hhead := hs row.tenantID
    have hr : SealedRow C r ∧ r.mac = chainMAC C k.current .row r.tenantID r.seq r.hash [] := by
      rw [ha.row_eq]
      refine ⟨⟨rfl, hhead.1, ?_⟩, rfl⟩
      have := hhead.2
      simp only [sealOn]
      omega
    have hs₁ : HeadsHold s₁ := by
      intro u
      by_cases hu : u = row.tenantID
      · subst hu
        rw [headOf_of_some ha.head_eq]
        refine ⟨?_, ?_⟩
        · simp only [headOn, hr.1.hash_eq]
          exact isHex_hexEncode _
        · have := hr.1.seq_pos
          simp only [headOn]
          omega
      · rw [ha.headOf_ne hu]
        exact hs u
    obtain ⟨hs', hw⟩ := ih hs₁
    exact ⟨hs', List.forall_mem_cons.mpr ⟨hr, hw⟩⟩

theorem auditAppend_heads_hold (hs : HeadsHold s) (fail : Fault) (rows : List AuditEventRow)
    (opened : Option AuditEventRow) : HeadsHold (auditAppend fail s rows (k.seal C) opened).1 := by
  rcases auditAppend_cases fail s rows (k.seal C) opened with h | ⟨s', a, hbody, h⟩
  · rw [h]; exact hs
  · rw [h]
    obtain ⟨t, -, -, hw, -⟩ := auditAppendBody_ok hbody
    exact (writes_heads_hold hw hs).1

theorem sealedBy_writes {opened : Option AuditEventRow} {r : AuditEventRow}
    (hr : r ∈ sealedBy C k s rows opened) :
    ∃ t s', Writes C k s (openedRows s t opened ++ rows) (sealedBy C k s rows opened) s' := by
  unfold sealedBy at hr ⊢
  cases h : auditAppendBody noFault s rows (k.seal C) opened with
  | error e => rw [h] at hr; cases hr
  | ok p =>
    obtain ⟨t, -, -, hw, -⟩ := auditAppendBody_ok h
    exact ⟨t, p.1, hw⟩

theorem mem_pruneSignatures {t : Bytes} {before limit : Int} {g : Signature}
    (h : g ∈ pruneSignatures C k s t before limit) :
    ∃ head pruned last st rotated, s.heads t = some head ∧
      (∃ hi, pruned = s.range t head.anchorSeq hi) ∧ Sealable C k head pruned last st rotated ∧
      (g = ⟨k.current, .anchor, t, last.seq, last.hash,
          [(anchorSeal C k head pruned last st rotated).state]⟩ ∨
        (g = ⟨k.current, .head, t, head.seq, head.hash, []⟩ ∧ last.seq = head.seq)) := by
  unfold pruneSignatures at h
  split at h
  · cases h
  rename_i head pruned hplan
  obtain ⟨hd, hhead, hplan⟩ := Option.bind_eq_some_iff.mp hplan
  obtain ⟨hi, -, hpair⟩ := Option.map_eq_some_iff.mp hplan
  obtain ⟨rfl, rfl⟩ := Prod.mk.inj hpair
  split at h
  · rename_i sealed last hseal hlast
    obtain ⟨last', st, rotated, hs, rfl⟩ := sealAnchor_ok hseal
    obtain rfl := Option.mem_unique hs.last_eq hlast
    refine ⟨hd, _, last', st, rotated, hhead, ⟨hi, rfl⟩, hs, ?_⟩
    rcases List.mem_cons.mp h with rfl | h
    · exact .inl rfl
    · split at h
      · rename_i he
        exact .inr ⟨List.mem_singleton.mp h, he⟩
      · cases h
  · cases h

theorem honest_init : Honest C World.init where
  heads t := by
    refine ⟨?_, le_refl _⟩
    intro b hb
    cases hb
  sealed r hr := by cases hr
  rows g hg := by cases hg
  headSeq g hg := by cases hg
  anchorHash g hg := by cases hg

/-- What the runtime adds keeps to this. -/
theorem Honest.extend {w : World} {store : AuditStore} {sealed : List AuditEventRow}
    {signed : List Signature} (hw : Honest C w) (hheads : HeadsHold store)
    (hsub : w.sealed ⊆ sealed) (hsealed : ∀ r ∈ sealed, SealedRow C r)
    (hsigned : ∀ g ∈ signed, match g.domain with
      | .row => ∃ r ∈ sealed, r.tenantID = g.tenant ∧ r.seq = g.seq ∧ r.hash = g.hash ∧
          r.mac = g.mac C ∧ g.extra = []
      | .head => 1 ≤ g.seq
      | .anchor => IsHex g.hash) : Honest C ⟨store, sealed, w.ledger ++ signed⟩ := by
  refine ⟨hheads, hsealed, ?_, ?_, ?_⟩
  all_goals
    intro g hg hd
    rcases List.mem_append.mp hg with hg | hg
  · obtain ⟨r, hr, hrest⟩ := hw.rows g hg hd
    exact ⟨r, hsub hr, hrest⟩
  · have hnew := hsigned g hg
    rwa [hd] at hnew
  · exact hw.headSeq g hg hd
  · have hnew := hsigned g hg
    rwa [hd] at hnew
  · exact hw.anchorHash g hg hd
  · have hnew := hsigned g hg
    rwa [hd] at hnew

theorem honest_step {w w' : World} {l : Label} (hw : Honest C w) (h : step C w l = some w') :
    Honest C w' := by
  cases l with
  | append k rows opened fail =>
    cases h
    have hsealed : ∀ r ∈ sealedBy C k w.store rows opened, SealedRow C r ∧ r.mac =
        chainMAC C k.current .row r.tenantID r.seq r.hash [] := by
      intro r hr
      obtain ⟨t, s', hwrites⟩ := sealedBy_writes hr
      exact (writes_heads_hold hwrites hw.heads).2 r hr
    refine hw.extend (auditAppend_heads_hold hw.heads fail rows opened)
      (List.subset_append_left ..) (fun r hr => ?_) fun g hg => ?_
    · exact (List.mem_append.mp hr).elim (hw.sealed r) fun hr => (hsealed r hr).1
    · obtain ⟨r, hr, hg⟩ := List.mem_flatMap.mp hg
      simp only [rowSignatures, List.mem_cons, List.not_mem_nil, or_false] at hg
      rcases hg with rfl | rfl
      · exact ⟨r, List.mem_append_right _ hr, rfl, rfl, rfl, (hsealed r hr).2, rfl⟩
      · exact (hsealed r hr).1.seq_pos
  | prune k t before limit fail =>
    cases h
    refine hw.extend (fun u => ?_) (List.Subset.refl _) hw.sealed fun g hg => ?_
    · rcases auditPrune_cases C k fail w.store t before limit with
        ⟨h, -⟩ | ⟨head, pruned, last, st, rotated, -, hp, -⟩
      · simp only [h]; exact hw.heads u
      · obtain ⟨hh, hseq⟩ := hp.headOf_eq u
        simp only [hh, hseq]
        exact hw.heads u
    · obtain ⟨head, pruned, last, st, rotated, -, ⟨hi, rfl⟩, hs, rfl | ⟨rfl, he⟩⟩ :=
        mem_pruneSignatures hg
      · obtain ⟨hhash, -⟩ := hs.links.row_signed last (List.mem_of_getLast? hs.last_eq)
        simp only [← hhash]
        exact isHex_hexEncode _
      · -- the head re-signed is the last row's, which lies past the anchor
        have hlast := (mem_range.mp (List.mem_of_getLast? hs.last_eq)).2.1
        have := checkAnchor_nonneg hs.anchor
        simp only
        omega

/-- Whatever the runtime did, under whatever keys. -/
theorem honest_of_run {P : World → Label → Prop} {w : World} (h : Run (step C) P World.init w) :
    Honest C w :=
  h.invariant (I := Honest C) (fun _ _ _ hw _ hstep => honest_step hw hstep) honest_init

end Loomcycle.AuditChain.History
