import Loomcycle.AuditChain.AnchorCodec
import Loomcycle.AuditChain.TamperEvidence

/-! # A prune does not launder tampering

A prune signs an anchor over rows it did not write. Whatever the tables hold when it
runs, it removes and vouches for nothing that an honest writer did not sign, and it
carries every opening it removes; in every other case the tables stay as they were. -/

namespace Loomcycle.AuditChain.PruneSoundness
open Lib.Encoding Lib.Utf8 Lib.Transition
open AuditChain.Store AuditChain.Chain AuditChain.Sink
open AuditChain.Walk AuditChain.Transactions AuditChain.History
open AuditChain.AnchorCodec AuditChain.TamperEvidence

/-- An append as the sink makes it: the rows are rows of events, and a tenant's batch
carries the record of its opening. -/
def FromSink (_ : World) : Label → Prop
  | .append _ rows opened _ => ∃ ev evs payload, rows = (ev :: evs).map rowFor ∧
      opened = openedFor rows ev.ts payload
  | .prune .. => True

variable {payload : Bytes} {rows : List AuditEventRow}

theorem openedFor_valid (hrows : ∀ r ∈ rows, validString r.tenantID = true) {ts : Int}
    {o : AuditEventRow} (h : openedFor rows ts payload = some o) :
    validString o.subject = true := by
  unfold openedFor at h
  split at h
  · cases h
  · rename_i r rest
    split at h
    · cases h
      exact hrows r List.mem_cons_self
    · cases h

/-- Every row of a sink's append, the opening record included, names its subject in
valid UTF-8. -/
theorem fromSink_subjects {ev : Event} {evs : List Event} {ts : Int} {t : Bytes} {s : AuditStore} :
    ∀ r ∈ openedRows s t (openedFor ((ev :: evs).map rowFor) ts payload) ++ (ev :: evs).map rowFor,
      validString r.subject = true := by
  intro r hr
  rcases List.mem_append.mp hr with hr | hr
  · unfold openedRows at hr
    split at hr
    · refine openedFor_valid (fun x hx => ?_) (Option.mem_toList.mp (List.mem_filter.mp hr).1)
      obtain ⟨e, -, rfl⟩ := List.mem_map.mp hx
      exact validString_safeText _
    · cases hr
  · obtain ⟨e, -, rfl⟩ := List.mem_map.mp hr
    exact validString_safeText _

/-! ## The states honest anchors carry -/

/-- A state signed at `n`: it reads back, and no tenant was opened more often than there
are rows. -/
def AnchorHolds (n : Int) (state : Bytes) : Prop :=
  ∃ st, state = sealedState st ∧ Storable st.opened ∧
    ∀ u, 0 ≤ st.opened.count u ∧ st.opened.count u ≤ n

theorem storable_empty : Storable ∅ := by
  intro u n h
  cases h

theorem anchorHolds_none : AnchorHolds 0 [] :=
  ⟨{}, rfl, storable_empty, fun u => by rw [count_empty]; exact ⟨le_rfl, le_rfl⟩⟩

theorem storable_of_lookup_eq {m m' : TenantCounts} (h : ∀ u, m'.lookup u = m.lookup u)
    (hm : Storable m) : Storable m' := by
  intro u n hu
  rw [h] at hu
  exact hm u n hu

theorem lookup_addOpenings {t : Bytes} {m : TenantCounts} {u : Bytes} {n : Int}
    (h : (addOpenings t m rows).lookup u = some n) :
    (∃ n', m.lookup u = some n') ∨ ∃ r ∈ rows, r.subject = u := by
  induction rows generalizing m with
  | nil => exact .inl ⟨n, h⟩
  | cons r rows ih =>
    rcases ih h with ⟨n', hn'⟩ | ⟨x, hx, hxu⟩
    · simp only at hn'
      split at hn'
      · by_cases hu : u = r.subject
        · exact .inr ⟨r, List.mem_cons_self, hu.symm⟩
        · rw [TenantCounts.add, AList.lookup_insert_ne hu] at hn'
          exact .inl ⟨n', hn'⟩
      · exact .inl ⟨n', hn'⟩
    · exact .inr ⟨x, List.mem_cons_of_mem _ hx, hxu⟩

section
variable {C : Crypto} {k : ChainKeys}

variable {st : AnchorState} {head : AuditHead} {rotated : Bool} {last : AuditEventRow}
  {pruned : List AuditEventRow} {s s' : AuditStore} {t : Bytes} {w : World}

/-- The state `checkAnchor` returns for an anchor that holds. -/
theorem checkAnchor_storable {h : AuditHead} (hst : k.checkAnchor C h = .ok st)
    (hh : AnchorHolds h.anchorSeq h.anchorState) :
    Storable st.opened ∧ ∀ u, 0 ≤ st.opened.count u ∧ st.opened.count u ≤ h.anchorSeq := by
  rcases checkAnchor_ok_iff.mp hst with ⟨hzero, -, -, -, rfl⟩ | ⟨-, st₀, hdec, hwhich⟩
  · rw [hzero]
    exact ⟨storable_empty, fun u => by rw [count_empty]; exact ⟨le_rfl, le_rfl⟩⟩
  obtain ⟨sp, hstate, hsp, hcount⟩ := hh
  obtain ⟨st', hdec', -, hlookup⟩ := decode_sealedState hsp
  rw [hstate, hdec'] at hdec
  obtain rfl := Option.some.inj hdec
  have hopened : st.opened = st'.opened := by rcases hwhich with ⟨-, rfl⟩ | ⟨-, rfl⟩ <;> rfl
  rw [hopened]
  refine ⟨storable_of_lookup_eq hlookup hsp, fun u => ?_⟩
  have : st'.opened.count u = sp.opened.count u := by simp only [TenantCounts.count, hlookup]
  rw [this]
  exact hcount u

/-- What a seal signs over an anchor that holds reads back as the openings it found
there and those of the rows it removes. -/
theorem anchorSeal_state (hs : Sealable C k head pruned last st rotated)
    (hh : AnchorHolds head.anchorSeq head.anchorState)
    (hsub : ∀ r ∈ pruned, validString r.subject = true) (h64 : inInt64 last.seq) :
    AnchorHolds last.seq (anchorSeal C k head pruned last st rotated).state ∧
      ∃ st', decodeAnchorState (anchorSeal C k head pruned last st rotated).state = some st' ∧
        st'.rotated = rotated ∧
        ∀ u, st'.opened.count u = st.opened.count u + openings head.tenantID pruned u := by
  obtain ⟨hst, hcount⟩ := checkAnchor_storable hs.anchor hh
  have hlen := hs.links.want_eq
  have hbound : ∀ u, 0 ≤ (addOpenings head.tenantID st.opened pruned).count u ∧
      (addOpenings head.tenantID st.opened pruned).count u ≤ last.seq := by
    intro u
    rw [count_addOpenings]
    have h1 := hcount u
    have h2 : openings head.tenantID pruned u ≤ pruned.length := List.countP_le_length
    omega
  have hstor : Storable (addOpenings head.tenantID st.opened pruned) := by
    intro u n hu
    refine ⟨?_, ?_⟩
    · rcases lookup_addOpenings hu with ⟨n', hn'⟩ | ⟨r, hr, rfl⟩
      · exact (hst u n' hn').1
      · exact hsub r hr
    · have hn : (addOpenings head.tenantID st.opened pruned).count u = n := by
        simp only [TenantCounts.count, hu, Option.getD_some]
      have := hbound u
      unfold inInt64 at h64 ⊢
      omega
  refine ⟨⟨_, rfl, hstor, hbound⟩, ?_⟩
  obtain ⟨st', hdec, hrot, hlookup⟩ :=
    @decode_sealedState ⟨addOpenings head.tenantID st.opened pruned, rotated⟩ hstor
  refine ⟨st', hdec, hrot, fun u => ?_⟩
  have : st'.opened.count u = (addOpenings head.tenantID st.opened pruned).count u := by
    simp only [TenantCounts.count, hlookup]
  rw [this, count_addOpenings]

/-! ## What a history of the sink keeps -/

/-- The rows name their subjects in valid UTF-8, and every anchor holds. -/
def TablesHold (s : AuditStore) : Prop :=
  (∀ t, ∀ r ∈ s.events t, validString r.subject = true) ∧
    ∀ t, AnchorHolds (headOf s t).anchorSeq (headOf s t).anchorState

/-- What tables that hold give a seal over rows of them. -/
theorem TablesHold.removed {hi : Int} (hold : TablesHold s) (hhead : s.heads t = some head)
    (hpruned : pruned = s.range t head.anchorSeq hi) (hlast : pruned.getLast? = some last) :
    AnchorHolds head.anchorSeq head.anchorState ∧ (∀ r ∈ pruned, validString r.subject = true) ∧
      inInt64 last.seq := by
  have hh := hold.2 t
  rw [headOf_of_some hhead] at hh
  have hmem : ∀ r ∈ pruned, r ∈ s.events t := fun r hr => (mem_range.mp (hpruned ▸ hr)).1
  exact ⟨hh, fun r hr => hold.1 t r (hmem r hr),
    s.rowSeq t last (hmem last (List.mem_of_getLast? hlast))⟩

structure Anchored (w : World) : Prop where
  tables : TablesHold w.store
  sealed : ∀ r ∈ w.sealed, validString r.subject = true
  anchors : ∀ g ∈ w.ledger, g.domain = .anchor → ∃ state, g.extra = [state] ∧
    AnchorHolds g.seq state

theorem writes_tablesHold {rows written : List AuditEventRow} (h : Writes C k s rows written s')
    (hs : TablesHold s) (hrows : ∀ r ∈ rows, validString r.subject = true) :
    TablesHold s' ∧ ∀ r ∈ written, validString r.subject = true := by
  induction h with
  | nil => exact ⟨hs, nofun⟩
  | create hn _ ih => exact ih ⟨hs.1, fun u => by rw [headOf_insertHead hn]; exact hs.2 u⟩ hrows
  | @append s s₁ s' row r rows written ha _ ih =>
    have hr : validString r.subject = true := by
      rw [ha.row_eq]
      exact hrows row List.mem_cons_self
    have hs₁ : TablesHold s₁ := by
      refine ⟨fun u x hx => ?_, fun u => ?_⟩ <;> by_cases hu : u = row.tenantID
      · subst hu
        rcases (mem_insertSorted ha.inserted).mp hx with rfl | hx
        · exact hr
        · exact hs.1 _ x hx
      · rw [ha.events_ne u hu] at hx
        exact hs.1 u x hx
      · subst hu
        rw [headOf_of_some ha.head_eq]
        exact hs.2 row.tenantID
      · rw [ha.headOf_ne hu]
        exact hs.2 u
    obtain ⟨hs', hw⟩ := ih hs₁ fun x hx => hrows x (List.mem_cons_of_mem _ hx)
    exact ⟨hs', List.forall_mem_cons.mpr ⟨hr, hw⟩⟩

theorem prunes_tablesHold
    (hp : Prunes s t head pruned last (anchorSeal C k head pruned last st rotated) s')
    (hs : Sealable C k head pruned last st rotated) (hold : TablesHold s) : TablesHold s' := by
  refine ⟨fun u r hr => ?_, fun u => ?_⟩ <;> by_cases hu : u = t
  · subst hu
    rw [hp.events_eq'] at hr
    exact hold.1 u r (List.mem_filter.mp hr).1
  · rw [hp.events_ne u hu] at hr
    exact hold.1 u r hr
  · subst hu
    rw [headOf_of_some hp.head_eq']
    obtain ⟨hh, hsub, h64⟩ := hold.removed hp.head_eq hp.pruned_eq hp.last_eq
    exact (anchorSeal_state hs hh hsub h64).1
  · have : headOf s' u = headOf s u := by simp only [headOf, hp.heads_ne u hu]
    rw [this]
    exact hold.2 u

theorem anchored_init : Anchored World.init where
  tables := ⟨fun _ _ hr => (List.not_mem_nil hr).elim, fun _ => anchorHolds_none⟩
  sealed _ hr := (List.not_mem_nil hr).elim
  anchors _ hg := (List.not_mem_nil hg).elim

theorem anchored_step {w' : World} {l : Label} (hw : Anchored w) (hl : FromSink w l)
    (h : step C w l = some w') : Anchored w' := by
  cases l with
  | append k rows opened fail =>
    obtain ⟨ev, evs, payload, rfl, rfl⟩ := hl
    cases h
    refine ⟨?_, fun r hr => ?_, fun g hg hd => ?_⟩
    · rcases auditAppend_cases fail w.store ((ev :: evs).map rowFor) (k.seal C)
        (openedFor ((ev :: evs).map rowFor) ev.ts payload) with h | ⟨s', a, hbody, h⟩
      · simp only [h]; exact hw.tables
      · simp only [h]
        obtain ⟨t, -, -, hwrites, -⟩ := auditAppendBody_ok hbody
        exact (writes_tablesHold hwrites hw.tables fromSink_subjects).1
    · rcases List.mem_append.mp hr with hr | hr
      · exact hw.sealed r hr
      · obtain ⟨t, s', hwrites⟩ := sealedBy_writes hr
        exact (writes_tablesHold hwrites hw.tables fromSink_subjects).2 r hr
    · rcases List.mem_append.mp hg with hg | hg
      · exact hw.anchors g hg hd
      · obtain ⟨r, -, hg⟩ := List.mem_flatMap.mp hg
        simp only [rowSignatures, List.mem_cons, List.not_mem_nil, or_false] at hg
        rcases hg with rfl | rfl <;> cases hd
  | prune k t before limit fail =>
    cases h
    refine ⟨?_, hw.sealed, fun g hg hd => ?_⟩
    · rcases auditPrune_cases C k fail w.store t before limit with
        ⟨h, -⟩ | ⟨head, pruned, last, st, rotated, hs, hp, -⟩
      · simp only [h]; exact hw.tables
      · exact prunes_tablesHold hp hs hw.tables
    · rcases List.mem_append.mp hg with hg | hg
      · exact hw.anchors g hg hd
      · obtain ⟨head, pruned, last, st, rotated, hhead, ⟨hi, rfl⟩, hs, rfl | ⟨rfl, -⟩⟩ :=
          mem_pruneSignatures hg
        · obtain ⟨hh, hsub, h64⟩ := hw.tables.removed hhead rfl hs.last_eq
          exact ⟨_, rfl, (anchorSeal_state hs hh hsub h64).1⟩
        · cases hd

theorem anchored_of_run (h : Run (step C) FromSink World.init w) : Anchored w :=
  h.invariant (I := Anchored) (fun _ _ _ hw hl hstep => anchored_step hw hl hstep) anchored_init

/-! ## Any content of the tables -/

/-- The runtime signed this, under a key in use. -/
def SignedIn (k : ChainKeys) (w : World) (d : MacDomain) (t : Bytes) (n : Int) (hash : Bytes)
    (extra : List Bytes) : Prop :=
  ∃ key, (key = k.current ∨ key = k.previous) ∧ ⟨key, d, t, n, hash, extra⟩ ∈ w.ledger

/-- What a prune that commits may have done to a chain: `removed` are the rows it
removed, `st` is the state the previous anchor carried. -/
structure VouchedPrune (C : Crypto) (k : ChainKeys) (w : World) (s : AuditStore) (t : Bytes)
    (s' : AuditStore) (head head' : AuditHead) (removed : List AuditEventRow) (st : AnchorState) :
    Prop where
  stored : s.heads t = some head ∧ s'.heads t = some head'
  /-- Exactly the rows past the old anchor up to the new one are gone, nothing else. -/
  rows : removed = s.range t head.anchorSeq head'.anchorSeq ∧ removed ≠ [] ∧
    s'.events t = (s.events t).filter fun r => decide (r ∉ removed)
  others : ∀ u, u ≠ t → s'.heads u = s.heads u ∧ s'.events u = s.events u
  /-- Each was sealed for this chain, and is signed under a key in use. -/
  signed : ∀ r ∈ removed, r ∈ w.sealed ∧ r.tenantID = t ∧ SignedIn k w .row t r.seq r.hash []
  gapFree : ∀ n, head.anchorSeq < n → n ≤ head'.anchorSeq → ∃ r ∈ removed, r.seq = n
  linked : ∀ r ∈ removed, (r.seq = head.anchorSeq + 1 → r.prevHash = head.anchorHash) ∧
    ∀ r' ∈ removed, r'.seq = r.seq + 1 → r'.prevHash = r.hash
  anchorVerified : k.checkAnchor C head = .ok st ∧
    (head.anchorSeq = 0 ∨ SignedIn k w .anchor t head.anchorSeq head.anchorHash [head.anchorState])
  headVerified : k.check C head.mac .head t head.seq head.hash [] = true ∧
    SignedIn k w .head t head.seq head.hash []
  withinHead : ∀ r ∈ removed, r.seq ≤ head.seq
  newAnchor : head'.seq = head.seq ∧ head'.hash = head.hash ∧
    head'.anchorMAC = k.sign C .anchor t head'.anchorSeq head'.anchorHash [head'.anchorState] ∧
    ∃ r ∈ removed, r.seq = head'.anchorSeq ∧ r.hash = head'.anchorHash
  /-- The openings the new anchor carries are the old anchor's and the removed rows'. -/
  counts : ∃ st', decodeAnchorState head'.anchorState = some st' ∧
    ∀ u, st'.opened.count u = st.opened.count u + openings t removed u

theorem signedIn_of_check (hu : Unforged C k w.ledger s) {mac hash : Bytes} {d : MacDomain}
    {n : Int} {extra : List Bytes} (hp : Presents s mac d t n hash extra)
    (h : k.which C mac d t n hash extra ≠ .none) : SignedIn k w d t n hash extra := by
  obtain ⟨key, hkey, hkne, hmac⟩ := which_ne_none h
  exact ⟨key, hkey, hu hp hkey hkne hmac⟩

/-- An anchor that verifies is none at all, or one the runtime signed. -/
theorem anchor_signed (hu : Unforged C k w.ledger s) (hhead : s.heads t = some head)
    (hst : k.checkAnchor C head = .ok st) :
    (head.anchorSeq = 0 ∧ head.anchorState = []) ∨
      SignedIn k w .anchor t head.anchorSeq head.anchorHash [head.anchorState] := by
  rcases checkAnchor_ok_iff.mp hst with ⟨hzero, -, -, hstate, -⟩ | ⟨-, st₀, -, hwhich⟩
  · exact .inl ⟨hzero, hstate⟩
  · refine .inr (signedIn_of_check hu (.anchor hhead) ?_)
    rw [s.headTenant t head hhead] at hwhich
    rcases hwhich with ⟨h, -⟩ | ⟨h, -⟩ <;> rw [h] <;> decide

theorem anchorHolds_of_signed (hw : Anchored w) {state hash : Bytes} {n : Int}
    (h : (n = 0 ∧ state = []) ∨ SignedIn k w .anchor t n hash [state]) : AnchorHolds n state := by
  rcases h with ⟨rfl, rfl⟩ | ⟨key, -, hsig⟩
  · exact anchorHolds_none
  · obtain ⟨state', hextra, hold⟩ := hw.anchors _ hsig rfl
    cases hextra
    exact hold

/-- Whatever the tables hold, short of a forged MAC, a prune that commits removed only
rows the runtime sealed and signed, gap-free from an anchor and up to a head that it
signed, and its new anchor carries exactly the openings of the old one and of the rows
removed. A prune that does not commit leaves the tables as they were. -/
theorem auditPrune_sound {w : World} {s : AuditStore} (hsha : Function.Injective C.sha256)
    (hrun : Run (step C) FromSink World.init w) (hu : Unforged C k w.ledger s)
    (fail : Fault) (t : Bytes) (before limit : Int) :
    (∃ head head' removed st,
      VouchedPrune C k w s t (auditPrune fail s t before limit (k.sealAnchor C)).1 head head' removed st ∧
      (auditPrune fail s t before limit (k.sealAnchor C)).2 = .ok removed.length) ∨
    ((auditPrune fail s t before limit (k.sealAnchor C)).1 = s ∧
      ∀ n, (auditPrune fail s t before limit (k.sealAnchor C)).2 = .ok n → n = 0) := by
  have hw := honest_of_run hrun
  have ha := anchored_of_run hrun
  rcases auditPrune_cases C k fail s t before limit with
    h | ⟨head, removed, last, st, rotated, hs, hp, hn⟩
  · exact .inr h
  have ht := s.headTenant t head hp.head_eq
  have hlinks := hs.links
  have hcheck := hs.head
  rw [ht] at hlinks hcheck
  have hmem : ∀ r ∈ removed, r ∈ s.events t := by
    intro r hr
    rw [hp.pruned_eq] at hr
    exact (mem_range.mp hr).1
  have hlast : last ∈ removed := List.mem_of_getLast? hs.last_eq
  have hanchor := anchor_signed hu hp.head_eq hs.anchor
  have hhex : IsHex head.anchorHash := by
    have hof := headOf_of_some hp.head_eq
    rw [← hof]
    exact anchorHash_hex hw hu (hof.symm ▸ hs.anchor)
  have hsealed : ∀ r ∈ removed, r ∈ w.sealed := fun r hr =>
    mem_sealed hsha hw hu hlinks hhex hr (hmem r hr)
  obtain ⟨-, st', hdec, -, hcount⟩ := anchorSeal_state hs (anchorHolds_of_signed ha hanchor)
    (fun r hr => ha.sealed r (hsealed r hr)) (s.rowSeq t last (hmem last hlast))
  rw [ht] at hcount
  refine .inl ⟨head, prunedHead head last (anchorSeal C k head removed last st rotated), removed, st,
    ?_, hn⟩
  refine ⟨⟨hp.head_eq, hp.head_eq'⟩, ⟨hp.pruned_eq, List.ne_nil_of_mem hlast, ?_⟩,
    fun u hu => ⟨hp.heads_ne u hu, hp.events_ne u hu⟩, ?_, ?_, ?_, ⟨hs.anchor, ?_⟩, ⟨hcheck, ?_⟩, ?_,
    ⟨rfl, rfl, ?_, last, hlast, rfl, rfl⟩, st', hdec, hcount⟩
  · -- the rows kept are those not removed
    rw [hp.events_eq']
    refine List.filter_congr fun r hr => ?_
    simp only [hp.pruned_eq, mem_range, hr, true_and, ← Bool.decide_and]
    by_cases h : head.anchorSeq < r.seq ∧ r.seq ≤ last.seq <;> simp [h]
  · intro r hr
    obtain ⟨-, key, hkey, hkne, hmac⟩ := hlinks.row_signed r hr
    exact ⟨hsealed r hr, s.rowTenant t r (hmem r hr), key, hkey, hu (.row (hmem r hr)) hkey hkne hmac⟩
  · intro n hlo hhi
    exact hlinks.exists_seq (by omega) (by simp only [prunedHead] at hhi; omega)
  · intro r hr
    exact ⟨hlinks.first hr, fun r' hr' hseq => links_prevHash hlinks hr hr' hseq⟩
  · exact hanchor.imp And.left id
  · exact signedIn_of_check hu (.head hp.head_eq) (by simpa [ChainKeys.check] using hcheck)
  · intro r hr
    have h1 := (hlinks.seq_mem r hr).2
    have h2 := hs.within
    omega
  · simp only [prunedHead, anchorSeal, ht]

end

/-- The opening record of the recorded event is pruned, and vouched for. -/
theorem auditPrune_sound_recorded :
    ∃ head head' removed st, VouchedPrune plain Removed.keys Removed.world Removed.world.store []
        (auditPrune noFault Removed.world.store [] 100 0 (Removed.keys.sealAnchor plain)).1
        head head' removed st ∧ removed.length = 1 := by
  have hrun : Run (step plain) FromSink World.init Removed.world :=
    .tail (a := .append Removed.keys [rowFor Removed.event]
      (openedFor [rowFor Removed.event] 5 []) noFault) (.refl _) ⟨Removed.event, [], [], rfl, rfl⟩ rfl
  have hone : (auditPrune noFault Removed.world.store [] 100 0
      (Removed.keys.sealAnchor plain)).2.toOption = some 1 := by decide +kernel
  rcases auditPrune_sound (fun _ _ h => h) hrun Removed.recorded_unforged noFault [] 100 0 with
    ⟨head, head', removed, st, hp, hn⟩ | ⟨-, hzero⟩
  · rw [hn] at hone
    exact ⟨head, head', removed, st, hp, Option.some.inj hone⟩
  · cases hres : (auditPrune noFault Removed.world.store [] 100 0
      (Removed.keys.sealAnchor plain)).2 with
    | error e => rw [hres] at hone; cases hone
    | ok n =>
      rw [hzero n hres] at hres
      rw [hres] at hone
      cases hone

end Loomcycle.AuditChain.PruneSoundness
