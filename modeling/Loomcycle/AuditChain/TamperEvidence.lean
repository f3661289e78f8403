import Loomcycle.AuditChain.History

/-! # Tamper evidence

An honest history, then any content of the tables put there by someone who has no
key: what a verdict of OK still says about the rows and the head.

A row is pinned down by its signature alone: the signature fixes its tenant, its
number and its hash, and the hash fixes every field of the row it was computed from,
the previous hash included. -/

namespace Loomcycle.AuditChain.TamperEvidence
open Lib.Encoding Lib.Transition
open AuditChain.Store AuditChain.Chain AuditChain.Walk
open AuditChain.Transactions AuditChain.History

/-! ## What a hash fixes -/

section
variable {C : Crypto}

theorem canonical_head (r : AuditEventRow) : ∃ rest, canonical r = 18 :: rest := by
  exact List.head?_eq_some_iff.mp rfl

variable {r' r : AuditEventRow}

/-- Behind a hexadecimal hash, a row's bytes are read off where the hash ends. -/
theorem canonical_append_inj {p q : Bytes} (hp : IsHex p) (hq : IsHex q)
    (h : p ++ canonical r = q ++ canonical r') :
    p = q ∧ r.tenantID = r'.tenantID ∧ r.seq = r'.seq ∧ r.ts = r'.ts ∧ r.actor = r'.actor ∧
      r.action = r'.action ∧ r.subject = r'.subject ∧ r.payload = r'.payload := by
  obtain ⟨c, hc⟩ := canonical_head r
  obtain ⟨c', hc'⟩ := canonical_head r'
  rw [hc, hc'] at h
  obtain ⟨hpq, hcan⟩ := isHex_append_inj hp hq (by decide) (by decide) h
  rw [← hc, ← hc'] at hcan
  have hfields := lp_injective hcan
  simp only [List.cons.injEq, true_and, and_true] at hfields
  obtain ⟨htenant, hseq, hts, hactor, haction, hsubject, hpayload⟩ := hfields
  exact ⟨hpq, htenant, Lib.JsonText.formatInt_injective hseq,
    Lib.JsonText.formatInt_injective hts, hactor, haction,
    hsubject, hpayload⟩

/-- Fields behind their lengths are read back one by one, and so are a row's behind the hash of the
row before, empty or not. -/
theorem hashed_bytes_injective :
    (∀ xs ys : List Bytes, lp xs = lp ys → xs = ys) ∧
    ∀ (p q : Bytes) (r r' : AuditEventRow), IsHex p → IsHex q →
      p ++ canonical r = q ++ canonical r' →
      p = q ∧ r.tenantID = r'.tenantID ∧ r.seq = r'.seq ∧ r.ts = r'.ts ∧ r.actor = r'.actor ∧
        r.action = r'.action ∧ r.subject = r'.subject ∧ r.payload = r'.payload :=
  ⟨fun _ _ => lp_injective, fun _ _ _ _ => canonical_append_inj⟩

/-- A row with a sealed row's hash and MAC is that row. -/
theorem eq_of_sealed (hsha : Function.Injective C.sha256) (hr' : SealedRow C r')
    (hprev : IsHex r.prevHash) (hrow : rowHash C r.prevHash r = r.hash) (hhash : r'.hash = r.hash)
    (hmac : r'.mac = r.mac) : r = r' := by
  have h : rowHash C r.prevHash r = rowHash C r'.prevHash r' := by
    rw [hrow, ← hr'.hash_eq, hhash]
  obtain ⟨hp, h1, h2, h3, h4, h5, h6, h7⟩ := canonical_append_inj hprev hr'.prevHash_hex
    (hsha (hexEncode_injective h))
  cases r
  cases r'
  simp only [AuditEventRow.mk.injEq]
  exact ⟨h1, h2, h3, h4, h5, h6, h7, hp, hhash.symm, hmac.symm⟩

/-- Along linked rows every previous hash is hexadecimal, if the first one is. -/
theorem links_prevHash_hex {k : ChainKeys} {t prev prev' : Bytes} {want want' : Int}
    {rotated rotated' : Bool} {rows : List AuditEventRow}
    (h : Links C k t prev want rotated rows prev' want' rotated') (hprev : IsHex prev) :
    ∀ r ∈ rows, IsHex r.prevHash := by
  induction h with
  | nil => intro r hr; cases hr
  | cons hl _ ih =>
    obtain ⟨-, hp, hhash, -⟩ := checkLink_ok_iff.mp hl
    intro r hr
    rcases List.mem_cons.mp hr with rfl | hr
    · rw [hp]; exact hprev
    · refine ih ?_ r hr
      rw [← hhash]
      exact isHex_hexEncode _

end

/-! ## The adversary -/

/-- The MACs a content of the tables presents, and for what. -/
inductive Presents (s : AuditStore) : Bytes → MacDomain → Bytes → Int → Bytes → List Bytes → Prop
  | row {t : Bytes} {r : AuditEventRow} :
    r ∈ s.events t → Presents s r.mac .row t r.seq r.hash []
  | head {t : Bytes} {h : AuditHead} :
    s.heads t = some h → Presents s h.mac .head t h.seq h.hash []
  | anchor {t : Bytes} {h : AuditHead} : s.heads t = some h →
    Presents s h.anchorMAC .anchor t h.anchorSeq h.anchorHash [h.anchorState]

/-- The tables hold no forged MAC: one that verifies under a key in use was made with
that key, for exactly what it stands beside. -/
def Unforged (C : Crypto) (k : ChainKeys) (ledger : List Signature) (s : AuditStore) : Prop :=
  ∀ {mac d t n hash extra}, Presents s mac d t n hash extra →
    ∀ {key}, (key = k.current ∨ key = k.previous) → key ≠ [] →
      mac = chainMAC C key d t n hash extra → ⟨key, d, t, n, hash, extra⟩ ∈ ledger

/-- `Unforged` for one key and one chain, as a check. -/
def unforgedAt (C : Crypto) (key : Bytes) (ledger : List Signature) (s : AuditStore) (t : Bytes) :
    Bool :=
  (s.events t).all (fun r => decide (r.mac = chainMAC C key .row t r.seq r.hash [] →
    ⟨key, .row, t, r.seq, r.hash, []⟩ ∈ ledger)) &&
  (s.heads t).all fun h =>
    decide (h.mac = chainMAC C key .head t h.seq h.hash [] →
      ⟨key, .head, t, h.seq, h.hash, []⟩ ∈ ledger) &&
    decide (h.anchorMAC = chainMAC C key .anchor t h.anchorSeq h.anchorHash [h.anchorState] →
      ⟨key, .anchor, t, h.anchorSeq, h.anchorHash, [h.anchorState]⟩ ∈ ledger)

theorem unforged_of_checks {C : Crypto} {k : ChainKeys} {ledger : List Signature} {s : AuditStore}
    (h : ∀ t key, (key = k.current ∨ key = k.previous) → key ≠ [] →
      unforgedAt C key ledger s t = true) : Unforged C k ledger s := by
  intro mac d t n hash extra hp key hkey hkne hmac
  have ht := h t key hkey hkne
  simp only [unforgedAt, Bool.and_eq_true, List.all_eq_true, decide_eq_true_eq] at ht
  obtain ⟨hrows, hheads⟩ := ht
  cases hp with
  | row hr => exact hrows _ hr hmac
  | head hh =>
    simp only [hh, Option.all_some, Bool.and_eq_true, decide_eq_true_eq] at hheads
    exact hheads.1 hmac
  | anchor hh =>
    simp only [hh, Option.all_some, Bool.and_eq_true, decide_eq_true_eq] at hheads
    exact hheads.2 hmac

/-- What a verdict of OK is to mean for a chain: every row from the anchor to the head
is there once and is a row the runtime sealed, each follows the one before it, the
last one is the head's, and the head is one the runtime signed. -/
structure Evident (C : Crypto) (w : World) (s : AuditStore) (t : Bytes) (rep : VerifyReport) :
    Prop where
  rows : ∀ n, rep.anchorSeq < n → n ≤ rep.headSeq →
    ∃ r ∈ s.events t, r.seq = n ∧ r ∈ w.sealed ∧ ∀ r' ∈ s.events t, r'.seq = n → r' = r
  order : ∀ r ∈ s.events t, ∀ r' ∈ s.events t, rep.anchorSeq < r.seq → r'.seq = r.seq + 1 →
    r'.seq ≤ rep.headSeq → r'.prevHash = r.hash
  last : ∀ r ∈ s.events t, rep.anchorSeq < r.seq → r.seq = rep.headSeq →
    ∀ h, s.heads t = some h → r.hash = h.hash
  head : ∀ h, s.heads t = some h → ∃ key, h.mac = chainMAC C key .head t h.seq h.hash [] ∧
    ⟨key, .head, t, h.seq, h.hash, []⟩ ∈ w.ledger

def TamperEvident (C : Crypto) (k : ChainKeys) (w : World) (s : AuditStore) (t : Bytes) : Prop :=
  ∀ rep, k.verify C s t = .ok rep → rep.ok = true → Evident C w s t rep

/-- A head at or below 0, whose signature verification does not ask for, with nothing
else in the way: the anchor holds and is what the head names, no row lies past the
head or below the anchor, and the registry has nothing against the chain. -/
def UnsignedHeadPasses (C : Crypto) (k : ChainKeys) (s : AuditStore) (t : Bytes) : Prop :=
  ∃ h reg, s.heads t = some h ∧ h.seq ≤ 0 ∧ k.current ≠ [] ∧
    (∃ st, k.checkAnchor C h = .ok st) ∧ h.anchorHash = h.hash ∧
    (0 < h.anchorSeq → ∀ r ∈ s.events t, 0 < r.seq → h.anchorSeq < r.seq) ∧
    (∀ r ∈ s.events t, r.seq ≤ h.seq) ∧
    Registered C k s t reg ∧ OpeningHolds t (reg.openings.count t) true h.seq

/-! ## What a verdict of OK rests on -/

section
variable {C : Crypto} {k : ChainKeys} {w : World} {s : AuditStore} {t : Bytes}

variable {st : AnchorState} {r r' : AuditEventRow} {rows : List AuditEventRow}
  {rotated rotated' : Bool} {reg : Registry}

theorem anchorHash_hex (hw : Honest C w) (hu : Unforged C k w.ledger s)
    (h : k.checkAnchor C (headOf s t) = .ok st) : IsHex (headOf s t).anchorHash := by
  rcases checkAnchor_ok_iff.mp h with ⟨-, hnil, -⟩ | ⟨hpos, st₀, -, hwhich⟩
  · rw [hnil]
    intro b hb
    cases hb
  cases hh : s.heads t with
  | none =>
    simp only [headOf, hh, Option.getD_none] at hpos
    exact absurd hpos (lt_irrefl _)
  | some g =>
    rw [headOf_of_some hh] at hwhich ⊢
    have hne : k.which C g.anchorMAC .anchor g.tenantID g.anchorSeq g.anchorHash
        [g.anchorState] ≠ .none := by
      rcases hwhich with ⟨hwhich, -⟩ | ⟨hwhich, -⟩ <;> rw [hwhich] <;> decide
    obtain ⟨key, hkey, hkne, hmac⟩ := which_ne_none hne
    rw [s.headTenant t g hh] at hmac
    exact hw.anchorHash _ (hu (.anchor hh) hkey hkne hmac) rfl

/-- A stored row that is linked and signed is a row the runtime sealed. -/
theorem mem_sealed (hsha : Function.Injective C.sha256) (hw : Honest C w)
    (hu : Unforged C k w.ledger s) {prev prev' : Bytes} {want want' : Int}
    (h : Links C k t prev want rotated rows prev' want' rotated') (hprev : IsHex prev)
    (hr : r ∈ rows) (hev : r ∈ s.events t) : r ∈ w.sealed := by
  obtain ⟨hhash, key, hkey, hkne, hmac⟩ := h.row_signed r hr
  obtain ⟨r', hr', htenant, hseq, hhash', hmac', -⟩ := hw.rows _ (hu (.row hev) hkey hkne hmac) rfl
  have heq : r = r' := by
    refine eq_of_sealed hsha (hw.sealed r' hr') (links_prevHash_hex h hprev r hr) hhash hhash' ?_
    rw [hmac', hmac]
    rfl
  rw [heq]
  exact hr'

theorem eq_of_seq (s : AuditStore) (hr : r ∈ s.events t) (hr' : r' ∈ s.events t)
    (h : r'.seq = r.seq) : r' = r := by
  have hnodup : ((s.events t).map AuditEventRow.seq).Nodup :=
    List.pairwise_map.mpr ((s.sorted t).imp fun hlt => ne_of_lt hlt)
  exact List.inj_on_of_nodup_map hnodup hr' hr h

/-- Two linked rows with consecutive numbers are linked to each other. -/
theorem links_prevHash {prev prev' : Bytes} {want want' : Int}
    (h : Links C k t prev want rotated rows prev' want' rotated') (hr : r ∈ rows) (hr' : r' ∈ rows)
    (hseq : r'.seq = r.seq + 1) : r'.prevHash = r.hash := by
  induction h with
  | nil => cases hr
  | cons hl hrest ih =>
    have hwant := (checkLink_ok_iff.mp hl).1
    rcases List.mem_cons.mp hr with rfl | hmem <;> rcases List.mem_cons.mp hr' with rfl | hmem'
    · omega
    · exact hrest.first hmem' (by omega)
    · have := (hrest.seq_mem r hmem).1
      omega
    · exact ih hmem hmem'

/-- Once the head is known to be signed, the rest of the verdict holds. -/
theorem evident_of_verified (hsha : Function.Injective C.sha256) (hw : Honest C w)
    (hu : Unforged C k w.ledger s) (hv : Verified C k s t reg)
    (hpos : ∀ h, s.heads t = some h → 0 < h.seq) : Evident C w s t (okReport s t) := by
  obtain ⟨st, want, rotated, hst, hlinks, hreached, hsigned⟩ := hv.links
  have hhex := anchorHash_hex hw hu hst
  have hmem : ∀ r ∈ s.events t, (headOf s t).anchorSeq < r.seq →
      r ∈ rowsAfter s t (headOf s t).anchorSeq := fun r hr hlt => mem_rowsAfter.mpr ⟨hr, hlt⟩
  refine ⟨fun n hlo hhi => ?_, fun r hr r' hr' hlo hseq _ => ?_, fun r hr hlo hhi h hh => ?_,
    fun h hh => ?_⟩
  · simp only [okReport] at hlo hhi
    obtain ⟨r, hr, hrn⟩ := hlinks.exists_seq (n := n) (by omega) (by omega)
    have hev := (mem_rowsAfter.mp hr).1
    exact ⟨r, hev, hrn, mem_sealed hsha hw hu hlinks hhex hr hev,
      fun r' hr' h => eq_of_seq s hev hr' (by omega)⟩
  · simp only [okReport] at hlo
    exact links_prevHash hlinks (hmem r hr hlo) (hmem r' hr' (by omega)) hseq
  · -- the row at the head's number is the last one, since none lies past the head
    simp only [okReport] at hlo hhi
    obtain ⟨l, l', hl⟩ := List.append_of_mem (hmem r hr hlo)
    have hl' := (rowsAfter_page (hl.trans (List.append_cons ..))).2
    rw [hhi, hv.past] at hl'
    have hend := hlinks.prev_eq
    rw [hl, ← hl', lastHash_concat] at hend
    rw [← hend, headOf_of_some hh]
  · rw [headOf_of_some hh] at hsigned
    obtain ⟨hne, -⟩ := hsigned (hpos h hh)
    obtain ⟨key, hkey, hkne, hmac⟩ := which_ne_none hne
    exact ⟨key, hmac, hu (.head hh) hkey hkne hmac⟩

/-- Nothing asks such a head for its signature. -/
theorem verified_of_unsigned {h : AuditHead} (hh : s.heads t = some h) (hseq : h.seq ≤ 0)
    (hkey : k.current ≠ []) (hst : k.checkAnchor C h = .ok st) (hhash : h.anchorHash = h.hash)
    (hlow : 0 < h.anchorSeq → ∀ r ∈ s.events t, 0 < r.seq → h.anchorSeq < r.seq)
    (hpast : ∀ r ∈ s.events t, r.seq ≤ h.seq)
    (hopen : OpeningHolds t (reg.openings.count t) true h.seq) : Verified C k s t reg := by
  have hnone : ∀ n, h.seq ≤ n → rowsAfter s t n = [] := fun n hn =>
    rowsAfter_eq_nil.mpr fun r hr => (hpast r hr).trans hn
  have hanchor := checkAnchor_nonneg hst
  have hof := headOf_of_some hh
  refine ⟨hkey, fun hn => ?_, ?_, ?_, ?_, ?_⟩
  · rw [hh] at hn; cases hn
  · rw [hof, hh]; exact hopen
  · rw [hof]; exact hlow
  · rw [hof, hnone h.anchorSeq (by omega), ← hhash]
    refine ⟨st, h.anchorSeq + 1, st.rotated, hst, .nil _ _ _, by omega, fun hpos => ?_⟩
    omega
  · rw [hof, hnone h.seq le_rfl]

/-- For every honest history and every content of the tables without a forged MAC, a
verdict of OK is evidence exactly when no unsigned head slips through: with a stored
head past 0, in particular, always. -/
theorem tamperEvident_iff (hsha : Function.Injective C.sha256)
    (hrun : Run (step C) Any World.init w) (hu : Unforged C k w.ledger s) :
    TamperEvident C k w s t ↔ ¬UnsignedHeadPasses C k s t := by
  have hw := honest_of_run hrun
  constructor
  · rintro hte ⟨h, reg, hh, hseq, hkey, ⟨st, hst⟩, hhash, hlow, hpast, hreg, hopen⟩
    have hv := verified_of_unsigned hh hseq hkey hst hhash hlow hpast hopen
    obtain ⟨key, -, hsig⟩ := (hte _ (verify_of_verified hreg hv) rfl).head h hh
    have := hw.headSeq _ hsig rfl
    simp only at this
    omega
  · intro hno rep hrep hok
    obtain ⟨reg, hreg, hv, rfl⟩ := verified_of_verify hrep hok
    refine evident_of_verified hsha hw hu hv fun h hh => ?_
    by_contra hle
    obtain ⟨st, want, rotated, hst, hlinks, -, -⟩ := hv.links
    have hof := headOf_of_some hh
    have hopening := hv.opening
    rw [hof] at hst hlinks
    have hanchor := checkAnchor_nonneg hst
    have hpast := rowsAfter_eq_nil.mp hv.past
    rw [hof] at hpast
    have hnil : rowsAfter s t h.anchorSeq = [] :=
      rowsAfter_eq_nil.mpr fun r hr => (hpast r hr).trans (by omega)
    rw [hnil] at hlinks
    have hhash := hlinks.prev_eq
    have hlow := hv.low
    rw [hof] at hlow hopening
    rw [hh] at hopening
    exact hno ⟨h, reg, hh, by omega, hv.key, ⟨st, hst⟩, hhash.symm, hlow, hpast, hreg, hopening⟩

end

/-! ## A chain removed without a trace

One event of a tenant is recorded. Then its rows are deleted and its head is set to
-1: the operator chain's record of the opening is met by a head that is not 0, and a
head at -1 is asked for no signature. -/

namespace Removed

def keys : ChainKeys := ⟨[1], []⟩

def tenant : Bytes := [97]

def event : Sink.Event := { ts := 5, action := [99], targetTenant := tenant, payload := [] }

/-- The tables and the ledger once the event is recorded. -/
def world : World :=
  let rows := [Sink.rowFor event]
  { store := (auditAppend noFault .empty rows (keys.seal plain) (Sink.openedFor rows 5 [])).1
    sealed := sealedBy plain keys .empty rows (Sink.openedFor rows 5 [])
    ledger := (sealedBy plain keys .empty rows (Sink.openedFor rows 5 [])).flatMap
      (rowSignatures keys) }

/-- The tables afterwards. -/
def tampered : AuditStore :=
  (world.store.deleteEvents tenant 0 1).updateHead tenant fun _ =>
    { tenantID := tenant, seq := -1 }

theorem world_run : Run (step plain) Any World.init world :=
  .tail (a := .append keys [Sink.rowFor event] (Sink.openedFor [Sink.rowFor event] 5 []) noFault)
    (.refl _) trivial rfl

theorem other_chains {u : Bytes} (hu : u ≠ []) (hu' : u ≠ tenant) :
    world.store.events u = [] ∧ world.store.heads u = none := by
  rcases auditAppend_cases noFault .empty [Sink.rowFor event] (keys.seal plain)
    (Sink.openedFor [Sink.rowFor event] 5 []) with h | ⟨s', a, hbody, h⟩
  · simp only [world, h]
    exact ⟨rfl, rfl⟩
  · obtain ⟨t, -, hall, hw, hdom⟩ := auditAppendBody_ok hbody
    have ht : t = tenant := by
      rw [← (hall _ (List.mem_singleton_self _)).2]
      decide
    subst ht
    have hne : ∀ r ∈ openedRows .empty tenant (Sink.openedFor [Sink.rowFor event] 5 []) ++
        [Sink.rowFor event], r.tenantID ≠ u := by
      intro r hr
      rcases List.mem_cons.mp hr with rfl | hr
      · exact Ne.symm hu
      · rw [(hall r hr).2]
        exact Ne.symm hu'
    simp only [world, h]
    exact ⟨hw.events_ne hne, (hdom u).mpr ⟨rfl, hne⟩⟩

theorem unforged_of_small {s : AuditStore}
    (hrest : ∀ u, u ≠ [] → u ≠ tenant → s.events u = [] ∧ s.heads u = none)
    (hop : unforgedAt plain [1] world.ledger s [] = true)
    (ht : unforgedAt plain [1] world.ledger s tenant = true) :
    Unforged plain keys world.ledger s := by
  refine unforged_of_checks fun u key hkey hkne => ?_
  obtain rfl : key = [1] := hkey.resolve_right hkne
  by_cases hu : u = []
  · rw [hu]; exact hop
  · by_cases hu' : u = tenant
    · rw [hu']; exact ht
    · obtain ⟨he, hh⟩ := hrest u hu hu'
      simp [unforgedAt, he, hh]

theorem recorded_unforged : Unforged plain keys world.ledger world.store :=
  unforged_of_small (fun _ => other_chains) (by decide +kernel) (by decide +kernel)

theorem tampered_unforged : Unforged plain keys world.ledger tampered := by
  refine unforged_of_small (fun u hu hu' => ?_) (by decide +kernel) (by decide +kernel)
  obtain ⟨he, hh⟩ := other_chains hu hu'
  simp only [tampered, updateHead_events, deleteEvents_events, updateHead_heads,
    deleteEvents_heads, Function.update_of_ne hu']
  exact ⟨he, hh⟩

end Removed

/-- The runtime sealed a row of the tenant, the tables hold none and no forged MAC, and
the verdict is OK, on a head that nobody signed. -/
theorem removed_chain_verifies :
    Run (step plain) Any World.init Removed.world ∧ Function.Injective plain.sha256 ∧
      Unforged plain Removed.keys Removed.world.ledger Removed.tampered ∧
      (∃ r ∈ Removed.world.sealed, r.tenantID = Removed.tenant) ∧
      Removed.tampered.events Removed.tenant = [] ∧
      ¬TamperEvident plain Removed.keys Removed.world Removed.tampered Removed.tenant := by
  refine ⟨Removed.world_run, fun _ _ h => h, Removed.tampered_unforged, by decide +kernel,
    by decide +kernel, fun hte => ?_⟩
  have hok : (match Removed.keys.verify plain Removed.tampered Removed.tenant with
      | .ok rep => rep.ok
      | .error _ => false) = true := by decide +kernel
  split at hok
  · rename_i rep hrep
    obtain ⟨key, -, hsig⟩ := (hte rep hrep hok).head
      { tenantID := Removed.tenant, seq := -1 } (by decide +kernel)
    have hseq : ∀ g ∈ Removed.world.ledger, g.seq ≠ -1 := by decide +kernel
    exact hseq _ hsig rfl
  · cases hok

/-- The tables as the runtime left them meet the condition. -/
theorem tamperEvident_recorded :
    TamperEvident plain Removed.keys Removed.world Removed.world.store Removed.tenant := by
  refine (tamperEvident_iff (fun _ _ h => h) Removed.world_run Removed.recorded_unforged).mpr ?_
  rintro ⟨h, reg, hh, hseq, -⟩
  have hpos : (Removed.world.store.heads Removed.tenant).all (fun h => decide (0 < h.seq)) =
      true := by decide +kernel
  simp only [hh, Option.all_some, decide_eq_true_eq] at hpos
  omega

end Loomcycle.AuditChain.TamperEvidence
