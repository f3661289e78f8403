import Loomcycle.AuditChain.Chain
import Loomcycle.Lib.Utf8Cut

/-! # From events to chain rows

`SafeText`, `ChainTenant` and `RowFor` of `internal/auditchain/chain.go`, and the
batch `StoreSink.appendEvents` hands to the store. Every text field of a row goes
through `safeText`, so what the chain stores is valid UTF-8, and what was escaped can be
read back. -/

namespace Loomcycle.AuditChain.Sink
open Lib.Encoding Lib.JsonText Lib.Utf8
open AuditChain.Store AuditChain.Chain

/-- How `SafeText` writes one rune, or one byte of an invalid sequence. -/
def safeChunk : Chunk → Bytes
  | .stray b => [92, 120, hexDigit (b.toNat / 16), hexDigit (b.toNat % 16)]
  | .rune r bs =>
    if r = 0 then [92, 120, 48, 48]
    else if r = 92 then [92, 92]
    else bs

/-- `SafeText`. -/
def safeText (s : Bytes) : Bytes :=
  if validString s && !s.contains 0 then s else (chunks s).flatMap safeChunk

example : safeText [97, 0, 92, 255] = [97, 92, 120, 48, 48, 92, 92, 92, 120, 102, 102] := by decide

theorem validString_ascii_append {s t : Bytes} (hs : ∀ b ∈ s, b.toNat < 0x80)
    (ht : validString t = true) : validString (s ++ t) = true := by
  induction s with
  | nil => exact ht
  | cons b s ih =>
    obtain ⟨hb, hs⟩ := List.forall_mem_cons.mp hs
    exact validString_append_of_reads (c := .rune b.toNat [b]) (next_ascii hb) rfl (ih hs)

theorem hexDigit_ascii {n : Nat} (h : n < 16) : (hexDigit n).toNat < 0x80 := by
  have : ∀ m : Fin 16, (hexDigit m).toNat < 0x80 := by decide
  exact this ⟨n, h⟩

theorem validString_safeChunk {c : Chunk} (hc : c.isRune = true → c.Reads) {t : Bytes}
    (ht : validString t = true) : validString (safeChunk c ++ t) = true := by
  cases c with
  | stray b =>
    have hhi : b.toNat / 16 < 16 := Nat.div_lt_of_lt_mul b.toNat_lt
    have hlo : b.toNat % 16 < 16 := Nat.mod_lt _ (by decide)
    refine validString_ascii_append ?_ ht
    simp [safeChunk, hexDigit_ascii hhi, hexDigit_ascii hlo]
  | rune r bs =>
    simp only [safeChunk]
    split
    · exact validString_ascii_append (by simp) ht
    · split
      · exact validString_ascii_append (by simp) ht
      · exact validString_append_of_reads (hc rfl) rfl ht

theorem reads_next {s t : Bytes} {c : Chunk} (h : next s = some (c, t)) :
    c.isRune = true → c.Reads :=
  reads_of_mem_chunks (chunks_of_next h ▸ List.mem_cons_self)

/-- What `SafeText` returns is valid UTF-8, whatever it was given. -/
theorem validString_safeText (s : Bytes) : validString (safeText s) = true := by
  unfold safeText
  split
  · next h => exact (Bool.and_eq_true_iff.mp h).1
  next h =>
  clear h
  induction s using chunks_induction with
  | nil => rfl
  | cons s c t h ih =>
    rw [chunks_of_next h, List.flatMap_cons]
    exact validString_safeChunk (reads_next h) ih

theorem zero_not_mem_safeText (s : Bytes) : 0 ∉ safeText s := by
  intro h
  unfold safeText at h
  split at h
  · next hclean => simp [h] at hclean
  obtain ⟨c, hc, h⟩ := List.mem_flatMap.mp h
  cases c with
  | stray b =>
    have hhex : ∀ n : Fin 16, hexDigit n ≠ 0 := by decide
    have hhi := hhex ⟨b.toNat / 16, Nat.div_lt_of_lt_mul b.toNat_lt⟩
    have hlo := hhex ⟨b.toNat % 16, Nat.mod_lt _ (by decide)⟩
    simp [safeChunk, Ne.symm hhi, Ne.symm hlo] at h
  | rune r bs =>
    simp only [safeChunk] at h
    split at h
    · simp at h
    · next hr =>
      split at h
      · simp at h
      · exact hr (rune_of_mem_ascii (reads_of_mem_chunks hc rfl) h (by decide))

/-- Reads an escaped field back. -/
def unescape : Bytes → Bytes
  | [] => []
  | b :: t =>
    if b = 92 then
      match t with
      | [] => []
      | c :: t =>
        if c = 92 then 92 :: unescape t
        else match t with
          | h :: l :: t =>
            UInt8.ofNat ((hexVal h).getD 0 * 16 + (hexVal l).getD 0) :: unescape t
          | _ => []
    else b :: unescape t

theorem unescape_copied {bs : Bytes} (h : 92 ∉ bs) (t : Bytes) :
    unescape (bs ++ t) = bs ++ unescape t := by
  induction bs with
  | nil => rfl
  | cons b bs ih =>
    obtain ⟨hb, h⟩ := not_or.mp (mt List.mem_cons.mpr h)
    rw [List.cons_append, unescape.eq_def]
    simp only [if_neg (Ne.symm hb), ih h, List.cons_append]

theorem unescape_safeChunk {c : Chunk} (hc : c.isRune = true → c.Reads) (t : Bytes) :
    unescape (safeChunk c ++ t) = c.bytes ++ unescape t := by
  cases c with
  | stray b =>
    have hlt := b.toNat_lt
    have hval : b.toNat / 16 * 16 + b.toNat % 16 = b.toNat := by omega
    simp only [safeChunk, List.cons_append, List.nil_append, unescape, Chunk.bytes,
      if_true]
    rw [if_neg (by decide), hexVal_hexDigit (by omega), hexVal_hexDigit (by omega),
      Option.getD_some, Option.getD_some, hval, UInt8.ofNat_toNat]
  | rune r bs =>
    obtain rfl := encodeRune_of_next (hc rfl [])
    simp only [safeChunk]
    split
    · next hr =>
      subst hr
      rfl
    · split
      · next hr =>
        subst hr
        exact (unescape.eq_def (92 :: 92 :: t)).trans rfl
      · next hr =>
        exact unescape_copied (fun h => hr (rune_of_mem_ascii (hc rfl) h (by decide))) t

theorem unescape_chunks (s : Bytes) : unescape ((chunks s).flatMap safeChunk) = s := by
  induction s using chunks_induction with
  | nil => rfl
  | cons s c t h ih =>
    rw [chunks_of_next h, List.flatMap_cons, unescape_safeChunk (reads_next h), ih,
      ← (next_bytes h).1]

/-- What `SafeText` returns is text without a NUL that it returns unchanged; what it escaped can
be read back. -/
theorem safeText_reversible (s : Bytes) :
    validString (safeText s) = true ∧ 0 ∉ safeText s ∧ safeText (safeText s) = safeText s ∧
      (safeText s = s ∨ unescape (safeText s) = s) := by
  have hvalid := validString_safeText s
  have hzero := zero_not_mem_safeText s
  refine ⟨hvalid, hzero, ?_, ?_⟩
  · rw [safeText, if_pos (by simp [hvalid, hzero])]
  · unfold safeText
    split
    · exact .inl rfl
    · exact .inr (unescape_chunks s)

/-! ## Rows -/

/-- What a chain row takes from an `audit.Event`; `payload` is the event as JSON. -/
structure Event where
  ts : Int
  actorTenant : Bytes := []
  actorSubject : Bytes := []
  actorTokenSuffix : Bytes := []
  action : Bytes
  targetDefID : Bytes := []
  targetTenant : Bytes := []
  targetSubject : Bytes := []
  targetName : Bytes := []
  payload : Bytes
  deriving DecidableEq, Repr

/-- `ChainTenant`. -/
def chainTenant (ev : Event) : Bytes :=
  if ev.targetTenant ≠ [] then ev.targetTenant else ev.actorTenant

/-- `"token:…"`. -/
def tokenMark : Bytes := [116, 111, 107, 101, 110, 58, 0xE2, 0x80, 0xA6]

example : tokenMark = "token:…".toUTF8.toList := by decide +kernel

/-- `RowFor`: the row of an event, before the store numbers it and the seal signs it. -/
def rowFor (ev : Event) : AuditEventRow :=
  let actor := if ev.actorSubject = [] ∧ ev.actorTokenSuffix ≠ [] then
      tokenMark ++ ev.actorTokenSuffix
    else ev.actorSubject
  let subject := [ev.targetName, ev.targetDefID].foldl (fun subject s =>
    if subject = [] then s else subject) ev.targetSubject
  { tenantID := safeText (chainTenant ev)
    seq := 0
    ts := ev.ts
    actor := safeText actor
    action := safeText ev.action
    subject := safeText subject
    payload := safeText ev.payload
    prevHash := []
    hash := []
    mac := [] }

/-- `openedRow`: the operator chain's record that a tenant's chain exists. -/
def openedRow (tenant : Bytes) (ts : Int) (payload : Bytes) : AuditEventRow :=
  { rowFor { ts := ts, action := actionChainOpened, targetTenant := tenant, payload := payload } with
    tenantID := [], subject := tenant }

theorem openedRow_action (tenant : Bytes) (ts : Int) (payload : Bytes) :
    (openedRow tenant ts payload).action = actionChainOpened := by
  have h : safeText actionChainOpened = actionChainOpened := by decide +kernel
  exact h

/-- The opening record `appendEvents` passes along with a batch. -/
def openedFor (rows : List AuditEventRow) (ts : Int) (payload : Bytes) : Option AuditEventRow :=
  match rows with
  | [] => none
  | r :: _ => if r.tenantID ≠ [] then some (openedRow r.tenantID ts payload) else none

/-- `appendEvents`; `payload` is the opening event as JSON. The batch is never empty
(`rows[0]` is read before the store is called). -/
def appendEvents (C : Crypto) (k : ChainKeys) (fail : Fault) (s : AuditStore) (ev : Event)
    (evs : List Event) (payload : Bytes) : AuditStore × Except String Appended :=
  let rows := (ev :: evs).map rowFor
  match auditAppend fail s rows (k.seal C) (openedFor rows ev.ts payload) with
  | (s, .error e) => (s, .error ("audit: append: " ++ e))
  | r => r

end Loomcycle.AuditChain.Sink
