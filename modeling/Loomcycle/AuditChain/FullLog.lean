import Loomcycle.AuditChain.AnchorCodec
import Loomcycle.AuditChain.Transactions

/-! # The log behind the tables

The tables hold the end of a longer log: every row a chain ever had, with the key it
was signed under. `ChainHolds` says that a chain's head, anchor and rows are a window
on such a log in which the keys changed at most once, from `old` to `cur`; such a
chain verifies. -/

namespace Loomcycle.AuditChain.FullLog
open Lib.Encoding
open AuditChain.Store AuditChain.Chain AuditChain.Walk
open AuditChain.AnchorCodec

/-- A row of the log and the key that signed it. -/
structure Entry where
  key : Bytes
  row : AuditEventRow

/-- Entries in chain order after a row hashed `prev`, numbered from `want` on. -/
inductive Signed (C : Crypto) (t : Bytes) : Bytes → Int → List Entry → Prop
  | nil (prev : Bytes) (want : Int) : Signed C t prev want []
  | cons {prev : Bytes} {want : Int} {e : Entry} {l : List Entry} :
    e.row.seq = want → e.row.prevHash = prev → rowHash C prev e.row = e.row.hash →
    e.row.mac = chainMAC C e.key .row t e.row.seq e.row.hash [] →
    Signed C t e.row.hash (want + 1) l → Signed C t prev want (e :: l)

def rowsOf (l : List Entry) : List AuditEventRow := l.map Entry.row

@[simp] theorem rowsOf_append (l l' : List Entry) : rowsOf (l ++ l') = rowsOf l ++ rowsOf l' :=
  List.map_append

theorem lastHash_append (prev : Bytes) (l l' : List AuditEventRow) :
    lastHash prev (l ++ l') = lastHash (lastHash prev l) l' := by
  induction l generalizing prev with
  | nil => rfl
  | cons r l ih => exact ih r.hash

namespace Signed
variable {C : Crypto} {t prev : Bytes} {want : Int} {l l' : List Entry}

theorem append (h : Signed C t prev want l)
    (h' : Signed C t (lastHash prev (rowsOf l)) (want + l.length) l') :
    Signed C t prev want (l ++ l') := by
  induction h with
  | nil => simpa [rowsOf, lastHash] using h'
  | cons h1 h2 h3 h4 _ ih =>
    refine .cons h1 h2 h3 h4 (ih ?_)
    simpa [rowsOf, lastHash, add_assoc, add_comm (1 : Int)] using h'

theorem left (h : Signed C t prev want (l ++ l')) : Signed C t prev want l := by
  induction l generalizing prev want with
  | nil => exact .nil _ _
  | cons e l ih =>
    cases h with
    | cons h1 h2 h3 h4 hrest => exact .cons h1 h2 h3 h4 (ih hrest)

theorem right (h : Signed C t prev want (l ++ l')) :
    Signed C t (lastHash prev (rowsOf l)) (want + l.length) l' := by
  induction l generalizing prev want with
  | nil => simpa [rowsOf, lastHash] using h
  | cons e l ih =>
    cases h with
    | cons h1 h2 h3 h4 hrest =>
      have := ih hrest
      simpa [rowsOf, lastHash, add_assoc, add_comm (1 : Int)] using this

theorem seq_range (h : Signed C t prev want l) :
    ∀ r ∈ rowsOf l, want ≤ r.seq ∧ r.seq < want + l.length := by
  induction h with
  | nil => intro r hr; cases hr
  | cons h1 _ _ _ _ ih =>
    intro r hr
    rw [List.length_cons]
    rcases List.mem_cons.mp hr with rfl | hr
    · omega
    · have := ih r hr
      omega

theorem seq_getElem {i : Nat} {r : AuditEventRow} (h : Signed C t prev want l)
    (hr : (rowsOf l)[i]? = some r) : r.seq = want + i := by
  induction h generalizing i with
  | nil => cases hr
  | cons hseq _ _ _ _ ih =>
    cases i with
    | zero =>
      cases hr
      simpa using hseq
    | succ i =>
      rw [ih hr]
      omega

end Signed

/-! ## Which key a MAC names -/

/-- The keys the runtime is configured with, when the log was signed under `old` and
then under `cur`: nothing made with one of two different keys verifies under the
other. Before a rotation the two are the same key. -/
structure KeysFit (C : Crypto) (k : ChainKeys) (old cur : Bytes) : Prop where
  current : k.current = cur
  set : cur ≠ []
  previous : old ≠ cur → k.previous = old ∧ old ≠ [] ∧
    ∀ m, C.hmacSHA256 old m ≠ C.hmacSHA256 cur m

section
variable {C : Crypto} {k : ChainKeys} {old cur : Bytes}

section

variable (hk : KeysFit C k old cur)
include hk

theorem which_old (hne : old ≠ cur) (d : MacDomain) (t : Bytes) (n : Int)
    (hash : Bytes) (extra : List Bytes) :
    k.which C (chainMAC C old d t n hash extra) d t n hash extra = .previous := by
  obtain ⟨hprev, hset, hsep⟩ := hk.previous hne
  unfold ChainKeys.which
  rw [hk.current, hprev, if_neg, if_pos ⟨hset, rfl⟩]
  rintro ⟨-, h⟩
  exact hsep _ (hexEncode_injective h)

/-- The verdict on a MAC made with one of the two keys. -/
theorem which_of_key {key : Bytes} (hkey : key = old ∨ key = cur)
    (d : MacDomain) (t : Bytes) (n : Int) (hash : Bytes) (extra : List Bytes) :
    (key = cur ∧ k.which C (chainMAC C key d t n hash extra) d t n hash extra = .current) ∨
      (key ≠ cur ∧ k.which C (chainMAC C key d t n hash extra) d t n hash extra = .previous) := by
  by_cases hc : key = cur
  · subst hc
    exact .inl ⟨rfl, by rw [ChainKeys.which, hk.current, if_pos ⟨hk.set, rfl⟩]⟩
  · obtain rfl := hkey.resolve_right hc
    exact .inr ⟨hc, which_old hk hc ..⟩

/-- Entries in order are linked: the flag ends up set when it was, or when one of them
is signed under the current key. -/
theorem links_of_signed {t prev : Bytes} {want : Int} {l : List Entry}
    (h : Signed C t prev want l) (hkeys : ∀ e ∈ l, e.key = old ∨ e.key = cur)
    (hrot : l.Pairwise fun a b => a.key = cur → b.key = cur) {rotated : Bool}
    (hflag : rotated = true → ∀ e ∈ l, e.key = cur) :
    Links C k t prev want rotated (rowsOf l) (lastHash prev (rowsOf l)) (want + l.length)
      (rotated || l.any fun e => decide (e.key = cur)) := by
  induction h generalizing rotated with
  | nil =>
    simp only [List.length_nil, Nat.cast_zero, add_zero, List.any_nil, Bool.or_false]
    exact .nil _ _ _
  | @cons prev want e l h1 h2 h3 h4 _ ih =>
    obtain ⟨hhead, htail⟩ := List.pairwise_cons.mp hrot
    have hkeys' := fun x hx => hkeys x (List.mem_cons_of_mem e hx)
    have hlen : want + ((e :: l).length : Int) = want + 1 + l.length := by
      rw [List.length_cons]; push_cast; omega
    rw [hlen]
    have hw := which_of_key hk (hkeys e List.mem_cons_self) .row t e.row.seq e.row.hash []
    rw [← h4] at hw
    rw [List.any_cons, ← Bool.or_assoc]
    rcases hw with ⟨hcur, hw⟩ | ⟨hcur, hw⟩
    · rw [decide_eq_true hcur, Bool.or_true]
      exact .cons (checkLink_ok_iff.mpr ⟨h1, h2, h3, .inl ⟨hw, rfl⟩⟩)
        (ih hkeys' htail fun _ x hx => hhead x hx hcur)
    · have hfalse : rotated = false :=
        Bool.eq_false_iff.mpr fun hr => hcur (hflag hr e List.mem_cons_self)
      rw [decide_eq_false hcur, hfalse]
      exact .cons (checkLink_ok_iff.mpr ⟨h1, h2, h3, .inr ⟨hw, rfl, rfl⟩⟩)
        (ih hkeys' htail nofun)

end

/-- Where a walk starts and the rows determine whether it has seen the rotation. -/
theorem links_det {t prev p p' : Bytes} {want n n' : Int} {rotated b b' : Bool}
    {rows : List AuditEventRow} (h : Links C k t prev want rotated rows p n b)
    (h' : Links C k t prev want rotated rows p' n' b') : b = b' := by
  induction h with
  | nil => cases h'; rfl
  | cons hl _ ih =>
    cases h' with
    | cons hl' hrest' =>
      obtain rfl := Except.ok.inj (hl.symm.trans hl')
      exact ih hrest'

end

/-! ## A window on the log -/

/-- The log of a chain, how much of it was pruned, and the keys that signed the head and
the anchor. -/
structure Log where
  entries : List Entry := []
  pruned : Nat := 0
  headKey : Bytes := []
  anchorKey : Bytes := []

def Log.gone (g : Log) : List AuditEventRow := rowsOf (g.entries.take g.pruned)

def Log.kept (g : Log) : List AuditEventRow := rowsOf (g.entries.drop g.pruned)

/-- The log with a row added under a key. -/
def Log.extend (g : Log) (key : Bytes) (r : AuditEventRow) : Log :=
  { g with entries := g.entries ++ [⟨key, r⟩], headKey := key }

/-- What the anchor says about the rows that are gone. -/
structure AnchorFits (C : Crypto) (old cur t : Bytes) (h : AuditHead) (g : Log) : Prop where
  hash : h.anchorHash = lastHash [] g.gone
  key : g.anchorKey = old ∨ g.anchorKey = cur
  mac : h.anchorMAC = chainMAC C g.anchorKey .anchor t h.anchorSeq h.anchorHash [h.anchorState]
  state : ∃ st, decodeAnchorState h.anchorState = some st ∧
    (∀ u, st.opened.count u = openings t g.gone u) ∧
    (g.anchorKey = cur → st.rotated = true → ∃ e ∈ g.entries.take g.pruned, e.key = cur)

structure ChainHolds (C : Crypto) (old cur : Bytes) (s : AuditStore) (t : Bytes) (g : Log) :
    Prop where
  keys : ∀ e ∈ g.entries, e.key = old ∨ e.key = cur
  rotation : g.entries.Pairwise fun a b => a.key = cur → b.key = cur
  signed : Signed C t [] 1 g.entries
  events : s.events t = g.kept
  pruned_le : g.pruned ≤ g.entries.length
  headSeq : (headOf s t).seq = g.entries.length
  headHash : (headOf s t).hash = lastHash [] (rowsOf g.entries)
  headKey : g.entries ≠ [] → g.headKey = old ∨ g.headKey = cur
  headMac : g.entries ≠ [] → (headOf s t).mac =
    chainMAC C g.headKey .head t (headOf s t).seq (headOf s t).hash []
  headRotated : (∃ e ∈ g.entries, e.key = cur) → g.headKey = cur
  anchorSeq : (headOf s t).anchorSeq = g.pruned
  noAnchor : g.pruned = 0 → (headOf s t).anchorHash = [] ∧ (headOf s t).anchorMAC = [] ∧
    (headOf s t).anchorState = []
  anchor : 0 < g.pruned → AnchorFits C old cur t (headOf s t) g

namespace ChainHolds
variable {C : Crypto} {k : ChainKeys} {old cur t : Bytes} {s : AuditStore} {g : Log}

theorem split (g : Log) : g.entries = g.entries.take g.pruned ++ g.entries.drop g.pruned :=
  (List.take_append_drop _ _).symm

theorem rowsOf_entries (g : Log) : rowsOf g.entries = g.gone ++ g.kept := by
  rw [split g, rowsOf_append]
  simp [Log.gone, Log.kept]

section

variable (h : ChainHolds C old cur s t g)
include h

theorem kept_signed : Signed C t (lastHash [] g.gone) (g.pruned + 1) (g.entries.drop g.pruned) := by
  have hs := h.signed
  rw [split g] at hs
  have hr := hs.right
  rw [List.length_take, min_eq_left h.pruned_le] at hr
  rw [add_comm]
  exact hr

theorem kept_range :
    ∀ r ∈ s.events t, (headOf s t).anchorSeq < r.seq ∧ r.seq ≤ (headOf s t).seq := by
  intro r hr
  rw [h.events] at hr
  have := h.kept_signed.seq_range r hr
  rw [List.length_drop] at this
  rw [h.anchorSeq, h.headSeq]
  omega

theorem rowsAfter_anchor : rowsAfter s t (headOf s t).anchorSeq = g.kept := by
  rw [rowsAfter, List.filter_eq_self.mpr, h.events]
  intro r hr
  simpa using (h.kept_range r hr).1

theorem rowsAfter_head : rowsAfter s t (headOf s t).seq = [] := by
  rw [rowsAfter, List.filter_eq_nil_iff]
  intro r hr
  simpa using (h.kept_range r hr).2

/-- The anchor is accepted, and its flag is set only if the rows left are all signed
under the current key. -/
theorem checkAnchor_ok (hk : KeysFit C k old cur) :
    ∃ st st₀, k.checkAnchor C (headOf s t) = .ok st ∧
      decodeAnchorState (headOf s t).anchorState = some st₀ ∧ st.opened = st₀.opened ∧
      (∀ u, st₀.opened.count u = openings t g.gone u) ∧
      (st.rotated = true → ∃ e ∈ g.entries.take g.pruned, e.key = cur) := by
  have ht := headOf_tenantID s t
  rcases Nat.eq_zero_or_pos g.pruned with hzero | hpos
  · obtain ⟨h1, h2, h3⟩ := h.noAnchor hzero
    have hseq : (headOf s t).anchorSeq = 0 := by rw [h.anchorSeq, hzero]; rfl
    refine ⟨{}, {}, checkAnchor_ok_iff.mpr (.inl ⟨hseq, h1, h2, h3, rfl⟩), ?_, rfl, fun u => ?_,
      fun hr => absurd hr Bool.false_ne_true⟩
    · rw [h3]; rfl
    · simp [Log.gone, hzero, rowsOf, openings]
  · obtain ⟨hhash, hkey, hmac, st₀, hdec, hcount, hflag⟩ := h.anchor hpos
    have hseq : 0 < (headOf s t).anchorSeq := by rw [h.anchorSeq]; omega
    have hw := which_of_key hk hkey .anchor t (headOf s t).anchorSeq (headOf s t).anchorHash
      [(headOf s t).anchorState]
    rw [← hmac] at hw
    rcases hw with ⟨hcur, hw⟩ | ⟨-, hw⟩
    · refine ⟨st₀, st₀, checkAnchor_ok_iff.mpr (.inr ⟨hseq, st₀, hdec, .inl ⟨?_, rfl⟩⟩), hdec, rfl,
        hcount, fun hr => hflag hcur hr⟩
      rw [ht]; exact hw
    · refine ⟨{ st₀ with rotated := false }, st₀,
        checkAnchor_ok_iff.mpr (.inr ⟨hseq, st₀, hdec, .inr ⟨?_, rfl⟩⟩), hdec, rfl, hcount,
        fun hr => absurd hr Bool.false_ne_true⟩
      rw [ht]; exact hw

/-- The hash before the first row that is left. -/
theorem anchorHash_eq : (headOf s t).anchorHash = lastHash [] g.gone := by
  rcases Nat.eq_zero_or_pos g.pruned with hzero | hpos
  · rw [(h.noAnchor hzero).1]
    simp [Log.gone, hzero, rowsOf, lastHash]
  · exact (h.anchor hpos).hash

/-- Rows after the rotation are signed under the current key. -/
theorem drop_cur {n : Nat}
    (hex : ∃ e ∈ g.entries.take n, e.key = cur) : ∀ e ∈ g.entries.drop n, e.key = cur := by
  obtain ⟨e, he, hcur⟩ := hex
  have hrot := h.rotation
  rw [← List.take_append_drop n g.entries, List.pairwise_append] at hrot
  exact fun x hx => hrot.2.2 e he x hx hcur

omit h in
theorem any_cur {l : List Entry} (h : (l.any fun e => decide (e.key = cur)) = true) :
    ∃ e ∈ l, e.key = cur := by
  obtain ⟨e, he, hcur⟩ := List.any_eq_true.mp h
  exact ⟨e, he, of_decide_eq_true hcur⟩

/-- A chain that is a window on its log verifies, if the registry has nothing against
it. -/
theorem verified (hk : KeysFit C k old cur) {reg : Registry}
    (hopen : OpeningHolds t (reg.openings.count t) (s.heads t).isSome (headOf s t).seq) :
    Verified C k s t reg := by
  obtain ⟨st, st₀, hst, -, -, -, hflag⟩ := h.checkAnchor_ok hk
  have hlinks := links_of_signed hk h.kept_signed
    (fun e he => h.keys e (List.mem_of_mem_drop he)) (h.rotation.sublist (List.drop_sublist _ _))
    fun hr => h.drop_cur (hflag hr)
  refine ⟨?_, fun hn => ?_, hopen, fun _ r hr _ => (h.kept_range r hr).1, ?_, h.rowsAfter_head⟩
  · rw [hk.current]; exact hk.set
  · have hseq := h.headSeq
    simp only [headOf, hn, Option.getD_none] at hseq
    have hlen : g.entries.length = 0 := by omega
    have hnil := List.length_eq_zero_iff.mp hlen
    simp [rowsAfter, h.events, Log.kept, hnil, rowsOf]
  · refine ⟨st, g.pruned + 1 + (g.entries.drop g.pruned).length,
      st.rotated || (g.entries.drop g.pruned).any fun e => decide (e.key = cur), hst, ?_, ?_,
      fun hpos => ?_⟩
    · rw [h.rowsAfter_anchor, h.anchorHash_eq, h.headHash, rowsOf_entries, lastHash_append,
        h.anchorSeq]
      exact hlinks
    · rw [h.headSeq, List.length_drop]
      omega
    · have hne : g.entries ≠ [] := by
        rintro hnil
        rw [h.headSeq, hnil] at hpos
        exact absurd hpos (by simp)
      have hw := which_of_key hk (h.headKey hne) .head t (headOf s t).seq (headOf s t).hash []
      rw [← h.headMac hne] at hw
      rcases hw with ⟨-, hw⟩ | ⟨hcur, hw⟩
      · rw [hw]; exact ⟨by decide, fun h => by cases h.2⟩
      · refine ⟨by rw [hw]; decide, fun hrot => hcur (h.headRotated ?_)⟩
        rcases Bool.or_eq_true_iff.mp hrot.1 with hr | hr
        · obtain ⟨e, he, hc⟩ := hflag hr
          exact ⟨e, List.mem_of_mem_take he, hc⟩
        · obtain ⟨e, he, hc⟩ := any_cur hr
          exact ⟨e, List.mem_of_mem_drop he, hc⟩

end

end ChainHolds

end Loomcycle.AuditChain.FullLog
