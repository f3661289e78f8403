import Loomcycle.AuditChain.Chain

/-! # What the loops over a chain's rows accept

`checkLink` is shared by the verification and by the prune's seal. `Links` says what
a run of it over a list of rows accepts; the loops of `verifyChain`, `SealAnchor` and
`ReadRegistry` are then characterised by it, with the pages read away. -/

namespace Loomcycle.AuditChain.Walk
open Lib.Encoding AuditChain.Store AuditChain.Chain

variable {C : Crypto} {k : ChainKeys} {t : Bytes}

theorem which_ne_none {mac hash : Bytes} {d : MacDomain} {n : Int} {extra : List Bytes}
    (h : k.which C mac d t n hash extra ≠ .none) :
    ∃ key, (key = k.current ∨ key = k.previous) ∧ key ≠ [] ∧
      mac = chainMAC C key d t n hash extra := by
  unfold ChainKeys.which at h
  split at h
  · rename_i hc
    exact ⟨k.current, .inl rfl, hc.1, hc.2⟩
  · split at h
    · rename_i hp
      exact ⟨k.previous, .inr rfl, hp.1, hp.2⟩
    · exact absurd rfl h

/-- What `checkAnchor` accepts: no anchor at all, or a signed one whose state decodes;
the rotation flag counts only if the current key signed it. -/
theorem checkAnchor_ok_iff {h : AuditHead} {st : AnchorState} :
    k.checkAnchor C h = .ok st ↔
      (h.anchorSeq = 0 ∧ h.anchorHash = [] ∧ h.anchorMAC = [] ∧ h.anchorState = [] ∧ st = {}) ∨
      (0 < h.anchorSeq ∧ ∃ st₀, decodeAnchorState h.anchorState = some st₀ ∧
        ((k.which C h.anchorMAC .anchor h.tenantID h.anchorSeq h.anchorHash [h.anchorState] =
            .current ∧ st = st₀) ∨
          (k.which C h.anchorMAC .anchor h.tenantID h.anchorSeq h.anchorHash [h.anchorState] =
            .previous ∧ st = { st₀ with rotated := false }))) := by
  unfold ChainKeys.checkAnchor
  split
  · simp only [reduceCtorEq, false_iff, not_or]
    exact ⟨fun h => by omega, fun h => by omega⟩
  split
  · rename_i hzero
    simp only [hzero, lt_irrefl, false_and, or_false, true_and]
    split
    · rename_i hset
      simp only [reduceCtorEq, false_iff]
      rintro ⟨h1, h2, h3, -⟩
      simp [h1, h2, h3] at hset
    · rename_i hunset
      simp only [not_or, not_not] at hunset
      simp [hunset, eq_comm]
  · rename_i hzero
    have hpos : 0 < h.anchorSeq := by omega
    simp only [hzero, false_and, false_or, hpos, true_and]
    cases hw : k.which C h.anchorMAC .anchor h.tenantID h.anchorSeq h.anchorHash
      [h.anchorState] with
    | none => simp
    | current | previous => cases decodeAnchorState h.anchorState <;> simp [eq_comm]

theorem checkAnchor_nonneg {h : AuditHead} {st : AnchorState} (hst : k.checkAnchor C h = .ok st) :
    0 ≤ h.anchorSeq := by
  rcases checkAnchor_ok_iff.mp hst with ⟨h, -⟩ | ⟨h, -⟩ <;> omega

/-- What `checkLink` accepts, and the rotation flag it returns. -/
theorem checkLink_ok_iff {prev : Bytes} {want : Int} {row : AuditEventRow} {rotated rotated' : Bool} :
    k.checkLink C t prev want row rotated = .ok rotated' ↔
      row.seq = want ∧ row.prevHash = prev ∧ rowHash C prev row = row.hash ∧
      ((k.which C row.mac .row t row.seq row.hash [] = .current ∧ rotated' = true) ∨
        (k.which C row.mac .row t row.seq row.hash [] = .previous ∧ rotated = false ∧
          rotated' = false)) := by
  unfold ChainKeys.checkLink
  split
  · rename_i h; simp [h]
  rename_i hseq
  split
  · rename_i h; simp [h]
  rename_i hprev
  split
  · rename_i h; simp [h]
  rename_i hhash
  rw [not_not] at hseq hprev hhash
  cases hw : k.which C row.mac .row t row.seq row.hash [] with
  | none => simp
  | current => simp [hseq, hprev, hhash, eq_comm]
  | previous => cases rotated <;> simp [hseq, hprev, hhash, eq_comm]

/-- The last row's hash, or the one before the rows when there are none. -/
def lastHash : Bytes → List AuditEventRow → Bytes
  | prev, [] => prev
  | _, row :: rows => lastHash row.hash rows

@[simp] theorem lastHash_concat (prev : Bytes) (rows : List AuditEventRow) (r : AuditEventRow) :
    lastHash prev (rows ++ [r]) = r.hash := by
  induction rows generalizing prev with
  | nil => rfl
  | cons x rows ih => exact ih x.hash

/-- The rows, taken in order after a row hashed `prev`, are numbered from `want` on
and every link holds; the last three are where this leaves the chain. -/
inductive Links (C : Crypto) (k : ChainKeys) (t : Bytes) :
    Bytes → Int → Bool → List AuditEventRow → Bytes → Int → Bool → Prop
  | nil (prev : Bytes) (want : Int) (rotated : Bool) :
    Links C k t prev want rotated [] prev want rotated
  | cons {prev prev' : Bytes} {want want' : Int} {rotated rotated₁ rotated' : Bool}
      {row : AuditEventRow} {rows : List AuditEventRow} :
    k.checkLink C t prev want row rotated = .ok rotated₁ →
    Links C k t row.hash (want + 1) rotated₁ rows prev' want' rotated' →
    Links C k t prev want rotated (row :: rows) prev' want' rotated'

namespace Links
variable {prev prev' : Bytes} {want want' : Int} {rotated rotated' : Bool}
  {rows : List AuditEventRow}

section

variable (h : Links C k t prev want rotated rows prev' want' rotated')
include h

theorem want_eq : want' = want + rows.length := by
  induction h with
  | nil => simp
  | cons _ _ ih => rw [ih, List.length_cons]; push_cast; omega

theorem seq_mem : ∀ r ∈ rows, want ≤ r.seq ∧ r.seq < want' := by
  induction h with
  | nil => intro r hr; cases hr
  | cons hl hrest ih =>
    intro r hr
    have hlen := hrest.want_eq
    obtain ⟨hseq, -⟩ := checkLink_ok_iff.mp hl
    rcases List.mem_cons.mp hr with rfl | hr
    · omega
    · have := ih r hr
      omega

/-- Every number in the range is some row's. -/
theorem exists_seq {n : Int} (hlo : want ≤ n) (hhi : n < want') : ∃ r ∈ rows, r.seq = n := by
  induction h with
  | nil => omega
  | cons hl _ ih =>
    obtain ⟨hseq, -⟩ := checkLink_ok_iff.mp hl
    rename_i want _ _ _ _ row rows _
    by_cases hn : n = want
    · exact ⟨row, List.mem_cons_self, by omega⟩
    · obtain ⟨r, hr, hrn⟩ := ih (by omega)  hhi
      exact ⟨r, List.mem_cons_of_mem _ hr, hrn⟩

/-- Each row's own part in the walk: its hash covers it and it is signed. -/
theorem row_signed : ∀ r ∈ rows, rowHash C r.prevHash r = r.hash ∧
      ∃ key, (key = k.current ∨ key = k.previous) ∧ key ≠ [] ∧
        r.mac = chainMAC C key .row t r.seq r.hash [] := by
  induction h with
  | nil => intro r hr; cases hr
  | cons hl _ ih =>
    intro r hr
    rcases List.mem_cons.mp hr with rfl | hr
    · obtain ⟨-, rfl, hhash, hw⟩ := checkLink_ok_iff.mp hl
      refine ⟨hhash, which_ne_none ?_⟩
      rcases hw with ⟨hw, -⟩ | ⟨hw, -⟩ <;> rw [hw] <;> decide
    · exact ih r hr

/-- The hash a walk ends on is the last row's. -/
theorem prev_eq : prev' = lastHash prev rows := by
  induction h with
  | nil => rfl
  | cons _ _ ih => exact ih

end

theorem cons_iff {row : AuditEventRow} :
    Links C k t prev want rotated (row :: rows) prev' want' rotated' ↔
      ∃ rot, k.checkLink C t prev want row rotated = .ok rot ∧
        Links C k t row.hash (want + 1) rot rows prev' want' rotated' := by
  constructor
  · intro h
    cases h with
    | cons hl hrest => exact ⟨_, hl, hrest⟩
  · rintro ⟨_, hl, hrest⟩
    exact .cons hl hrest

/-- The row with the first number follows the row the walk starts from. -/
theorem first {r : AuditEventRow} (h : Links C k t prev want rotated rows prev' want' rotated')
    (hr : r ∈ rows) (hseq : r.seq = want) : r.prevHash = prev := by
  cases h with
  | nil => cases hr
  | cons hl hrest =>
    rcases List.mem_cons.mp hr with rfl | hr
    · exact (checkLink_ok_iff.mp hl).2.1
    · have := (hrest.seq_mem r hr).1
      omega

end Links

/-! ## The seal's loop -/

/-- The openings among the rows, added to what was counted before. -/
def addOpenings (t : Bytes) (m : TenantCounts) (rows : List AuditEventRow) : TenantCounts :=
  rows.foldl (fun m r => if t = [] ∧ r.action = actionChainOpened then m.add r.subject 1 else m) m

theorem sealRows_ok {l l' : SealLoop} {rows : List AuditEventRow}
    (h : k.sealRows C t l rows = .ok l') :
    Links C k t l.link l.want l.rotated rows l'.link l'.want l'.rotated ∧
      l'.opened = addOpenings t l.opened rows := by
  induction rows generalizing l with
  | nil =>
    cases h
    exact ⟨.nil _ _ _, rfl⟩
  | cons r rows ih =>
    rw [ChainKeys.sealRows] at h
    split at h
    · cases h
    · next hl =>
      obtain ⟨hlinks, hopened⟩ := ih h
      exact ⟨.cons hl hlinks, hopened⟩

/-- What the seal of a prune wants of the head and of the rows it would remove. -/
structure Sealable (C : Crypto) (k : ChainKeys) (prev : AuditHead) (pruned : List AuditEventRow)
    (last : AuditEventRow) (st : AnchorState) (rotated : Bool) : Prop where
  last_eq : pruned.getLast? = some last
  anchor : k.checkAnchor C prev = .ok st
  head : k.check C prev.mac .head prev.tenantID prev.seq prev.hash [] = true
  within : last.seq ≤ prev.seq
  matches_head : last.seq = prev.seq → last.hash = prev.hash
  links : Links C k prev.tenantID prev.anchorHash (prev.anchorSeq + 1) st.rotated pruned last.hash
    (last.seq + 1) rotated

/-- What it then signs. -/
def anchorSeal (C : Crypto) (k : ChainKeys) (prev : AuditHead) (pruned : List AuditEventRow)
    (last : AuditEventRow) (st : AnchorState) (rotated : Bool) : AnchorSeal :=
  let state := sealedState
    { opened := addOpenings prev.tenantID st.opened pruned, rotated := rotated }
  { state := state
    mac := k.sign C .anchor prev.tenantID last.seq last.hash [state]
    headMAC := if last.seq = prev.seq then k.sign C .head prev.tenantID prev.seq prev.hash []
      else [] }

/-- Where a walk over rows with a last one ends. -/
theorem Links.end_eq {prev prev' : Bytes} {want want' : Int} {rotated rotated' : Bool}
    {rows : List AuditEventRow} {last : AuditEventRow}
    (h : Links C k t prev want rotated rows prev' want' rotated')
    (hlast : rows.getLast? = some last) : prev' = last.hash ∧ want' = last.seq + 1 := by
  induction h with
  | nil => cases hlast
  | @cons _ _ _ _ _ _ _ row rows hl hrest ih =>
    cases rows with
    | nil =>
      obtain rfl : row = last := Option.some.inj hlast
      cases hrest
      exact ⟨rfl, by rw [(checkLink_ok_iff.mp hl).1]⟩
    | cons x rows => exact ih (List.getLast?_cons_cons ▸ hlast)

theorem sealAnchor_ok {prev : AuditHead} {pruned : List AuditEventRow} {sealed : AnchorSeal}
    (h : k.sealAnchor C prev pruned = .ok sealed) :
    ∃ last st rotated, Sealable C k prev pruned last st rotated ∧
      sealed = anchorSeal C k prev pruned last st rotated := by
  unfold ChainKeys.sealAnchor at h
  split at h
  · cases h
  rename_i last hlast
  split at h
  · cases h
  rename_i st hst
  split at h
  · cases h
  rename_i hhead
  split at h
  · cases h
  rename_i hwithin
  split at h
  · cases h
  rename_i hmatch
  split at h
  · cases h
  rename_i l hrows
  cases h
  obtain ⟨hlinks, hopened⟩ := sealRows_ok hrows
  obtain ⟨hp, hw⟩ := hlinks.end_eq hlast
  rw [hp, hw] at hlinks
  refine ⟨last, st, l.rotated, ⟨hlast, hst, by simpa using hhead, not_lt.mp hwithin,
    fun he => ?_, hlinks⟩, ?_⟩
  · by_contra hne
    exact hmatch ⟨he, hne⟩
  · simp only [anchorSeal, ← hopened]

/-! ## The verification's loops -/

variable {s : AuditStore} {headSeq n : Int} {w : Walk} {st : AnchorState} {rep : VerifyReport}
  {reg : Registry}

/-- A chain's rows past a number, in order. -/
def rowsAfter (s : AuditStore) (t : Bytes) (n : Int) : List AuditEventRow :=
  (s.events t).filter fun r => decide (n < r.seq)

variable {r : AuditEventRow} {rep' : VerifyReport}

theorem mem_rowsAfter : r ∈ rowsAfter s t n ↔ r ∈ s.events t ∧ n < r.seq := by
  simp [rowsAfter]

theorem rowsAfter_eq_nil : rowsAfter s t n = [] ↔ ∀ r ∈ s.events t, r.seq ≤ n := by
  simp [rowsAfter]

theorem rowsAfter_sorted (s : AuditStore) (t : Bytes) (n : Int) :
    (rowsAfter s t n).Pairwise fun a b => a.seq < b.seq :=
  (s.sorted t).filter _

theorem auditEventsList_eq (s : AuditStore) (t : Bytes) (n : Int) {limit : Nat} (h : limit ≠ 0) :
    s.auditEventsList t n limit = (rowsAfter s t n).take limit := by
  simp only [AuditStore.auditEventsList, if_neg h, rowsAfter]

theorem walkPage_past (h : headSeq < w.want)
    (rows : List AuditEventRow) : k.walkPage C t headSeq w rows = .walked w := by
  cases rows with
  | nil => rfl
  | cons r rows => simp only [ChainKeys.walkPage, gt_iff_lt, if_pos h]

/-- The walk over a page goes on with the next one where it stood. -/
theorem walkPage_append (l l' : List AuditEventRow) :
    k.walkPage C t headSeq w (l ++ l') = match k.walkPage C t headSeq w l with
      | .walked w => k.walkPage C t headSeq w l'
      | e => e := by
  induction l generalizing w with
  | nil => rfl
  | cons r l ih =>
    simp only [List.cons_append, ChainKeys.walkPage]
    split
    · rename_i h
      exact (walkPage_past h l').symm
    · split
      · rfl
      · exact ih

/-- Rows all walked within the head are linked. -/
theorem walkPage_links {w' : Walk} {rows : List AuditEventRow}
    (h : k.walkPage C t headSeq w rows = .walked w') :
    ∃ l l', rows = l ++ l' ∧ Links C k t w.prev w.want w.rotated l w'.prev w'.want w'.rotated ∧
      (headSeq < w'.want ∨ l' = []) := by
  induction rows generalizing w with
  | nil =>
    cases h
    exact ⟨[], [], rfl, .nil _ _ _, .inr rfl⟩
  | cons r rows ih =>
    simp only [ChainKeys.walkPage] at h
    split at h
    · rename_i hlt
      cases h
      exact ⟨[], r :: rows, rfl, .nil _ _ _, .inl hlt⟩
    split at h
    · cases h
    rename_i rot hl
    obtain ⟨l, l', rfl, hlinks, hend⟩ := ih h
    exact ⟨r :: l, l', rfl, .cons hl hlinks, hend⟩

/-- Rows in order within the head are walked exactly if they are linked. -/
theorem walkPage_iff {w' : Walk} {rows : List AuditEventRow}
    (hsorted : rows.Pairwise fun a b => a.seq < b.seq)
    (hrange : ∀ r ∈ rows, w.want ≤ r.seq ∧ r.seq ≤ headSeq) :
    k.walkPage C t headSeq w rows = .walked w' ↔
      Links C k t w.prev w.want w.rotated rows w'.prev w'.want w'.rotated ∧
        w'.rows = w.rows + rows.length := by
  induction rows generalizing w with
  | nil =>
    constructor
    · intro h
      cases h
      exact ⟨.nil _ _ _, by simp⟩
    · rintro ⟨h, hrows⟩
      cases w; cases w'
      cases h
      simp_all [ChainKeys.walkPage]
  | cons r rows ih =>
    obtain ⟨hafter, hsorted⟩ := List.pairwise_cons.mp hsorted
    obtain ⟨hr, hrange⟩ := List.forall_mem_cons.mp hrange
    simp only [ChainKeys.walkPage, Links.cons_iff]
    rw [if_neg (by omega)]
    cases hl : k.checkLink C t w.prev w.want r w.rotated with
    | error why => simp
    | ok rot =>
      rw [ih hsorted fun x hx => ⟨by have := hafter x hx; simp; omega, (hrange x hx).2⟩]
      simp [← add_assoc, add_right_comm]

/-- The rows past the last row of a page are the rest. -/
theorem rowsAfter_page {l l' : List AuditEventRow} (h : rowsAfter s t n = l ++ [r] ++ l') :
    n < r.seq ∧ rowsAfter s t r.seq = l' := by
  rw [List.append_assoc, List.singleton_append] at h
  have hlt : n < r.seq := (mem_rowsAfter.mp (h ▸ List.mem_append_right _ List.mem_cons_self)).2
  have hfilter : rowsAfter s t r.seq = (rowsAfter s t n).filter fun x => decide (r.seq < x.seq) := by
    simp only [rowsAfter, List.filter_filter]
    refine List.filter_congr fun x _ => ?_
    by_cases hx : r.seq < x.seq
    · simp [hx, hlt.trans hx]
    · simp [hx]
  have hsorted := rowsAfter_sorted s t n
  rw [h, List.pairwise_append, List.pairwise_cons] at hsorted
  obtain ⟨-, ⟨hrest, -⟩, hpage⟩ := hsorted
  have hnil : l.filter (fun x => decide (r.seq < x.seq)) = [] :=
    List.filter_eq_nil_iff.mpr fun x hx => by simpa using (hpage x hx r List.mem_cons_self).le
  have hall : l'.filter (fun x => decide (r.seq < x.seq)) = l' :=
    List.filter_eq_self.mpr fun x hx => decide_eq_true (hrest x hx)
  rw [hfilter, h, List.filter_append, List.filter_cons, hnil, hall]
  simp [hlt]

/-- Reading page by page walks the rows past `want - 1` as one list would be walked,
and never runs out of fuel. -/
theorem walk_eq {fuel : Nat} (hf : (headSeq + 1 - w.want).toNat < fuel) :
    k.walk C s t headSeq fuel w = k.walkPage C t headSeq w (rowsAfter s t (w.want - 1)) := by
  induction fuel generalizing w with
  | zero => omega
  | succ fuel ih =>
    simp only [ChainKeys.walk]
    by_cases hw : headSeq < w.want
    · rw [if_neg (not_le.mpr hw), walkPage_past hw]
    rw [if_pos (not_lt.mp hw), auditEventsList_eq s t _ (by decide : verifyPage ≠ 0)]
    have hL := List.take_append_drop verifyPage (rowsAfter s t (w.want - 1))
    cases hpage : (rowsAfter s t (w.want - 1)).take verifyPage with
    | nil =>
      rcases List.take_eq_nil_iff.mp hpage with h | h
      · exact absurd h (by decide)
      · rw [h]; rfl
    | cons row rows =>
      rw [hpage] at hL
      rw [← hL, walkPage_append]
      simp only
      cases hwalk : k.walkPage C t headSeq w (row :: rows) with
      | broken w' why => rfl
      | outOfFuel => rfl
      | walked w' =>
        simp only
        obtain ⟨l, l', hsplit, hlinks, hend⟩ := walkPage_links hwalk
        have hlen := hlinks.want_eq
        -- the page is not empty, so the walk moved on
        have hpos : l ≠ [] := by
          rintro rfl
          rcases hend with h | rfl
          · simp only [List.length_nil] at hlen; omega
          · cases hsplit
        have hlpos := List.length_pos_iff.mpr hpos
        rw [ih (by omega)]
        rcases hend with h | rfl
        · rw [walkPage_past h, walkPage_past h]
        obtain ⟨page, x, rfl⟩ := (List.eq_nil_or_concat' l).resolve_left hpos
        have hwant := (hlinks.end_eq List.getLast?_concat).2
        rw [hsplit, List.append_nil] at hL
        rw [hwant, add_sub_cancel_right, (rowsAfter_page hL.symm).2]

/-! ## A verdict of OK -/

/-- The head verification works with: the stored one, or an empty one. -/
def headOf (s : AuditStore) (t : Bytes) : AuditHead := (s.heads t).getD { tenantID := t }

theorem headOf_tenantID (s : AuditStore) (t : Bytes) : (headOf s t).tenantID = t := by
  unfold headOf
  cases h : s.heads t with
  | none => rfl
  | some g => exact s.headTenant t g h

/-- What the registry's check lets through. -/
def OpeningHolds (t : Bytes) (n : Int) (found : Bool) (headSeq : Int) : Prop :=
  t = [] ∨ (n ≤ 1 ∧ (n = 1 → found = true ∧ headSeq ≠ 0) ∧ (n = 0 → found = false))

theorem checkOpening_eq_none_iff {found : Bool} :
    checkOpening rep t n found headSeq = none ↔ OpeningHolds t n found headSeq := by
  unfold checkOpening OpeningHolds
  by_cases ht : t = []
  · simp [ht]
  simp only [ht, if_false, false_or]
  split
  · rename_i h; simp; omega
  split
  · rename_i h; simp [h]
  split
  · rename_i h; simp [h]
  split
  · rename_i h; simp [h]
  rename_i h1 h2 h3 h4
  simp only [true_iff]
  refine ⟨by omega, fun hn => ?_, fun hn => ?_⟩
  · refine ⟨?_, fun hs => h3 ⟨hn, hs⟩⟩
    cases found
    · exact absurd ⟨hn, rfl⟩ h2
    · rfl
  · cases found
    · rfl
    · exact absurd ⟨hn, rfl⟩ h4

theorem checkOpening_not_ok {found : Bool} (h : checkOpening rep t n found headSeq = some rep') :
    rep'.ok = false := by
  unfold checkOpening at h
  split at h
  · cases h
  split at h
  · cases h; rfl
  split at h
  · cases h; rfl
  · split at h
    · cases h; rfl
    · split at h
      · cases h; rfl
      · cases h

/-- The head's signature as verification wants it after a walk. -/
def HeadSigned (C : Crypto) (k : ChainKeys) (t : Bytes) (h : AuditHead) (rotated : Bool) : Prop :=
  0 < h.seq → k.which C h.mac .head t h.seq h.hash [] ≠ .none ∧
    ¬(rotated = true ∧ k.which C h.mac .head t h.seq h.hash [] = .previous)

/-- Everything a verdict of OK on one chain rests on. -/
structure Verified (C : Crypto) (k : ChainKeys) (s : AuditStore) (t : Bytes) (reg : Registry) :
    Prop where
  key : k.current ≠ []
  orphan : s.heads t = none → rowsAfter s t 0 = []
  opening : OpeningHolds t (reg.openings.count t) (s.heads t).isSome (headOf s t).seq
  low : 0 < (headOf s t).anchorSeq → ∀ r ∈ s.events t, 0 < r.seq → (headOf s t).anchorSeq < r.seq
  links : ∃ st want rotated, k.checkAnchor C (headOf s t) = .ok st ∧
    Links C k t (headOf s t).anchorHash ((headOf s t).anchorSeq + 1) st.rotated
      (rowsAfter s t (headOf s t).anchorSeq) (headOf s t).hash want rotated ∧
    (headOf s t).seq < want ∧ HeadSigned C k t (headOf s t) rotated
  past : rowsAfter s t (headOf s t).seq = []

/-- The report of a chain that verifies. -/
def okReport (s : AuditStore) (t : Bytes) : VerifyReport :=
  { tenant := t
    rows := (rowsAfter s t (headOf s t).anchorSeq).length
    anchorSeq := (headOf s t).anchorSeq
    headSeq := (headOf s t).seq
    anchorState := (headOf s t).anchorState }

/-- The walk that `verifyRows` starts. -/
def startWalk (h : AuditHead) (st : AnchorState) : Walk :=
  { prev := h.anchorHash, want := h.anchorSeq + 1, rotated := st.rotated }

/-- Its fuel is enough to walk the rows past the anchor. -/
theorem walk_startWalk (h : AuditHead) (st : AnchorState) :
    k.walk C s t h.seq ((h.seq - h.anchorSeq).toNat + 1) (startWalk h st) =
      k.walkPage C t h.seq (startWalk h st) (rowsAfter s t h.anchorSeq) := by
  rw [walk_eq]
  · simp only [startWalk, add_sub_cancel_right]
  · simp only [startWalk]
    omega

/-- The rows below the anchor that `verifyRows` looks for. -/
theorem low_eq_none_iff {anchorSeq : Int} :
    (if anchorSeq > 0 then
      ((s.auditEventsList t 0 1).filter fun r => decide (r.seq ≤ anchorSeq)).head?
      else none) = none ↔
      (0 < anchorSeq → ∀ r ∈ s.events t, 0 < r.seq → anchorSeq < r.seq) := by
  by_cases ha : 0 < anchorSeq
  · rw [if_pos ha, auditEventsList_eq s t 0 one_ne_zero, List.head?_eq_none_iff,
      List.filter_eq_nil_iff]
    simp only [ha, forall_const, decide_eq_true_eq, not_le]
    have hs := rowsAfter_sorted s t 0
    constructor
    · intro h r hr hpos
      have hmem : r ∈ rowsAfter s t 0 := mem_rowsAfter.mpr ⟨hr, hpos⟩
      cases hL : rowsAfter s t 0 with
      | nil => rw [hL] at hmem; cases hmem
      | cons x l =>
        rw [hL] at h hmem hs
        have hx := h x (List.mem_singleton_self x)
        rcases List.mem_cons.mp hmem with rfl | hmem
        · exact hx
        · exact hx.trans ((List.pairwise_cons.mp hs).1 r hmem)
    · intro h r hr
      obtain ⟨hr, hpos⟩ := mem_rowsAfter.mp (List.mem_of_mem_take hr)
      exact h r hr hpos
  · rw [if_neg ha]
    exact ⟨fun _ h => absurd h ha, fun _ => rfl⟩

/-- What the last checks want of a walk. -/
structure HeadHolds (C : Crypto) (k : ChainKeys) (s : AuditStore) (t : Bytes) (w : Walk) :
    Prop where
  reached : (headOf s t).seq < w.want
  matches_last : w.prev = (headOf s t).hash
  signed : HeadSigned C k t (headOf s t) w.rotated
  past : rowsAfter s t (headOf s t).seq = []

theorem checkHead_of_holds (h : HeadHolds C k s t w) :
    k.checkHead C s t (headOf s t) rep w = rep := by
  unfold ChainKeys.checkHead
  have hsig : ¬((headOf s t).seq > 0 ∧ (k.which C (headOf s t).mac .head t (headOf s t).seq
      (headOf s t).hash [] = .none ∨ (w.rotated = true ∧ k.which C (headOf s t).mac .head t
      (headOf s t).seq (headOf s t).hash [] = .previous))) := by
    rintro ⟨hpos, hnone | hprev⟩
    · exact (h.signed hpos).1 hnone
    · exact (h.signed hpos).2 hprev
  rw [if_neg (not_le.mpr h.reached), if_neg (not_not.mpr h.matches_last)]
  simp only [if_neg hsig, auditEventsList_eq s t _ one_ne_zero, h.past, List.take_nil]

theorem holds_of_checkHead (h : (k.checkHead C s t (headOf s t) rep w).ok = true) : HeadHolds C k s t w := by
  unfold ChainKeys.checkHead at h
  split at h
  · cases h
  rename_i hreached
  split at h
  · cases h
  rename_i hmatch
  simp only at h
  split at h
  · cases h
  rename_i hsig
  refine ⟨not_le.mp hreached, not_not.mp hmatch, fun hpos => ⟨?_, ?_⟩, ?_⟩
  · exact fun hn => hsig ⟨hpos, .inl hn⟩
  · exact fun hp => hsig ⟨hpos, .inr hp⟩
  rw [auditEventsList_eq s t _ one_ne_zero] at h
  cases hL : rowsAfter s t (headOf s t).seq with
  | nil => rfl
  | cons past l =>
    -- a row past the head: the head read again is the same one
    have hpast : (headOf s t).seq < past.seq :=
      (mem_rowsAfter.mp (hL ▸ List.mem_cons_self : past ∈ rowsAfter s t _)).2
    have htake : (past :: l).take 1 = [past] := rfl
    rw [hL, htake] at h
    simp only [AuditStore.auditHeadGet] at h
    cases hh : s.heads t with
    | none => rw [hh] at h; cases h
    | some now =>
      have hnow : headOf s t = now := by simp [headOf, hh]
      rw [hh] at h
      simp only [← hnow, if_pos hpast] at h
      cases h

variable {g : AuditHead}

theorem links_of_verifyRows (h : k.verifyRows C s t g rep = .ok rep')
    (hok : rep'.ok = true) :
    (0 < g.anchorSeq → ∀ r ∈ s.events t, 0 < r.seq → g.anchorSeq < r.seq) ∧
    ∃ st w, k.checkAnchor C g = .ok st ∧
      k.walkPage C t g.seq (startWalk g st) (rowsAfter s t g.anchorSeq) = .walked w ∧
      rep' = k.checkHead C s t g { rep with anchorState := g.anchorState, rows := w.rows } w := by
  unfold ChainKeys.verifyRows at h
  cases hst : k.checkAnchor C g with
  | error why => rw [hst] at h; cases h; cases hok
  | ok st =>
    rw [hst] at h
    simp only at h
    split at h
    · cases h; cases hok
    rename_i hlow
    have hw := walk_startWalk (C := C) (k := k) (s := s) (t := t) g st
    rw [startWalk] at hw
    rw [hw] at h
    refine ⟨low_eq_none_iff.mp hlow, st, ?_⟩
    simp only [startWalk]
    split at h
    · cases h
    · cases h; cases hok
    · rename_i w hwalk
      cases h
      exact ⟨w, trivial, hwalk, rfl⟩

/-- With no row past the head, the walk is over linked rows, all those after the anchor. -/
theorem walkPage_startWalk (hpast : rowsAfter s t g.seq = []) :
    k.walkPage C t g.seq (startWalk g st) (rowsAfter s t g.anchorSeq) = .walked w ↔
      Links C k t g.anchorHash (g.anchorSeq + 1) st.rotated (rowsAfter s t g.anchorSeq)
        w.prev w.want w.rotated ∧ w.rows = (rowsAfter s t g.anchorSeq).length := by
  rw [walkPage_iff (rowsAfter_sorted s t _)]
  · simp [startWalk]
  · intro r hr
    obtain ⟨hr, hafter⟩ := mem_rowsAfter.mp hr
    exact ⟨hafter, rowsAfter_eq_nil.mp hpast r hr⟩

theorem orphan_eq_none_iff :
    (if (s.heads t).isSome = true then none else (s.auditEventsList t 0 1).head?) = none ↔
      (s.heads t = none → rowsAfter s t 0 = []) := by
  cases hh : s.heads t with
  | some h => simp
  | none =>
    simp only [Option.isSome_none, Bool.false_eq_true, if_false, List.head?_eq_none_iff,
      auditEventsList_eq s t 0 one_ne_zero, List.take_eq_nil_iff, one_ne_zero, false_or,
      forall_const]

/-- The report `verifyChain` starts from. -/
def startReport (s : AuditStore) (t : Bytes) : VerifyReport :=
  { tenant := t, anchorSeq := (headOf s t).anchorSeq, headSeq := (headOf s t).seq }

/-- `verifyChain`, with the head it works with named. -/
theorem verifyChain_eq (hkey : k.current ≠ []) :
    k.verifyChain C s t reg =
      match (if (s.heads t).isSome = true then none else (s.auditEventsList t 0 1).head?) with
      | some r => .ok ((startReport s t).broken r.seq "the chain has rows but no head")
      | none => match checkOpening (startReport s t) t (reg.openings.count t) (s.heads t).isSome
          (headOf s t).seq with
        | some rep => .ok rep
        | none => k.verifyRows C s t (headOf s t) (startReport s t) := by
  have hhead : { (s.heads t).getD { tenantID := t } with tenantID := t } = headOf s t := by
    cases hh : s.heads t with
    | none => simp only [headOf, hh]; rfl
    | some g =>
      have hg := s.headTenant t g hh
      simp only [headOf, hh, Option.getD_some]
      rw [← hg]
  unfold ChainKeys.verifyChain startReport
  rw [if_neg hkey, ← hhead]
  rfl

/-- A chain that meets every check verifies. -/
theorem verifyChain_of_verified (h : Verified C k s t reg) :
    k.verifyChain C s t reg = .ok (okReport s t) := by
  obtain ⟨st, want, rotated, hst, hlinks, hreached, hsigned⟩ := h.links
  have hwalk := (walkPage_startWalk (w := ⟨_, want, rotated, _⟩) h.past).mpr ⟨hlinks, rfl⟩
  have hw := (walk_startWalk (headOf s t) st).trans hwalk
  rw [startWalk] at hw
  rw [verifyChain_eq h.key, orphan_eq_none_iff.mpr h.orphan]
  simp only [checkOpening_eq_none_iff.mpr h.opening, ChainKeys.verifyRows, hst,
    low_eq_none_iff.mpr h.low, hw]
  rw [checkHead_of_holds ⟨hreached, rfl, hsigned, h.past⟩]
  rfl

/-- And a verdict of OK says that it meets them. -/
theorem verified_of_verifyChain (h : k.verifyChain C s t reg = .ok rep) (hok : rep.ok = true) :
    Verified C k s t reg ∧ rep = okReport s t := by
  have hv : Verified C k s t reg := by
    by_cases hkey : k.current = []
    · simp only [ChainKeys.verifyChain, if_pos hkey] at h
      cases h
    rw [verifyChain_eq hkey] at h
    split at h
    · cases h; cases hok
    rename_i horphan
    split at h
    · rename_i hopening
      cases h
      rw [checkOpening_not_ok hopening] at hok
      cases hok
    rename_i hopening
    obtain ⟨hlow, st, w, hst, hwalk, rfl⟩ := links_of_verifyRows h hok
    have hhead := holds_of_checkHead hok
    have hlinks := ((walkPage_startWalk hhead.past).mp hwalk).1
    rw [hhead.matches_last] at hlinks
    exact ⟨hkey, orphan_eq_none_iff.mp horphan, checkOpening_eq_none_iff.mp hopening, hlow,
      ⟨st, w.want, w.rotated, hst, hlinks, hhead.reached, hhead.signed⟩, hhead.past⟩
  rw [verifyChain_of_verified hv] at h
  cases h
  exact ⟨hv, rfl⟩

/-! ## The registry -/

/-- A page without a row past the head is counted to its end. -/
theorem countOpenings_eq {rows : List AuditEventRow} (h : ∀ r ∈ rows, r.seq ≤ headSeq) (m : TenantCounts) (after : Int) :
    countOpenings headSeq m after rows =
      (addOpenings [] m rows, (rows.getLast?.map (·.seq)).getD after, false) := by
  induction rows generalizing m after with
  | nil => rfl
  | cons r rows ih =>
    have hr := h r List.mem_cons_self
    simp only [countOpenings, gt_iff_lt, if_neg (not_lt.mpr hr)]
    rw [ih fun x hx => h x (List.mem_cons_of_mem _ hx)]
    simp only [addOpenings, List.foldl_cons, true_and, Prod.mk.injEq, and_true]
    cases rows with
    | nil => rfl
    | cons x rows =>
      rw [List.getLast?_cons_cons]
      rfl

/-- Read page by page, the registry counts the openings among all the rows. -/
theorem readOpenings_eq {fuel : Nat} {m : TenantCounts} {after : Int}
    (hpast : ∀ r ∈ s.events [], r.seq ≤ headSeq) (hf : (headSeq - after).toNat < fuel) :
    readOpenings s headSeq fuel m after = .ok (addOpenings [] m (rowsAfter s [] after)) := by
  induction fuel generalizing m after with
  | zero => omega
  | succ fuel ih =>
    simp only [readOpenings]
    by_cases hlt : headSeq ≤ after
    · have hnil : rowsAfter s [] after = [] :=
        rowsAfter_eq_nil.mpr fun r hr => (hpast r hr).trans hlt
      rw [if_neg (not_lt.mpr hlt), hnil]
      rfl
    rw [if_pos (not_le.mp hlt), auditEventsList_eq s [] _ (by decide : verifyPage ≠ 0)]
    have hL := List.take_append_drop verifyPage (rowsAfter s [] after)
    have hle : ∀ r ∈ (rowsAfter s [] after).take verifyPage, r.seq ≤ headSeq := fun r hr =>
      hpast r (mem_rowsAfter.mp (List.mem_of_mem_take hr)).1
    rw [countOpenings_eq hle]
    simp only [Bool.false_or, decide_eq_true_eq]
    split
    · rename_i hshort
      rw [List.length_take] at hshort
      rw [List.take_of_length_le (by omega)]
    rename_i hfull
    have hne : (rowsAfter s [] after).take verifyPage ≠ [] := by
      intro h
      rw [h] at hfull
      exact hfull (by decide)
    obtain ⟨l, x, hlx⟩ := (List.eq_nil_or_concat' _).resolve_left hne
    rw [hlx] at hL ⊢
    obtain ⟨hafter, hrest⟩ := rowsAfter_page hL.symm
    rw [List.getLast?_concat, Option.map_some, Option.getD_some, ih (by omega), hrest]
    exact congrArg _ (List.foldl_append.symm.trans (congrArg _ hL))

/-- The counts the registry starts from, carried by the anchor. -/
def carried (st : AnchorState) : TenantCounts := st.opened.entries.foldl (fun m e => m.add e.1 e.2) ∅

/-- On a verified operator chain the registry is its anchor's openings and its rows'. -/
theorem readRegistry_of_verified (h : Verified C k s [] {}) (hst : decodeAnchorState (headOf s []).anchorState = some st) :
    k.readRegistry C s =
      .ok ({ openings := addOpenings [] (carried st) (rowsAfter s [] (headOf s []).anchorSeq) },
        okReport s []) := by
  have hpast : ∀ r ∈ s.events [], r.seq ≤ (headOf s []).seq := rowsAfter_eq_nil.mp h.past
  unfold ChainKeys.readRegistry
  rw [verifyChain_of_verified h]
  have hread : readOpenings s (headOf s []).seq
      (((headOf s []).seq - (headOf s []).anchorSeq).toNat + 1) (carried st)
      (headOf s []).anchorSeq = _ := readOpenings_eq hpast (Nat.lt_succ_self _)
  rw [carried] at hread
  simp only [okReport, Bool.not_true, Bool.false_eq_true, if_false, hst, hread, carried]

/-- The registry a chain is checked against: none for the operator chain, for a tenant
the one read from the operator chain, which verified. -/
def Registered (C : Crypto) (k : ChainKeys) (s : AuditStore) (t : Bytes) (reg : Registry) : Prop :=
  (t = [] ∧ reg = {}) ∨ (t ≠ [] ∧ ∃ op, k.readRegistry C s = .ok (reg, op) ∧ op.ok = true)

theorem verify_of_verified (hreg : Registered C k s t reg)
    (h : Verified C k s t reg) : k.verify C s t = .ok (okReport s t) := by
  unfold ChainKeys.verify
  rcases hreg with ⟨rfl, rfl⟩ | ⟨ht, op, hread, hop⟩
  · rw [if_pos rfl, verifyChain_of_verified h]
  · rw [if_neg ht, hread]
    simp only [hop, Bool.not_true, Bool.false_eq_true, if_false]
    unfold ChainKeys.verifyWithRetry
    rw [verifyChain_of_verified h]
    rfl

theorem verified_of_verify (h : k.verify C s t = .ok rep) (hok : rep.ok = true) :
    ∃ reg, Registered C k s t reg ∧ Verified C k s t reg ∧ rep = okReport s t := by
  unfold ChainKeys.verify at h
  split at h
  · rename_i ht
    subst ht
    exact ⟨{}, .inl ⟨rfl, rfl⟩, verified_of_verifyChain h hok⟩
  rename_i ht
  cases hread : k.readRegistry C s with
  | error e => rw [hread] at h; cases h
  | ok p =>
    obtain ⟨reg, op⟩ := p
    rw [hread] at h
    simp only at h
    split at h
    · cases h; cases hok
    rename_i hop
    have hop : op.ok = true := by simpa using hop
    refine ⟨reg, .inr ⟨ht, op, hread, hop⟩, ?_⟩
    unfold ChainKeys.verifyWithRetry at h
    split at h
    · cases h
    rename_i rep₁ hv
    split at h
    · cases h
      exact verified_of_verifyChain hv hok
    · -- the second reading reads the same registry
      rw [hread] at h
      simp only [hop, Bool.not_true, Bool.false_eq_true, if_false] at h
      exact verified_of_verifyChain h hok

end Loomcycle.AuditChain.Walk
