import Loomcycle.AuditChain.Walk

/-! # What the transactions write

One inversion lemma a transaction: `Writes` is everything a committed append did to
the tables, `Prunes` everything a committed prune did. A transaction that did not
commit left the tables as they were. -/

namespace Loomcycle.AuditChain.Transactions
open Lib.Encoding
open AuditChain.Store AuditChain.Chain AuditChain.Walk

/-! ## Statements, field by field -/

section
variable (s : AuditStore) (t : Bytes)

@[simp] theorem insertHead_heads :
    (s.insertHead t).heads = Function.update s.heads t (some { tenantID := t }) := rfl

@[simp] theorem updateHead_events (f : AuditHead → AuditHead) :
    (s.updateHead t f).events = s.events := rfl

@[simp] theorem updateHead_heads (f : AuditHead → AuditHead) : (s.updateHead t f).heads =
    Function.update s.heads t ((s.heads t).map fun h => { f h with tenantID := t }) := rfl

@[simp] theorem deleteEvents_heads (lo hi : Int) : (s.deleteEvents t lo hi).heads = s.heads := rfl

@[simp] theorem deleteEvents_events (lo hi : Int) : (s.deleteEvents t lo hi).events =
    Function.update s.events t
      ((s.events t).filter fun r => !(decide (lo < r.seq) && decide (r.seq ≤ hi))) := rfl

end

variable {r row last : AuditEventRow} {s s' : AuditStore} {t : Bytes}
  {rows written : List AuditEventRow}
  {n : Nat} {fail : Fault} {created : Bool} {opened : Option AuditEventRow} {sealed : AnchorSeal}
  {head : AuditHead}

theorem insertEvent_some (h : s.insertEvent r = some s') :
    s'.heads = s.heads ∧ inInt64 r.seq ∧
      insertSorted r (s.events r.tenantID) = some (s'.events r.tenantID) ∧
      ∀ u, u ≠ r.tenantID → s'.events u = s.events u := by
  unfold AuditStore.insertEvent at h
  split at h
  · cases h
  rename_i l hl
  split at h
  · rename_i hr
    cases h
    refine ⟨rfl, hr, ?_, fun u hu => Function.update_of_ne hu _ _⟩
    refine hl.trans (congrArg some ?_)
    exact (Function.update_self r.tenantID l s.events).symm
  · cases h

/-- A head that was not there reads as the empty one it is created with. -/
theorem headOf_insertHead (h : s.heads t = none) (u : Bytes) :
    headOf (s.insertHead t) u = headOf s u := by
  by_cases hu : u = t
  · subst hu; simp [headOf, h]
  · simp [headOf, Function.update_of_ne hu]

theorem headOf_of_some {h : AuditHead} (hh : s.heads t = some h) :
    headOf s t = h := by
  simp [headOf, hh]

/-! ## Appends -/

section
variable (C : Crypto) (k : ChainKeys)

/-- A row numbered, linked and sealed on top of a head. -/
def sealOn (head : AuditHead) (row : AuditEventRow) : AuditEventRow :=
  let r := { row with seq := head.seq + 1, prevHash := head.hash }
  { r with
    hash := rowHash C r.prevHash r
    mac := k.sign C .row r.tenantID r.seq (rowHash C r.prevHash r) [] }

/-- The head moved to a row. -/
def headOn (head : AuditHead) (r : AuditEventRow) : AuditHead :=
  { head with seq := r.seq, hash := r.hash, mac := k.sign C .head r.tenantID r.seq r.hash [] }

/-- What appending one row to its chain does; `r` is the row as sealed. -/
structure AppendsRow (s : AuditStore) (row : AuditEventRow) (s' : AuditStore) (r : AuditEventRow) :
    Prop where
  key : k.current ≠ []
  row_eq : r = sealOn C k (headOf s row.tenantID) row
  seq64 : inInt64 r.seq
  inserted : insertSorted r (s.events row.tenantID) = some (s'.events row.tenantID)
  head_eq : s'.heads row.tenantID = some (headOn C k (headOf s row.tenantID) r)
  events_ne : ∀ u, u ≠ row.tenantID → s'.events u = s.events u
  heads_ne : ∀ u, u ≠ row.tenantID → s'.heads u = s.heads u

/-- Rows appended one after the other, on heads created where there was none: the rows
as handed over, and as sealed. -/
inductive Writes : AuditStore → List AuditEventRow → List AuditEventRow → AuditStore → Prop
  | nil (s : AuditStore) : Writes s [] [] s
  | create {s s' : AuditStore} {t : Bytes} {rows written : List AuditEventRow} :
    s.heads t = none → Writes (s.insertHead t) rows written s' → Writes s rows written s'
  | append {s s₁ s' : AuditStore} {row r : AuditEventRow} {rows written : List AuditEventRow} :
    AppendsRow C k s row s₁ r → Writes s₁ rows written s' → Writes s (row :: rows) (r :: written) s'

end

variable {C : Crypto} {k : ChainKeys}

theorem AppendsRow.headOf_ne (h : AppendsRow C k s row s' r) {u : Bytes}
    (hu : u ≠ row.tenantID) : headOf s' u = headOf s u := by
  simp only [headOf, h.heads_ne u hu]

theorem Writes.trans {s₁ : AuditStore} {l l' w w' : List AuditEventRow} (h : Writes C k s l w s₁)
    (h' : Writes C k s₁ l' w' s') : Writes C k s (l ++ l') (w ++ w') s' := by
  induction h with
  | nil => exact h'
  | create hn _ ih => exact .create hn (ih h')
  | append ha _ ih => exact .append ha (ih h')

/-- Chains none of the rows belong to keep theirs. -/
theorem Writes.events_ne (h : Writes C k s rows written s') {u : Bytes}
    (hu : ∀ r ∈ rows, r.tenantID ≠ u) : s'.events u = s.events u := by
  induction h with
  | nil => rfl
  | create _ _ ih => exact ih hu
  | append ha _ ih =>
    rw [ih fun r hr => hu r (List.mem_cons_of_mem _ hr)]
    exact ha.events_ne u (Ne.symm (hu _ List.mem_cons_self))

theorem seal_ok {r' : AuditEventRow} {m : Bytes} (h : k.seal C r = .ok (r', m)) :
    k.current ≠ [] ∧
      r' = { r with
        hash := rowHash C r.prevHash r
        mac := k.sign C .row r.tenantID r.seq (rowHash C r.prevHash r) [] } ∧
      m = k.sign C .head r.tenantID r.seq r'.hash [] := by
  unfold ChainKeys.seal at h
  split at h
  · cases h
  · rename_i hkey
    cases h
    exact ⟨hkey, rfl, rfl⟩

theorem auditAppendLocked_ok
    (h : auditAppendLocked fail n (k.seal C) s row = .ok (s', r)) :
    (∃ head, s.heads row.tenantID = some head) ∧ AppendsRow C k s row s' r := by
  obtain ⟨_, -, h⟩ := bind_ok h
  split at h
  · cases h
  rename_i head hhead
  refine ⟨⟨head, hhead⟩, ?_⟩
  split at h
  · cases h
  rename_i sealed headMAC hseal
  obtain ⟨hkey, hrow, hmac⟩ := seal_ok hseal
  obtain ⟨_, -, h⟩ := bind_ok h
  split at h
  · cases h
  rename_i s₁ hins
  obtain ⟨_, -, h⟩ := bind_ok h
  cases h
  obtain ⟨hheads, h64, hsorted, hne⟩ := insertEvent_some hins
  have hof : headOf s row.tenantID = head := by simp [headOf, hhead]
  have ht : r.tenantID = row.tenantID := by rw [hrow]
  rw [ht] at hsorted hne
  refine ⟨hkey, ?_, h64, ?_, ?_, ?_, ?_⟩
  · rw [hof, hrow]; rfl
  · exact hsorted
  · rw [updateHead_heads, ht, Function.update_self, hheads, hhead, hof, hmac]
    have hht := s.headTenant _ head hhead
    have hseq : r.seq = head.seq + 1 := by rw [hrow]
    simp only [Option.map_some, headOn, ht, hht, hseq]
  · intro u hu
    exact hne u hu
  · intro u hu
    rw [updateHead_heads, ht, Function.update_of_ne hu, hheads]

theorem auditAppendRows_ok
    (h : auditAppendRows fail (k.seal C) n s rows = .ok (s', written)) :
    Writes C k s rows written s' ∧
      ∀ u, s'.heads u = none ↔ s.heads u = none := by
  induction rows generalizing n s written with
  | nil => cases h; exact ⟨.nil _, fun _ => Iff.rfl⟩
  | cons row rows ih =>
    obtain ⟨⟨s₁, r⟩, h1, h⟩ := bind_ok h
    obtain ⟨⟨s₂, rs⟩, h2, h⟩ := bind_ok h
    cases h
    obtain ⟨⟨head, hhead⟩, ha⟩ := auditAppendLocked_ok h1
    obtain ⟨hw, hdom⟩ := ih h2
    refine ⟨.append ha hw, fun u => (hdom u).trans ?_⟩
    by_cases hu : u = row.tenantID
    · subst hu
      rw [ha.head_eq, hhead]
      simp
    · rw [ha.heads_ne u hu]

theorem auditEnsureHead_ok
    (h : auditEnsureHead fail n s t = .ok (s', created)) :
    (created = false ∧ s' = s ∧ s.heads t ≠ none) ∨
      (created = true ∧ s' = s.insertHead t ∧ s.heads t = none) := by
  obtain ⟨_, -, h⟩ := bind_ok h
  split at h
  · rename_i hh
    cases h
    exact .inl ⟨rfl, rfl, by rw [hh]; simp⟩
  · rename_i hh
    cases h
    exact .inr ⟨rfl, rfl, hh⟩

/-- The opening record an append writes: the one it is handed, when the append creates
the chain and the record belongs to another one. -/
def openedRows (s : AuditStore) (t : Bytes) (opened : Option AuditEventRow) : List AuditEventRow :=
  if s.heads t = none then opened.toList.filter fun o => o.tenantID != t else []

theorem auditAppendOpened_ok
    (h : auditAppendOpened fail (k.seal C) s t created opened = .ok (s', written)) :
    let op := if created then opened.toList.filter fun o => o.tenantID != t else []
    Writes C k s op written s' ∧
      ∀ u, s'.heads u = none ↔ s.heads u = none ∧ ∀ o ∈ op, o.tenantID ≠ u := by
  unfold auditAppendOpened at h
  cases opened with
  | none => cases h; exact ⟨by simpa using .nil _, by simp⟩
  | some o =>
    simp only at h
    by_cases hdue : (created && o.tenantID != t) = true
    · rw [if_pos hdue] at h
      obtain ⟨hcreated, hne⟩ := Bool.and_eq_true_iff.mp hdue
      obtain ⟨⟨s₁, c⟩, h1, h⟩ := bind_ok h
      obtain ⟨⟨s₂, r⟩, h2, h⟩ := bind_ok h
      cases h
      obtain ⟨⟨head, hhead⟩, ha⟩ := auditAppendLocked_ok h2
      have hw : Writes C k s₁ [o] [r] s₂ := .append ha (.nil _)
      simp only [hcreated, if_true, Option.toList_some, List.filter_cons, hne, List.filter_nil,
        List.mem_singleton, forall_eq]
      have hens := auditEnsureHead_ok h1
      refine ⟨?_, fun u => ?_⟩
      · rcases hens with ⟨-, rfl, -⟩ | ⟨-, rfl, hnone⟩
        · exact hw
        · exact .create hnone hw
      by_cases hu : u = o.tenantID
      · subst hu; simp [ha.head_eq]
      · rw [ha.heads_ne u hu]
        rcases hens with ⟨-, rfl, -⟩ | ⟨-, rfl, -⟩ <;> simp [hu, Ne.symm hu]
    · rw [if_neg hdue] at h
      cases h
      have hop : (if created = true then (some o).toList.filter fun o => o.tenantID != t else []) =
          [] := by
        cases created
        · rfl
        · simpa using hdue
      simp only [hop]
      exact ⟨.nil _, by simp⟩

/-- What a committed append did. -/
theorem auditAppendBody_ok {a : Appended}
    (h : auditAppendBody fail s rows (k.seal C) opened = .ok (s', a)) :
    ∃ t, rows ≠ [] ∧ (∀ r ∈ rows, r.action ≠ [] ∧ r.tenantID = t) ∧
      Writes C k s (openedRows s t opened ++ rows) (a.opened ++ a.written) s' ∧
      ∀ u, s'.heads u = none ↔
        s.heads u = none ∧ ∀ r ∈ openedRows s t opened ++ rows, r.tenantID ≠ u := by
  unfold auditAppendBody at h
  split at h
  · cases h
  rename_i r rest
  by_cases hany : ((r :: rest).any fun x => x.action == [] || x.tenantID != r.tenantID) = true
  · simp only [hany, if_true] at h
    cases h
  have hall : ∀ x ∈ r :: rest, x.action ≠ [] ∧ x.tenantID = r.tenantID := by
    intro x hx
    have hno := mt (fun hbad => List.any_eq_true.mpr ⟨x, hx, hbad⟩) hany
    simpa using hno
  simp only [hany] at h
  obtain ⟨_, -, h⟩ := bind_ok h
  obtain ⟨_, -, h⟩ := bind_ok h
  obtain ⟨⟨s₁, created⟩, h1, h⟩ := bind_ok h
  obtain ⟨⟨s₂, op⟩, h2, h⟩ := bind_ok h
  obtain ⟨⟨s₃, written⟩, h3, h⟩ := bind_ok h
  obtain ⟨_, -, h⟩ := bind_ok h
  cases h
  obtain ⟨hw2, hd2⟩ := auditAppendOpened_ok h2
  obtain ⟨hw3, hd3⟩ := auditAppendRows_ok h3
  refine ⟨r.tenantID, List.cons_ne_nil _ _, hall, ?_⟩
  rcases auditEnsureHead_ok h1 with ⟨rfl, rfl, hsome⟩ | ⟨rfl, rfl, hnone⟩
  · have hop : openedRows s₁ r.tenantID opened = [] := by simp [openedRows, hsome]
    simp only [Bool.false_eq_true, if_false] at hw2 hd2
    rw [hop]
    refine ⟨hw2.trans hw3, fun u => ?_⟩
    rw [hd3, hd2]
    simp only [List.not_mem_nil, false_implies, implies_true, and_true, List.nil_append]
    constructor
    · intro hu
      refine ⟨hu, fun x hx hxu => ?_⟩
      rw [(hall x hx).2] at hxu
      exact hsome (hxu ▸ hu)
    · exact And.left
  · have hop : openedRows s r.tenantID opened =
        opened.toList.filter fun o => o.tenantID != r.tenantID := by simp [openedRows, hnone]
    rw [hop]
    refine ⟨.create hnone (hw2.trans hw3), fun u => ?_⟩
    rw [hd3, hd2, insertHead_heads]
    by_cases hu : u = r.tenantID
    · subst hu
      simp only [Function.update_self, reduceCtorEq, false_and, false_iff, not_and, not_forall]
      exact fun _ => ⟨r, List.mem_append_right _ List.mem_cons_self, fun hne => hne rfl⟩
    rw [Function.update_of_ne hu]
    refine and_congr_right fun _ => ⟨fun hne x hx => ?_, fun hne x hx => ?_⟩
    · rcases List.mem_append.mp hx with hx | hx
      · exact hne x hx
      · rw [(hall x hx).2]; exact Ne.symm hu
    · exact hne x (List.mem_append_left _ hx)

/-- An append that did not commit left the tables as they were. -/
theorem auditAppend_cases (fail : Fault) (s : AuditStore) (rows : List AuditEventRow)
    (sealFn : AuditSealFunc) (opened : Option AuditEventRow) :
    (auditAppend fail s rows sealFn opened).1 = s ∨
      ∃ s' a, auditAppendBody fail s rows sealFn opened = .ok (s', a) ∧
        auditAppend fail s rows sealFn opened = (s', .ok a) := by
  unfold auditAppend transact
  cases h : auditAppendBody fail s rows sealFn opened with
  | error e => exact .inl rfl
  | ok p => exact .inr ⟨p.1, p.2, rfl, rfl⟩

/-! ## Prunes -/

/-- The head after a prune up to `last`. -/
def prunedHead (head : AuditHead) (last : AuditEventRow) (sealed : AnchorSeal) : AuditHead :=
  { head with
    anchorSeq := last.seq
    anchorHash := last.hash
    anchorMAC := sealed.mac
    anchorState := sealed.state
    mac := if sealed.headMAC = [] then head.mac else sealed.headMAC }

/-- What a committed prune did: `pruned` are the rows it removed, `last` the last of
them. -/
structure Prunes (s : AuditStore) (t : Bytes) (head : AuditHead) (pruned : List AuditEventRow)
    (last : AuditEventRow) (sealed : AnchorSeal) (s' : AuditStore) : Prop where
  head_eq : s.heads t = some head
  pruned_eq : pruned = s.range t head.anchorSeq last.seq
  last_eq : pruned.getLast? = some last
  head_eq' : s'.heads t = some (prunedHead head last sealed)
  events_eq' : s'.events t =
    (s.events t).filter fun r => !(decide (head.anchorSeq < r.seq) && decide (r.seq ≤ last.seq))
  heads_ne : ∀ u, u ≠ t → s'.heads u = s.heads u
  events_ne : ∀ u, u ≠ t → s'.events u = s.events u

theorem mem_range {lo hi : Int} :
    r ∈ s.range t lo hi ↔ r ∈ s.events t ∧ lo < r.seq ∧ r.seq ≤ hi := by
  simp [AuditStore.range]

/-- The last row of a range bounds it as well as the bound it was read with. -/
theorem range_last {lo hi : Int}
    (h : (s.range t lo hi).getLast? = some last) : s.range t lo hi = s.range t lo last.seq := by
  have hmem : last ∈ s.range t lo hi := List.mem_of_getLast? h
  have hle := (mem_range.mp hmem).2.2
  refine List.filter_congr fun r hr => ?_
  by_cases hin : lo < r.seq ∧ r.seq ≤ hi
  · have hr' : r ∈ s.range t lo hi := mem_range.mpr ⟨hr, hin⟩
    have hs : (s.range t lo hi).Pairwise fun a b => a.seq ≤ b.seq :=
      ((s.sorted t).filter _).imp le_of_lt
    have hrl : r.seq ≤ last.seq := by
      obtain ⟨hne, rfl⟩ := List.mem_getLast?_eq_getLast h
      exact hs.rel_getLast_of_rel_getLast_getLast hr' le_rfl
    simp [hin, hrl]
  · have : ¬(lo < r.seq ∧ r.seq ≤ last.seq) := fun h => hin ⟨h.1, h.2.trans hle⟩
    simp only [← Bool.decide_and, hin, this]

theorem pruneWrite_ok (hhead : s.heads t = some head)
    (hlast : (s.range t head.anchorSeq last.seq).getLast? = some last)
    (h : pruneWrite fail s t head last sealed = .ok (s', n)) :
    n = (s.range t head.anchorSeq last.seq).length ∧
      Prunes s t head (s.range t head.anchorSeq last.seq) last sealed s' := by
  have ht := s.headTenant t head hhead
  obtain ⟨_, -, h⟩ := bind_ok h
  -- a head that was sealed again takes one more statement
  by_cases hm : sealed.headMAC = []
  all_goals
    simp only [hm, if_true, if_false] at h
    repeat obtain ⟨_, -, h⟩ := bind_ok h
    cases h
    refine ⟨rfl, hhead, rfl, hlast, ?_, ?_, fun u hu => ?_, fun u hu => ?_⟩
    · simp [hhead, prunedHead, hm, ht]
    · simp
    · simp [Function.update_of_ne hu]
    · simp [Function.update_of_ne hu]

/-- A committed prune moves no head. -/
theorem Prunes.headOf_eq {pruned : List AuditEventRow}
    (h : Prunes s t head pruned last sealed s') (u : Bytes) :
    (headOf s' u).hash = (headOf s u).hash ∧ (headOf s' u).seq = (headOf s u).seq := by
  by_cases hu : u = t
  · subst hu
    rw [headOf_of_some h.head_eq, headOf_of_some h.head_eq']
    exact ⟨rfl, rfl⟩
  · simp only [headOf, h.heads_ne u hu, and_self]

/-- A prune either leaves the tables as they were and reports no row removed, or its
seal accepted the rows it removed. -/
theorem auditPrune_cases (C : Crypto) (k : ChainKeys) (fail : Fault) (s : AuditStore) (t : Bytes)
    (before limit : Int) :
    ((auditPrune fail s t before limit (k.sealAnchor C)).1 = s ∧
      ∀ n, (auditPrune fail s t before limit (k.sealAnchor C)).2 = .ok n → n = 0) ∨
    ∃ head pruned last st rotated, Sealable C k head pruned last st rotated ∧
      Prunes s t head pruned last (anchorSeal C k head pruned last st rotated)
        (auditPrune fail s t before limit (k.sealAnchor C)).1 ∧
      (auditPrune fail s t before limit (k.sealAnchor C)).2 = .ok pruned.length := by
  unfold auditPrune transact
  cases h : auditPruneBody fail s t before limit (k.sealAnchor C) with
  | error e => exact .inl ⟨rfl, nofun⟩
  | ok p =>
    obtain ⟨s', n⟩ := p
    obtain ⟨_, -, h⟩ := bind_ok h
    obtain ⟨_, -, h⟩ := bind_ok h
    obtain ⟨_, -, h⟩ := bind_ok h
    split at h
    · cases h
      exact .inl ⟨rfl, fun n hn => by cases hn; rfl⟩
    rename_i head hhead
    obtain ⟨_, -, h⟩ := bind_ok h
    split at h
    · cases h
      exact .inl ⟨rfl, fun n hn => by cases hn; rfl⟩
    obtain ⟨_, -, h⟩ := bind_ok h
    simp only at h
    split at h
    · cases h
    rename_i sealed hseal
    split at h
    · cases h
    · rename_i last hlast
      have hrange := range_last hlast
      rw [hrange] at hlast hseal
      obtain ⟨rfl, hp⟩ := pruneWrite_ok hhead hlast h
      obtain ⟨last', st, rotated, hs, rfl⟩ := sealAnchor_ok hseal
      obtain rfl := Option.mem_unique hs.last_eq hlast
      exact .inr ⟨head, _, last', st, rotated, hs, hp, rfl⟩

end Loomcycle.AuditChain.Transactions
