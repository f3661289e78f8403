import Loomcycle.AuditChain.FullLog
import Loomcycle.AuditChain.PruneSoundness

/-! # An untouched log verifies

Appends and prunes of the runtime itself never read as a break: every chain stays a
window on its full log, through appends, prunes up to the head or across the
rotation, and prunes of the operator chain's opening records, which its anchor then
carries. -/

namespace Loomcycle.AuditChain.Completeness
open Lib.Encoding Lib.Transition
open AuditChain.Store AuditChain.Chain AuditChain.Sink
open AuditChain.Walk AuditChain.Transactions AuditChain.History
open AuditChain.AnchorCodec AuditChain.FullLog
open AuditChain.PruneSoundness

section
variable {C : Crypto} {k : ChainKeys} {old cur : Bytes}

/-! ## Appends -/

variable {r row last : AuditEventRow} {s s' : AuditStore} {t payload : Bytes} {g : Log}
  {logs : Bytes → Log} {rows pruned : List AuditEventRow} {head : AuditHead} {st : AnchorState}
  {rotated : Bool}

theorem insertSorted_last {l : List AuditEventRow} (h : ∀ x ∈ l, x.seq < r.seq) :
    insertSorted r l = some (l ++ [r]) := by
  induction l with
  | nil => rfl
  | cons x l ih =>
    have hx := h x List.mem_cons_self
    have hrest := ih fun y hy => h y (List.mem_cons_of_mem _ hy)
    simp only [insertSorted, if_neg (show ¬r.seq < x.seq by omega),
      if_neg (show r.seq ≠ x.seq by omega), hrest, Option.map_some, List.cons_append]

/-- A chain whose head and rows did not change still holds. -/
theorem chainHolds_congr (h : ChainHolds C old cur s t g) (hev : s'.events t = s.events t)
    (hh : headOf s' t = headOf s t) : ChainHolds C old cur s' t g := by
  obtain ⟨h1, h2, h3, h4, h5, h6, h7, h8, h9, h10, h11, h12, h13⟩ := h
  rw [← hh] at h6 h7 h9 h11 h12 h13
  rw [← hev] at h4
  exact ⟨h1, h2, h3, h4, h5, h6, h7, h8, h9, h10, h11, h12, h13⟩

/-- One row more on the chain it belongs to. -/
theorem appendsRow_self (hcur : k.current = cur) (ha : AppendsRow C k s row s' r)
    (h : ChainHolds C old cur s row.tenantID g) :
    ChainHolds C old cur s' row.tenantID (g.extend cur r) := by
  have hhead := headOf_of_some ha.head_eq
  have hseq : r.seq = g.entries.length + 1 := by rw [ha.row_eq, ← h.headSeq]; rfl
  have hprev : r.prevHash = lastHash [] (rowsOf g.entries) := by rw [ha.row_eq, ← h.headHash]; rfl
  have hhash : rowHash C r.prevHash r = r.hash := by rw [ha.row_eq]; rfl
  have hmac : r.mac = chainMAC C cur .row row.tenantID r.seq r.hash [] := by
    rw [ha.row_eq, ← hcur]; rfl
  have hten : r.tenantID = row.tenantID := by rw [ha.row_eq]; rfl
  have hgone : (g.extend cur r).entries.take (g.extend cur r).pruned = g.entries.take g.pruned :=
    List.take_append_of_le_length h.pruned_le
  refine ⟨?_, ?_, ?_, ?_, ?_, ?_, ?_, fun _ => .inr rfl, fun _ => ?_, fun _ => rfl, ?_, ?_, ?_⟩
  · intro e he
    rcases List.mem_append.mp he with he | he
    · exact h.keys e he
    · rw [List.mem_singleton.mp he]; exact .inr rfl
  · refine List.pairwise_append.mpr ⟨h.rotation, List.pairwise_singleton _ _, ?_⟩
    intro a _ b hb _
    rw [List.mem_singleton.mp hb]
  · refine h.signed.append (.cons ?_ hprev ?_ hmac (.nil _ _))
    · rw [hseq]; ring
    · rw [← hprev]; exact hhash
  · -- the new row is numbered past every row there is
    have hlast := insertSorted_last (r := r) (l := s.events row.tenantID) fun x hx => by
      have := (h.kept_range x hx).2
      rw [h.headSeq] at this
      omega
    have := ha.inserted.symm.trans hlast
    rw [Option.some.inj this, h.events]
    simp only [Log.kept, Log.extend, List.drop_append_of_le_length h.pruned_le, rowsOf_append]
    rfl
  · simp only [Log.extend, List.length_append, List.length_singleton]
    exact h.pruned_le.trans (Nat.le_succ _)
  · rw [hhead]
    simp only [headOn, Log.extend, List.length_append, List.length_singleton]
    exact hseq
  · rw [hhead]
    simp only [headOn, Log.extend, rowsOf_append]
    exact (lastHash_concat _ _ _).symm
  · rw [hhead]
    simp only [headOn, ChainKeys.sign, hcur, hten, Log.extend]
  · rw [hhead]; exact h.anchorSeq
  · rw [hhead]; exact h.noAnchor
  · intro hpos
    obtain ⟨h1, h2, h3, h4⟩ := h.anchor hpos
    rw [hhead]
    refine ⟨?_, h2, h3, ?_⟩
    · simp only [Log.gone, hgone]; exact h1
    · simp only [Log.gone, hgone]; exact h4

/-- A transaction on one chain, of which the others see nothing. -/
theorem chainHolds_update (h : ∀ u, ChainHolds C old cur s u (logs u))
    (hself : ChainHolds C old cur s' t g)
    (hothers : ∀ u, u ≠ t → s'.events u = s.events u ∧ headOf s' u = headOf s u) :
    ∀ u, ChainHolds C old cur s' u (Function.update logs t g u) :=
  (Function.forall_update_iff logs fun u g => ChainHolds C old cur s' u g).mpr
    ⟨hself, fun u hu => chainHolds_congr (h u) (hothers u hu).1 (hothers u hu).2⟩

/-- How often a tenant is opened by rows handed to an append. -/
def openedBy (rows : List AuditEventRow) (u : Bytes) : Nat :=
  rows.countP fun r => decide (r.tenantID = [] ∧ r.action = actionChainOpened ∧ r.subject = u)

theorem openings_append (t : Bytes) (l l' : List AuditEventRow) (u : Bytes) :
    openings t (l ++ l') u = openings t l u + openings t l' u :=
  List.countP_append

/-- Through a whole append: the logs grow by its rows. -/
theorem writes_holds {written : List AuditEventRow} (hcur : k.current = cur)
    (hw : Writes C k s rows written s') (h : ∀ t, ChainHolds C old cur s t (logs t)) :
    ∃ logs' : Bytes → Log, (∀ t, ChainHolds C old cur s' t (logs' t)) ∧
      (∀ u, openings [] (rowsOf (logs' []).entries) u =
        openings [] (rowsOf (logs []).entries) u + openedBy rows u) ∧
      ∀ t, (logs' t).entries = [] ↔ (logs t).entries = [] ∧ ∀ r ∈ rows, r.tenantID ≠ t := by
  induction hw generalizing logs with
  | nil => exact ⟨logs, h, fun u => rfl, fun t => by simp⟩
  | create hn _ ih =>
    exact ih fun t => chainHolds_congr (h t) rfl (headOf_insertHead hn t)
  | @append s s₁ s' row r rows written ha _ ih =>
    obtain ⟨logs', h', hopen, hnil⟩ := ih (chainHolds_update h (appendsRow_self hcur ha (h _))
      fun t ht => ⟨ha.events_ne t ht, ha.headOf_ne ht⟩)
    refine ⟨logs', h', fun u => ?_, fun t => ?_⟩
    · rw [hopen]
      simp only [openedBy, List.countP_cons]
      by_cases ht : row.tenantID = []
      · rw [ht, Function.update_self]
        have hr : r.action = row.action ∧ r.subject = row.subject := by rw [ha.row_eq]; exact ⟨rfl, rfl⟩
        simp only [Log.extend, rowsOf_append, openings_append, true_and]
        have hone : openings [] (rowsOf [⟨cur, r⟩]) u =
            if decide (row.action = actionChainOpened ∧ row.subject = u) = true then 1 else 0 := by
          simp [openings, rowsOf, hr, List.countP_cons]
        omega
      · simp [ht]
    · rw [hnil]
      by_cases ht : t = row.tenantID
      · subst ht
        simp [Log.extend]
      · rw [Function.update_of_ne ht]
        simp [Ne.symm ht]

/-! ## Prunes -/

/-- The log with its rows up to number `n` gone. -/
def pruneLog (g : Log) (n : Int) (sealed : AnchorSeal) (cur : Bytes) : Log :=
  { g with
    pruned := n.toNat
    headKey := if sealed.headMAC = [] then g.headKey else cur
    anchorKey := cur }

/-- The rows that are left fall into those up to `n` and those past it. -/
theorem events_split (h : ChainHolds C old cur s t g) {n : Int} (hlo : (g.pruned : Int) ≤ n)
    (hhi : n ≤ g.entries.length) :
    ∃ m, g.entries.take n.toNat = g.entries.take g.pruned ++ m ∧
      s.events t = rowsOf m ++ rowsOf (g.entries.drop n.toNat) ∧
      Signed C t (lastHash [] g.gone) (g.pruned + 1) m ∧ m ⊆ g.entries.drop g.pruned ∧
      (∀ r ∈ rowsOf m, (g.pruned : Int) < r.seq ∧ r.seq ≤ n) ∧
      ∀ r ∈ rowsOf (g.entries.drop n.toNat), n < r.seq := by
  obtain ⟨d, hd⟩ : ∃ d, n.toNat = g.pruned + d := ⟨n.toNat - g.pruned, by omega⟩
  have hdrop : g.entries.drop n.toNat = (g.entries.drop g.pruned).drop d := by
    rw [List.drop_drop, hd]
  have hsplit : g.entries.drop g.pruned =
      (g.entries.drop g.pruned).take d ++ g.entries.drop n.toNat := by
    rw [hdrop, List.take_append_drop]
  have hsigned := h.kept_signed
  rw [hsplit] at hsigned
  have hlen : ((g.entries.drop g.pruned).take d).length = d := by
    rw [List.length_take, List.length_drop]
    omega
  refine ⟨(g.entries.drop g.pruned).take d, ?_, ?_, hsigned.left, List.take_subset _ _,
    fun r hr => ?_, fun r hr => ?_⟩
  · rw [hd, List.take_add]
  · rw [h.events, Log.kept, hsplit, rowsOf_append, ← hsplit]
  · have := hsigned.left.seq_range r hr
    omega
  · have := (hsigned.right.seq_range r hr).1
    omega

/-- A prune leaves the chain a window on the same log. -/
theorem prunes_self (hk : KeysFit C k old cur) (h : ChainHolds C old cur s t g)
    (hold : TablesHold s)
    (hp : Prunes s t head pruned last (anchorSeal C k head pruned last st rotated) s')
    (hs : Sealable C k head pruned last st rotated) :
    ChainHolds C old cur s' t
      (pruneLog g last.seq (anchorSeal C k head pruned last st rotated) cur) := by
  have hof := headOf_of_some hp.head_eq
  have hof' := headOf_of_some hp.head_eq'
  have hten := s.headTenant t head hp.head_eq
  have hlast : last ∈ s.events t := by
    have := List.mem_of_getLast? hp.last_eq
    rw [hp.pruned_eq] at this
    exact (mem_range.mp this).1
  have hrange := h.kept_range last hlast
  rw [h.anchorSeq, h.headSeq] at hrange
  have hnat : ((last.seq.toNat : Nat) : Int) = last.seq := by omega
  obtain ⟨m, htake, hev, hsigned, hkept, hm, hrest⟩ := events_split h hrange.1.le hrange.2
  have hanchorSeq := h.anchorSeq
  have hheadSeq := h.headSeq
  have hheadHash := h.headHash
  rw [hof] at hanchorSeq hheadSeq hheadHash
  have hin : ∀ r ∈ rowsOf m,
      (decide (head.anchorSeq < r.seq) && decide (r.seq ≤ last.seq)) = true := by
    intro r hr
    simpa [hanchorSeq] using hm r hr
  have hout : ∀ r ∈ rowsOf (g.entries.drop last.seq.toNat),
      (decide (head.anchorSeq < r.seq) && decide (r.seq ≤ last.seq)) = false := by
    intro r hr
    simp [hrest r hr]
  -- the rows removed are the log's rows up to the last of them
  have hremoved : pruned = rowsOf m := by
    rw [hp.pruned_eq, AuditStore.range, hev, List.filter_append, List.filter_eq_self.mpr hin,
      List.filter_eq_nil_iff.mpr fun r hr => by simp [hout r hr], List.append_nil]
  have hgone : (pruneLog g last.seq (anchorSeal C k head pruned last st rotated) cur).gone =
      g.gone ++ pruned := by
    simp only [Log.gone, pruneLog, htake, rowsOf_append, hremoved]
  have hlastHash : last.hash = lastHash [] (g.gone ++ pruned) := by
    rw [hs.links.prev_eq, lastHash_append, ← h.anchorHash_eq, hof]
  obtain ⟨st', st₀, hst', -, hopened, hcount, hflag⟩ := h.checkAnchor_ok hk
  rw [hof] at hst'
  obtain rfl : st' = st := Except.ok.inj (hst'.symm.trans hs.anchor)
  refine ⟨h.keys, h.rotation, h.signed, ?_, ?_, ?_, ?_, fun hne => ?_, fun hne => ?_, fun hex => ?_,
    ?_, fun hzero => ?_, fun _ => ?_⟩
  · rw [hp.events_eq', hev, List.filter_append,
      List.filter_eq_nil_iff.mpr fun r hr => by simp [hin r hr],
      List.filter_eq_self.mpr fun r hr => by simp [hout r hr], List.nil_append]
    rfl
  · simp only [pruneLog]; omega
  · rw [hof']
    exact hheadSeq
  · rw [hof']
    exact hheadHash
  · simp only [pruneLog]
    split
    · exact h.headKey hne
    · exact .inr rfl
  · have hmac := h.headMac hne
    rw [hof] at hmac
    rw [hof']
    simp only [prunedHead, pruneLog]
    split
    · exact hmac
    rename_i hnew
    simp only [anchorSeal] at hnew ⊢
    split
    · rw [ChainKeys.sign, hk.current, hten]
    · rename_i hnot
      rw [if_neg hnot] at hnew
      exact absurd rfl hnew
  · simp only [pruneLog]
    split
    · exact h.headRotated hex
    · rfl
  · rw [hof']
    exact hnat.symm
  · simp only [pruneLog] at hzero
    omega
  · obtain ⟨hh, hsub, h64⟩ := hold.removed hp.head_eq hp.pruned_eq hp.last_eq
    obtain ⟨-, sd, hdec, hrot, hcounts⟩ := anchorSeal_state hs hh hsub h64
    rw [hten] at hcounts
    rw [hof']
    refine ⟨?_, .inr rfl, ?_, sd, hdec, fun u => ?_, fun _ hr => ?_⟩
    · rw [hgone]; exact hlastHash
    · simp only [prunedHead, anchorSeal, ChainKeys.sign, hk.current, hten, pruneLog]
    · rw [hcounts, hgone, openings_append, hopened, hcount]
      rfl
    · -- the flag was carried over, or set by one of the rows removed
      have hlinks := links_of_signed hk hsigned
        (fun e he => h.keys e (List.mem_of_mem_take (htake ▸ List.mem_append_right _ he)))
        (h.rotation.sublist ((List.sublist_append_right _ m).trans
          (htake ▸ List.take_sublist _ _)))
        fun hr e he => h.drop_cur (hflag hr) e (hkept he)
      have hend := hs.links
      rw [hten, hremoved, ← hof, h.anchorHash_eq, hof, hanchorSeq] at hend
      rw [hrot, links_det hend hlinks] at hr
      simp only [pruneLog, htake]
      rcases Bool.or_eq_true_iff.mp hr with hr | hr
      · obtain ⟨e, he, hc⟩ := hflag hr
        exact ⟨e, List.mem_append_left _ he, hc⟩
      · obtain ⟨e, he, hc⟩ := ChainHolds.any_cur hr
        exact ⟨e, List.mem_append_right _ he, hc⟩

/-! ## The tables between transactions -/

/-- Every chain is a window on its log, a chain has a head exactly when it has a log,
and the operator chain's log opens every tenant's chain once. -/
def LogsHold (C : Crypto) (old cur : Bytes) (s : AuditStore) : Prop :=
  ∃ logs : Bytes → Log, (∀ t, ChainHolds C old cur s t (logs t)) ∧
    (∀ t, (logs t).entries = [] ↔ s.heads t = none) ∧
    ∀ u, u ≠ [] → openings [] (rowsOf (logs []).entries) u = if s.heads u = none then 0 else 1

/-- A label of the sink under the given keys; on the operator chain the runtime records
no event of its own under the action it reserves for openings. -/
def Under (k : ChainKeys) (w : World) (l : Label) : Prop :=
  l.keys = k ∧ FromSink w l ∧ match l with
    | .append _ rows _ _ => ∀ r ∈ rows, r.tenantID = [] → r.action ≠ actionChainOpened
    | .prune .. => True

theorem openedBy_append (l l' : List AuditEventRow) (u : Bytes) :
    openedBy (l ++ l') u = openedBy l u + openedBy l' u :=
  List.countP_append

/-- What a batch of the sink opens: its own chain, if that is new and a tenant's. -/
theorem openedBy_batch {ts : Int} (hne : rows ≠ []) (hall : ∀ r ∈ rows, r.tenantID = t)
    (hres : ∀ r ∈ rows, r.tenantID = [] → r.action ≠ actionChainOpened) (u : Bytes) (hu : u ≠ []) :
    openedBy (openedRows s t (openedFor rows ts payload) ++ rows) u =
      if u = t ∧ s.heads t = none then 1 else 0 := by
  have hrows : openedBy rows u = 0 :=
    List.countP_eq_zero.mpr fun r hr => by
      simp only [decide_eq_true_eq]
      exact fun h => hres r hr h.1 h.2.1
  obtain ⟨r, rest, rfl⟩ := List.exists_cons_of_ne_nil hne
  have ht : r.tenantID = t := hall r List.mem_cons_self
  rw [openedBy_append, hrows, openedRows, openedFor, ht]
  by_cases hh : s.heads t = none
  · rw [if_pos hh]
    by_cases htn : t = []
    · simp [htn, openedBy, hu]
    have hten : (openedRow t ts payload).tenantID = [] := rfl
    have hsub : (openedRow t ts payload).subject = t := rfl
    have hlist : (if t ≠ [] then some (openedRow t ts payload) else none).toList.filter
        (fun o => o.tenantID != t) = [openedRow t ts payload] := by
      simp [htn, hten, Ne.symm htn]
    rw [hlist, openedBy, List.countP_singleton]
    simp [hten, hsub, openedRow_action, hh, eq_comm]
  · simp [openedBy, hh]

/-- The heads of the chains the batch writes to are there afterwards. -/
theorem heads_batch {ts : Int} (hne : rows ≠ []) (hall : ∀ r ∈ rows, r.tenantID = t) (u : Bytes)
    (hu : u ≠ []) :
    (∀ r ∈ openedRows s t (openedFor rows ts payload) ++ rows, r.tenantID ≠ u) ↔ u ≠ t := by
  obtain ⟨r, rest, rfl⟩ := List.exists_cons_of_ne_nil hne
  constructor
  · intro h hut
    exact h r (List.mem_append_right _ List.mem_cons_self) (by rw [hut]; exact hall r List.mem_cons_self)
  intro hut x hx
  rcases List.mem_append.mp hx with hx | hx
  · have hx : x ∈ (openedFor (r :: rest) ts payload).toList := by
      unfold openedRows at hx
      split at hx
      · exact (List.mem_filter.mp hx).1
      · cases hx
    have hx := Option.mem_toList.mp hx
    unfold openedFor at hx
    simp only at hx
    split at hx
    · cases hx
      exact Ne.symm hu
    · cases hx
  · rw [hall x hx]; exact Ne.symm hut

theorem logsHold_append {ev : Event} {evs : List Event} {fail : Fault} (hcur : k.current = cur)
    (h : LogsHold C old cur s)
    (hres : ∀ r ∈ (ev :: evs).map rowFor, r.tenantID = [] → r.action ≠ actionChainOpened) :
    LogsHold C old cur (auditAppend fail s ((ev :: evs).map rowFor) (k.seal C)
      (openedFor ((ev :: evs).map rowFor) ev.ts payload)).1 := by
  rcases auditAppend_cases fail s ((ev :: evs).map rowFor) (k.seal C)
    (openedFor ((ev :: evs).map rowFor) ev.ts payload) with heq | ⟨s', a, hbody, heq⟩
  · rw [heq]; exact h
  rw [heq]
  obtain ⟨logs, hlogs, hdom, hopen⟩ := h
  obtain ⟨t, hne, hall, hw, hheads⟩ := auditAppendBody_ok hbody
  have hten : ∀ r ∈ (ev :: evs).map rowFor, r.tenantID = t := fun r hr => (hall r hr).2
  obtain ⟨logs', hlogs', hopen', hnil⟩ := writes_holds hcur hw hlogs
  refine ⟨logs', hlogs', fun u => ?_, fun u hu => ?_⟩
  · rw [hnil, hdom, hheads]
  rw [hopen', hopen u hu, openedBy_batch hne hten hres u hu]
  have hu' := (hheads u).trans (and_congr_right fun _ => heads_batch hne hten u hu)
  by_cases hut : u = t
  · subst hut
    by_cases hh : s.heads u = none <;> simp [hh, hu']
  · by_cases hh : s.heads u = none <;> simp [hh, hut, hu']

theorem logsHold_prune {before limit : Int} {fail : Fault} (hk : KeysFit C k old cur)
    (hold : TablesHold s) (h : LogsHold C old cur s) :
    LogsHold C old cur (auditPrune fail s t before limit (k.sealAnchor C)).1 := by
  rcases auditPrune_cases C k fail s t before limit with
    ⟨heq, -⟩ | ⟨head, pruned, last, st, rotated, hs, hp, -⟩
  · rw [heq]; exact h
  obtain ⟨logs, hlogs, hdom, hopen⟩ := h
  have hentries : ∀ u, (Function.update logs t (pruneLog (logs t) last.seq
      (anchorSeal C k head pruned last st rotated) cur) u).entries = (logs u).entries :=
    (Function.forall_update_iff logs fun u g => g.entries = (logs u).entries).mpr
      ⟨rfl, fun _ _ => rfl⟩
  have hheads : ∀ u, (auditPrune fail s t before limit (k.sealAnchor C)).1.heads u = none ↔
      s.heads u = none := by
    intro u
    by_cases hu : u = t
    · subst hu; simp [hp.head_eq', hp.head_eq]
    · rw [hp.heads_ne u hu]
  refine ⟨_, chainHolds_update hlogs (prunes_self hk (hlogs t) hold hp hs) fun u hu =>
    ⟨hp.events_ne u hu, by simp only [headOf, hp.heads_ne u hu]⟩, fun u => ?_, fun u hu => ?_⟩
  · rw [hentries, hdom, hheads]
  · rw [hentries, hopen u hu]
    simp only [hheads]

/-! ## Whole runs -/

theorem chainHolds_init (t : Bytes) : ChainHolds C old cur World.init.store t {} := by
  refine ⟨?_, .nil, .nil _ _, rfl, le_rfl, rfl, rfl, fun h => absurd rfl h, fun h => absurd rfl h, ?_,
    rfl, fun _ => ⟨rfl, rfl, rfl⟩, fun h => absurd h (by decide)⟩
  · intro e he; cases he
  · rintro ⟨e, he, -⟩; cases he

/-- A run under one pair of keys keeps the logs behind the tables. -/
theorem logsHold_of_run {w w' : World} (hk : KeysFit C k old cur)
    (h : Run (step C) (Under k) w w') (hw : Anchored w ∧ LogsHold C old cur w.store) :
    Anchored w' ∧ LogsHold C old cur w'.store := by
  refine h.invariant (I := fun w => Anchored w ∧ LogsHold C old cur w.store) ?_ hw
  rintro w l w' ⟨ha, hl⟩ ⟨hkeys, hsink, hres⟩ hstep
  refine ⟨anchored_step ha hsink hstep, ?_⟩
  cases l with
  | append k' rows opened fail =>
    obtain ⟨ev, evs, payload, rfl, rfl⟩ := hsink
    cases hkeys
    cases hstep
    exact logsHold_append hk.current hl hres
  | prune k' t before limit fail =>
    cases hkeys
    cases hstep
    exact logsHold_prune hk ha.tables hl

/-- Through appends and prunes, whatever faults they meet, the rows of a chain are those past its
anchor and up to its head, in order. -/
theorem rows_of_honest_run {w : World} (hk : k.current ≠ [])
    (h : Run (step C) (Under k) World.init w) (t : Bytes) :
    (headOf w.store t).seq = (headOf w.store t).anchorSeq + (w.store.events t).length ∧
      ∀ (i : Nat) r, (w.store.events t)[i]? = some r →
        r.seq = (headOf w.store t).anchorSeq + 1 + i := by
  have hfit : KeysFit C k k.current k.current := ⟨rfl, hk, fun h => absurd rfl h⟩
  obtain ⟨-, logs, hlogs, -⟩ := logsHold_of_run hfit h ⟨anchored_init,
    fun _ => {}, chainHolds_init, fun _ => ⟨fun _ => rfl, fun _ => rfl⟩, fun _ _ => rfl⟩
  have hlog := hlogs t
  have hle := hlog.pruned_le
  rw [hlog.headSeq, hlog.anchorSeq, hlog.events]
  refine ⟨?_, fun i r hr => hlog.kept_signed.seq_getElem hr⟩
  simp only [Log.kept, rowsOf, List.length_map, List.length_drop]
  omega

theorem rows_of_recorded_run : ∃ w, Run (step plain) (Under ⟨[1], []⟩) World.init w ∧
    (w.store.events []).length = 1 ∧
      (headOf w.store []).seq = (headOf w.store []).anchorSeq + 1 := by
  have h : Run (step plain) (Under ⟨[1], []⟩) World.init TamperEvidence.Removed.world :=
    .tail (a := .append ⟨[1], []⟩ [rowFor TamperEvidence.Removed.event]
      (openedFor [rowFor TamperEvidence.Removed.event] 5 []) noFault) (.refl _)
      ⟨rfl, ⟨TamperEvidence.Removed.event, [], [], rfl, rfl⟩, by decide⟩ rfl
  exact ⟨_, h, by decide +kernel, (rows_of_honest_run (by decide) h []).1⟩

/-- When the current key becomes the previous one, everything so far was signed with
it. -/
theorem chainHolds_rotate {a b : Bytes} (h : ChainHolds C a a s t g) : ChainHolds C a b s t g := by
  have hkeys : ∀ e ∈ g.entries, e.key = a := fun e he => (h.keys e he).elim id id
  have hhead : g.entries ≠ [] → g.headKey = a := fun hne => (h.headKey hne).elim id id
  have hsame : (∃ e ∈ g.entries, e.key = b) → b = a := by
    rintro ⟨e, he, rfl⟩
    exact hkeys e he
  refine ⟨fun e he => .inl (hkeys e he), ?_, h.signed, h.events, h.pruned_le, h.headSeq, h.headHash,
    fun hne => .inl (hhead hne), h.headMac, fun hex => ?_, h.anchorSeq, h.noAnchor, fun hpos => ?_⟩
  · refine h.rotation.imp_of_mem fun {x y} hx hy _ hxb => ?_
    rw [hkeys y hy, ← hxb, hkeys x hx]
  · rw [hsame hex]
    obtain ⟨e, he, -⟩ := hex
    exact hhead (List.ne_nil_of_mem he)
  · obtain ⟨h1, h2, h3, st, hdec, hcount, hflag⟩ := h.anchor hpos
    have h2 : g.anchorKey = a := h2.elim id id
    refine ⟨h1, .inl h2, h3, st, hdec, hcount, fun hb hr => ?_⟩
    obtain ⟨e, he, hc⟩ := hflag h2 hr
    exact ⟨e, he, by rw [hc, ← hb, h2]⟩

theorem logsHold_rotate {a b : Bytes} (h : LogsHold C a a s) : LogsHold C a b s := by
  obtain ⟨logs, hlogs, hrest⟩ := h
  exact ⟨logs, fun t => chainHolds_rotate (hlogs t), hrest⟩

/-- Tables with their logs behind them verify, every chain of them. -/
theorem verify_of_logsHold (hk : KeysFit C k old cur) (h : LogsHold C old cur s) (t : Bytes) :
    k.verify C s t = .ok (okReport s t) := by
  obtain ⟨logs, hlogs, hdom, hopen⟩ := h
  have hop : Verified C k s [] {} := (hlogs []).verified hk (.inl rfl)
  by_cases ht : t = []
  · subst ht
    exact verify_of_verified (.inl ⟨rfl, rfl⟩) hop
  obtain ⟨st, st₀, -, hdec, -, hcount, -⟩ := (hlogs []).checkAnchor_ok hk
  have hread := readRegistry_of_verified hop hdec
  -- the registry counts the openings of the whole log
  have htotal : (addOpenings [] (carried st₀) (rowsAfter s [] (headOf s []).anchorSeq)).count t =
      if s.heads t = none then 0 else 1 := by
    rw [count_addOpenings, count_carried, hcount, (hlogs []).rowsAfter_anchor]
    have := hopen t ht
    rw [ChainHolds.rowsOf_entries, openings_append] at this
    by_cases hh : s.heads t = none
    · rw [if_pos hh] at this ⊢; omega
    · rw [if_neg hh] at this ⊢; omega
  refine verify_of_verified (.inr ⟨ht, _, hread, rfl⟩) ((hlogs t).verified hk (.inr ?_))
  simp only [htotal]
  have hseq := (hlogs t).headSeq
  have hlen : s.heads t ≠ none → (headOf s t).seq ≠ 0 := by
    intro hh
    have := List.length_pos_iff.mpr (fun hn => hh ((hdom t).mp hn))
    omega
  by_cases hh : s.heads t = none
  · simp [hh]
  · simp only [if_neg hh]
    refine ⟨le_rfl, fun _ => ⟨?_, hlen hh⟩, fun h => absurd h one_ne_zero⟩
    exact Option.isSome_iff_ne_none.mpr hh

/-- Any history of the sink under one pair of keys, then any under a pair whose previous
key is the old current one: the operator chain and every tenant's chain verify at
every point of it. -/
theorem verify_of_honest_run {a b p : Bytes} {w₁ w₂ : World} (ha : a ≠ []) (hb : b ≠ [])
    (hsep : a ≠ b → ∀ m, C.hmacSHA256 a m ≠ C.hmacSHA256 b m)
    (h₁ : Run (step C) (Under ⟨a, p⟩) World.init w₁) (h₂ : Run (step C) (Under ⟨b, a⟩) w₁ w₂)
    (t : Bytes) :
    (∃ rep, (⟨a, p⟩ : ChainKeys).verify C w₁.store t = .ok rep ∧ rep.ok = true) ∧
      ∃ rep, (⟨b, a⟩ : ChainKeys).verify C w₂.store t = .ok rep ∧ rep.ok = true := by
  have hk₁ : KeysFit C ⟨a, p⟩ a a := ⟨rfl, ha, fun h => absurd rfl h⟩
  have hk₂ : KeysFit C ⟨b, a⟩ a b := ⟨rfl, hb, fun h => ⟨rfl, ha, hsep h⟩⟩
  obtain ⟨hanch, hlogs⟩ := logsHold_of_run hk₁ h₁ ⟨anchored_init,
    fun _ => {}, chainHolds_init, fun _ => ⟨fun _ => rfl, fun _ => rfl⟩, fun _ _ => rfl⟩
  obtain ⟨-, hlogs'⟩ := logsHold_of_run hk₂ h₂ ⟨hanch, logsHold_rotate hlogs⟩
  exact ⟨⟨_, verify_of_logsHold hk₁ hlogs t, rfl⟩, ⟨_, verify_of_logsHold hk₂ hlogs' t, rfl⟩⟩

end

/-- An event recorded under one key, its opening record pruned under the next: the
operator chain has no row left, and every chain verifies. -/
theorem verify_of_rotated_run : ∃ w₁ w₂ : World,
    Run (step plain) (Under ⟨[1], []⟩) World.init w₁ ∧ Run (step plain) (Under ⟨[2], [1]⟩) w₁ w₂ ∧
      w₂.store.events [] = [] ∧
      ∀ t, ∃ rep, (⟨[2], [1]⟩ : ChainKeys).verify plain w₂.store t = .ok rep ∧ rep.ok = true := by
  have h₁ : Run (step plain) (Under ⟨[1], []⟩) World.init TamperEvidence.Removed.world :=
    .tail (a := .append ⟨[1], []⟩ [rowFor TamperEvidence.Removed.event]
      (openedFor [rowFor TamperEvidence.Removed.event] 5 []) noFault) (.refl _)
      ⟨rfl, ⟨TamperEvidence.Removed.event, [], [], rfl, rfl⟩, by decide⟩ rfl
  have h₂ : Run (step plain) (Under ⟨[2], [1]⟩) TamperEvidence.Removed.world _ :=
    .tail (a := .prune ⟨[2], [1]⟩ [] 100 0 noFault) (.refl _) ⟨rfl, trivial, trivial⟩ rfl
  have hsep : ([1] : Bytes) ≠ [2] → ∀ m, plain.hmacSHA256 [1] m ≠ plain.hmacSHA256 [2] m :=
    fun _ m h => absurd (lpField_append_inj h).1 (by decide)
  exact ⟨_, _, h₁, h₂, by decide +kernel,
    fun t => (verify_of_honest_run (by decide) (by decide) hsep h₁ h₂ t).2⟩

end Loomcycle.AuditChain.Completeness
