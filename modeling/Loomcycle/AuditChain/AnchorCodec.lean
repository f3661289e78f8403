import Loomcycle.AuditChain.Walk

/-! # What an anchor's state carries

The state a prune signs is JSON; the next prune and the registry read it back. What
survives the trip is the rotation flag and the count of every tenant, provided the
tenants are valid UTF-8 and the counts fit the integers they are read into. -/

namespace Loomcycle.AuditChain.AnchorCodec
open Lib.Encoding Lib.Utf8 Lib.JsonText
open AuditChain.Store AuditChain.Chain AuditChain.Walk

/-! ## Counts -/

theorem count_add (m : TenantCounts) (k u : Bytes) (n : Int) :
    (m.add k n).count u = if u = k then m.count k + n else m.count u := by
  unfold TenantCounts.add TenantCounts.count
  split
  · rename_i h
    subst h
    rw [AList.lookup_insert]
    rfl
  · rename_i h
    rw [AList.lookup_insert_ne h]

@[simp] theorem count_empty (u : Bytes) : TenantCounts.count ∅ u = 0 := by
  simp [TenantCounts.count]

/-- How often a tenant is opened among the rows of a chain. -/
def openings (t : Bytes) (rows : List AuditEventRow) (u : Bytes) : Nat :=
  rows.countP fun r => decide (t = [] ∧ r.action = actionChainOpened ∧ r.subject = u)

theorem count_addOpenings (t : Bytes) (m : TenantCounts) (rows : List AuditEventRow) (u : Bytes) :
    (addOpenings t m rows).count u = m.count u + openings t rows u := by
  induction rows generalizing m with
  | nil => simp [addOpenings, openings]
  | cons r rows ih =>
    have hstep : addOpenings t m (r :: rows) = addOpenings t
        (if t = [] ∧ r.action = actionChainOpened then m.add r.subject 1 else m) rows := rfl
    rw [hstep, ih]
    simp only [openings, List.countP_cons]
    by_cases hopen : t = [] ∧ r.action = actionChainOpened
    · rw [if_pos hopen, count_add]
      by_cases hu : u = r.subject
      · simp [hopen, hu]
        omega
      · simp [hopen, hu, Ne.symm hu]
    · rw [if_neg hopen]
      have : ¬(t = [] ∧ r.action = actionChainOpened ∧ r.subject = u) := fun h =>
        hopen ⟨h.1, h.2.1⟩
      simp [this]

/-! ## The entries of a map -/

theorem mem_sortedEntries {m : TenantCounts} {u : Bytes} {n : Int} :
    (u, n) ∈ sortedEntries m ↔ m.lookup u = some n := by
  unfold sortedEntries
  rw [List.mem_mergeSort]
  rw [← Option.mem_def, AList.mem_lookup_iff]
  constructor
  · intro h
    obtain ⟨e, he, heq⟩ := List.mem_map.mp h
    cases heq
    exact he
  · intro h
    exact List.mem_map.mpr ⟨_, h, rfl⟩

theorem sortedEntries_nodup (m : TenantCounts) : ((sortedEntries m).map Prod.fst).Nodup := by
  have hperm : (sortedEntries m).Perm (m.entries.map fun e => (e.1, e.2)) :=
    List.mergeSort_perm _ _
  refine (hperm.map Prod.fst).nodup_iff.mpr ?_
  rw [List.map_map]
  exact m.nodupKeys

/-- Inserting entries one after the other. -/
def insertAll (m : TenantCounts) (l : List (Bytes × Int)) : TenantCounts :=
  l.foldl (fun m e => m.insert e.1 e.2) m

variable {l : List (Bytes × Int)} {st : AnchorState}

theorem lookup_insertAll (hl : (l.map Prod.fst).Nodup) (m : TenantCounts) (u : Bytes) (n : Int) :
    (insertAll m l).lookup u = some n ↔
      (u, n) ∈ l ∨ (u ∉ l.map Prod.fst ∧ m.lookup u = some n) := by
  induction l generalizing m with
  | nil => simp [insertAll]
  | cons e l ih =>
    obtain ⟨he, hl⟩ := List.nodup_cons.mp hl
    have hstep : insertAll m (e :: l) = insertAll (m.insert e.1 e.2) l := rfl
    rw [hstep, ih hl]
    by_cases hu : u = e.1
    · subst hu
      have hmem : (e.1, n) ∉ l := fun h => he (List.mem_map.mpr ⟨_, h, rfl⟩)
      rw [AList.lookup_insert]
      simp only [hmem, false_or, he, not_false_eq_true, true_and, Option.some.injEq, List.mem_cons,
        or_false, List.map_cons, not_true_eq_false, false_and]
      constructor
      · rintro rfl; rfl
      · intro h; rw [← h]
    · have hne : (u, n) ≠ e := by
        rintro rfl
        exact hu rfl
      rw [AList.lookup_insert_ne hu]
      simp only [List.mem_cons, hne, false_or, List.map_cons, hu]

/-! ## The trip through JSON -/

/-- A map that survives it. -/
def Storable (m : TenantCounts) : Prop :=
  ∀ u n, m.lookup u = some n → validString u = true ∧ inInt64 n

theorem countsOfMembers_eq (h : ∀ e ∈ l, inInt64 e.2) (m : TenantCounts) :
    countsOfMembers m (l.map fun e => (e.1, .num (formatInt e.2))) = some (insertAll m l) := by
  induction l generalizing m with
  | nil => rfl
  | cons e l ih =>
    have he : countOfJson (.num (formatInt e.2)) = some e.2 := by
      have := h e List.mem_cons_self
      unfold inInt64 at this
      simp only [countOfJson, numInt_formatInt, if_pos this]
    simp only [List.map_cons, countsOfMembers, he, Option.bind_some]
    exact ih (fun x hx => h x (List.mem_cons_of_mem _ hx)) _

theorem wfMembers_counts (h : ∀ e ∈ l, validString e.1 = true) :
    WfMembers (l.map fun e => (e.1, .num (formatInt e.2))) := by
  induction l with
  | nil => trivial
  | cons e l ih =>
    exact ⟨h e List.mem_cons_self, ⟨validNumber_formatInt _, formatInt_numBytes _⟩,
      ih fun x hx => h x (List.mem_cons_of_mem _ hx)⟩

theorem toJson_wf (h : Storable st.opened) : st.toJson.Wf := by
  have hcounts : WfMembers ((sortedEntries st.opened).map fun e => (e.1, .num (formatInt e.2))) :=
    wfMembers_counts fun e he => (h e.1 e.2 (mem_sortedEntries.mp he)).1
  have hopened : validString openedName = true := by decide
  have hrotated : validString rotatedName = true := by decide
  unfold AnchorState.toJson
  cases hr : st.rotated <;> by_cases hn : st.opened.entries = []
  · simp [hn, Json.Wf, WfMembers]
  · simp [hn, Json.Wf, WfMembers, hopened, hcounts]
  · simp [hn, Json.Wf, WfMembers, hrotated]
  · simp [hn, Json.Wf, WfMembers, hopened, hrotated, hcounts]

theorem stateOfMember_opened {m : TenantCounts} {ms : List (Bytes × Json)}
    (h : countsOfMembers st.opened ms = some m) :
    stateOfMember st openedName (.obj ms) = some { st with opened := m } := by
  have hname : fieldName openedName = openedName := by decide
  unfold stateOfMember
  rw [if_pos hname]
  simp only [h, Option.map_some]

theorem stateOfMember_rotated (st : AnchorState) :
    stateOfMember st rotatedName (.bool true) = some { st with rotated := true } := by
  have hname : fieldName rotatedName = rotatedName := by decide
  have hne : fieldName rotatedName ≠ openedName := by decide
  unfold stateOfMember
  rw [if_neg hne, if_pos hname]

/-- A state that was marshalled reads back with its flag and every count. -/
theorem decode_marshal (h : Storable st.opened) :
    ∃ st', decodeAnchorState (marshalAnchorState st) = some st' ∧ st'.rotated = st.rotated ∧
      ∀ u, st'.opened.lookup u = st.opened.lookup u := by
  have hparse := parse_render (toJson_wf h)
  have hne : marshalAnchorState st ≠ [] := by
    obtain ⟨b, t, hb, -⟩ := render_head (toJson_wf h)
    rw [marshalAnchorState, hb]
    exact List.cons_ne_nil _ _
  have hcounts : countsOfMembers ∅ ((sortedEntries st.opened).map fun e =>
      (e.1, .num (formatInt e.2))) = some (insertAll ∅ (sortedEntries st.opened)) :=
    countsOfMembers_eq (fun e he => (h e.1 e.2 (mem_sortedEntries.mp he)).2) _
  have hlookup : ∀ u, (insertAll ∅ (sortedEntries st.opened)).lookup u = st.opened.lookup u := by
    intro u
    refine Option.ext fun n => ?_
    rw [lookup_insertAll (sortedEntries_nodup _), mem_sortedEntries]
    simp
  have hopened := @stateOfMember_opened {} _ _ hcounts
  refine ⟨{ opened := insertAll ∅ (sortedEntries st.opened), rotated := st.rotated }, ?_, rfl,
    hlookup⟩
  unfold decodeAnchorState
  rw [if_neg hne, marshalAnchorState, hparse]
  unfold AnchorState.toJson
  -- an empty map is left out, and reads back as the one it starts from
  by_cases hn : st.opened.entries = []
  · have hnil : sortedEntries st.opened = [] := by simp [sortedEntries, hn]
    cases hr : st.rotated <;> simp [hn, hnil, insertAll, stateOfMembers, stateOfMember_rotated]
  · cases hr : st.rotated <;> simp [hn, stateOfMembers, hopened, stateOfMember_rotated]

/-- What a prune signs reads back as what it counted. -/
theorem decode_sealedState (h : Storable st.opened) :
    ∃ st', decodeAnchorState (sealedState st) = some st' ∧ st'.rotated = st.rotated ∧
      ∀ u, st'.opened.lookup u = st.opened.lookup u := by
  unfold sealedState
  split
  · exact decode_marshal h
  · rename_i hno
    simp only [ne_eq, not_or, not_not, Bool.not_eq_true] at hno
    refine ⟨{}, rfl, hno.2.symm, fun u => ?_⟩
    have hm : st.opened = ∅ := AList.ext hno.1
    rw [hm]

theorem foldl_add_count {l : List (Sigma fun _ : Bytes => Int)} (hl : l.NodupKeys) (m : TenantCounts)
    (u : Bytes) : (l.foldl (fun m e => m.add e.1 e.2) m).count u =
      m.count u + (l.dlookup u).getD 0 := by
  induction l generalizing m with
  | nil => simp
  | cons e l ih =>
    obtain ⟨he, hl⟩ := List.nodupKeys_cons.mp hl
    rw [List.foldl_cons, ih hl, count_add]
    by_cases hu : u = e.1
    · subst hu
      rw [List.dlookup_cons_eq, List.dlookup_eq_none.mpr he]
      simp
    · rw [if_neg hu, List.dlookup_cons_ne l e hu]

/-- The registry starts from the anchor's counts. -/
theorem count_carried (st : AnchorState) (u : Bytes) : (carried st).count u = st.opened.count u := by
  have h := foldl_add_count st.opened.nodupKeys ∅ u
  rw [count_empty, zero_add] at h
  exact h

end Loomcycle.AuditChain.AnchorCodec
