import Loomcycle.Lib.JsonText

/-! # Collapsing near-duplicates among search results

A ranked list is scanned from its best entry on. An entry similar to one that stayed is a
duplicate: it is skipped, or only counted, or folded into the one that stayed, whose value then
becomes an envelope around its own value and those of its duplicates. -/

namespace Loomcycle.Memory
open Lib.Encoding Lib.Utf8 Lib.JsonText

/-! ## The envelope -/

structure ProvEntry where
  key : Bytes := []
  value : Json := .null

structure Envelope where
  value : Json := .null
  mergedFrom : Option (List ProvEntry) := none

/-- Case as the decoder folds it in names. Two runes that are not ASCII fold to a letter. -/
def foldChunk : Chunk → Bytes
  | .rune r bs =>
    if 97 ≤ r ∧ r ≤ 122 then [UInt8.ofNat (r - 32)]
    else if r = 0x212A then [75]
    else if r = 0x17F then [83]
    else bs
  | .stray b => [b]

def foldName (k : Bytes) : Bytes := (chunks k).flatMap foldChunk

/-- The member is for the field. -/
def names (field : String) (k : Bytes) : Bool := foldName k == foldName (ascii field)

/-- Decodes into a struct, member by member, over what it holds. -/
def intoStruct {σ : Type} (member : σ → Bytes × Json → Option σ) (old : σ) : Json → Option σ
  | .null => some old
  | .obj ms => ms.foldlM member old
  | _ => none

def ProvEntry.member (p : ProvEntry) (m : Bytes × Json) : Option ProvEntry :=
  if names "key" m.1 then match m.2 with
    | .str s => some { p with key := s }
    | .null => some p
    | _ => none
  else if names "value" m.1 then some { p with value := m.2 }
  else some p

/-- An array decodes over the slice there is, item over item. -/
def intoSlice (old : List ProvEntry) : List Json → Option (List ProvEntry)
  | [] => some []
  | j :: js => do
    let p ← intoStruct ProvEntry.member (old.headD {}) j
    let ps ← intoSlice old.tail js
    some (p :: ps)

def Envelope.member (e : Envelope) (m : Bytes × Json) : Option Envelope :=
  if names "value" m.1 then some { e with value := m.2 }
  else if names "merged_from" m.1 then match m.2 with
    | .null => some { e with mergedFrom := none }
    | .arr js => do
      let ps ← intoSlice (e.mergedFrom.getD []) js
      some { e with mergedFrom := some ps }
    | _ => none
  else some e

def unmarshal (j : Json) : Option Envelope := intoStruct Envelope.member {} j

def ProvEntry.marshal (p : ProvEntry) : Json :=
  .obj [(ascii "key", .str p.key), (ascii "value", p.value)]

def marshal (value : Json) (mergedFrom : List ProvEntry) : Json :=
  .obj [(ascii "value", value), (ascii "merged_from", .arr (mergedFrom.map ProvEntry.marshal))]

def mergeProvenance (retained : Json) (dup : ProvEntry) : Json :=
  match unmarshal retained with
  | some ⟨value, some mergedFrom⟩ => marshal value (mergedFrom ++ [dup])
  | _ => marshal retained [dup]

/-- What a reader takes a value for: the survivor's own value and what was merged into it. -/
def recover (j : Json) : Json × List ProvEntry :=
  match unmarshal j with
  | some ⟨value, some mergedFrom⟩ => (value, mergedFrom)
  | _ => (j, [])

theorem intoSlice_marshal (ps : List ProvEntry) :
    intoSlice [] (ps.map ProvEntry.marshal) = some ps := by
  have hkey : names "key" (ascii "key") = true := by decide
  have hvalue : names "value" (ascii "value") = true := by decide
  have hother : names "key" (ascii "value") = false := by decide
  induction ps with
  | nil => rfl
  | cons p ps ih =>
    simp [intoSlice, ProvEntry.marshal, intoStruct, ProvEntry.member, hkey, hvalue, hother, ih]

theorem unmarshal_marshal (value : Json) (ps : List ProvEntry) :
    unmarshal (marshal value ps) = some ⟨value, some ps⟩ := by
  have hvalue : names "value" (ascii "value") = true := by decide
  have hmerged : names "merged_from" (ascii "merged_from") = true := by decide
  have hother : names "value" (ascii "merged_from") = false := by decide
  simp [unmarshal, marshal, intoStruct, Envelope.member, hvalue, hmerged, hother,
    intoSlice_marshal]

/-- A merge adds the duplicate to what is read, whatever the value was. -/
theorem recover_mergeProvenance (j : Json) (dup : ProvEntry) :
    recover (mergeProvenance j dup) = ((recover j).1, (recover j).2 ++ [dup]) := by
  unfold mergeProvenance
  split
  · next value ps h => simp only [recover, unmarshal_marshal, h]
  · next h =>
    have hj : recover j = (j, []) := by
      unfold recover
      split
      · next h' => exact absurd h' (h _ _)
      · rfl
    rw [hj, recover, unmarshal_marshal]
    rfl

/-- A decoded envelope has the value of a member, or null. -/
theorem value_of_members {ms : List (Bytes × Json)} {e e' : Envelope}
    (h : ms.foldlM Envelope.member e = some e') :
    e'.value = e.value ∨ ∃ m ∈ ms, e'.value = m.2 := by
  induction ms generalizing e with
  | nil =>
    cases h
    exact .inl rfl
  | cons m ms ih =>
    rw [List.foldlM_cons] at h
    obtain ⟨e₁, hmember, hrest⟩ := Option.bind_eq_some_iff.mp h
    have hone : e₁.value = m.2 ∨ e₁.value = e.value := by
      unfold Envelope.member at hmember
      split_ifs at hmember
      · cases hmember
        exact .inl rfl
      · split at hmember
        · cases hmember
          exact .inr rfl
        · obtain ⟨ps, -, hps⟩ := Option.bind_eq_some_iff.mp hmember
          cases hps
          exact .inr rfl
        · cases hmember
      · cases hmember
        exact .inr rfl
    obtain hkept | ⟨m', hm', hvalue⟩ := ih hrest
    · rw [hkept]
      exact hone.symm.imp_right fun hvalue => ⟨m, List.mem_cons_self, hvalue⟩
    · exact .inr ⟨m', List.mem_cons_of_mem _ hm', hvalue⟩

theorem recover_of_plain {j : Json}
    (hplain : ∀ env, unmarshal j = some env → env.mergedFrom = none) : recover j = (j, []) := by
  unfold recover
  split
  · next value ps h => cases hplain _ h
  · rfl

/-- What is taken for an envelope is larger than the value it is read as. -/
theorem recover_fst_eq_iff (j : Json) :
    (recover j).1 = j ↔ ∀ env, unmarshal j = some env → env.mergedFrom = none := by
  constructor
  · intro hread env henv
    obtain ⟨value, merged⟩ := env
    cases merged with
    | none => rfl
    | some ps =>
      have hvalue : value = j := by simpa only [recover, henv] using hread
      match j with
      | .null => cases henv
      | .obj ms =>
        obtain hnull | ⟨⟨k, v⟩, hm, hmember⟩ := value_of_members henv
        · cases hvalue.symm.trans hnull
        · -- a member is smaller than the object
          have hlt := List.sizeOf_lt_of_mem hm
          have heq : sizeOf v = sizeOf (Json.obj ms) := congrArg sizeOf (hmember.symm.trans hvalue)
          simp only [Prod.mk.sizeOf_spec, Json.obj.sizeOf_spec] at hlt heq
          omega
      | .bool _ | .num _ | .str _ | .arr _ => cases henv
  · intro hplain
    rw [recover_of_plain hplain]

/-! ## The scan -/

structure Entry (ν : Type) where
  key : Bytes
  value : Json
  vector : List ν

variable {ν : Type}

def Entry.prov (e : Entry ν) : ProvEntry := ⟨e.key, e.value⟩

def Entry.merge (dup e : Entry ν) : Entry ν := { e with value := mergeProvenance e.value dup.prov }

inductive DedupMode
  | drop
  | merge
  | keep

structure DedupConfig where
  enabled : Bool
  mode : DedupMode

/-- The output so far, the entries that stayed with their places in it, and the count. -/
structure Scan (ν : Type) where
  kept : List (Entry ν) := []
  anchors : List (Entry ν × Nat) := []
  dropped : Nat := 0

variable (similar : List ν → List ν → Bool)

def dupOf (anchors : List (Entry ν × Nat)) (cand : Entry ν) : Option (Entry ν × Nat) :=
  if cand.vector = [] then none
  else anchors.find? fun a => a.1.vector ≠ [] && similar cand.vector a.1.vector

def Scan.anchor (st : Scan ν) (cand : Entry ν) : Scan ν :=
  { st with
    kept := st.kept ++ [cand]
    anchors := st.anchors ++ [(cand, st.kept.length)] }

def Scan.duplicate (st : Scan ν) (mode : DedupMode) (cand : Entry ν) (keptIdx : Nat) : Scan ν :=
  { st with
    dropped := st.dropped + 1
    kept := match mode with
      | .keep => st.kept ++ [cand]
      | .merge => st.kept.modify keptIdx cand.merge
      | .drop => st.kept }

def Scan.step (mode : DedupMode) (st : Scan ν) (cand : Entry ν) : Scan ν :=
  match dupOf similar st.anchors cand with
  | none => st.anchor cand
  | some (_, keptIdx) => st.duplicate mode cand keptIdx

def dedupResults (cfg : DedupConfig) (ranked : List (Entry ν)) : List (Entry ν) × Nat :=
  if !cfg.enabled || ranked.length < 2 then (ranked, 0)
  else
    let st := ranked.foldl (Scan.step similar cfg.mode) {}
    (st.kept, st.dropped)

/-! ## What it is for -/

/-- The entries that stay and their duplicates: an entry stays if it has no vector or is similar to
none of those that stayed before and have one. -/
def partitionStep (p : List (Entry ν) × List (Entry ν)) (e : Entry ν) :
    List (Entry ν) × List (Entry ν) :=
  if e.vector = [] ∨ ∀ a ∈ p.1, a.vector ≠ [] → similar e.vector a.vector = false then
    (p.1 ++ [e], p.2)
  else (p.1, p.2 ++ [e])

def partition (ranked : List (Entry ν)) : List (Entry ν) × List (Entry ν) :=
  ranked.foldl (partitionStep similar) ([], [])

/-- The scan tests against the entries that stayed, whatever it puts out. -/
structure Tracks (mode : DedupMode) (st : Scan ν) (p : List (Entry ν) × List (Entry ν)) : Prop where
  anchors : st.anchors.map Prod.fst = p.1
  dropped : st.dropped = p.2.length
  drop : mode = .drop → st.kept = p.1

variable {st : Scan ν} {p : List (Entry ν) × List (Entry ν)} {mode : DedupMode}

/-- What a step can do. -/
theorem step_cases (h : Tracks mode st p) (cand : Entry ν) :
    (partitionStep similar p cand = (p.1 ++ [cand], p.2) ∧
        st.step similar mode cand = st.anchor cand) ∨
      ∃ a ∈ st.anchors, partitionStep similar p cand = (p.1, p.2 ++ [cand]) ∧
        st.step similar mode cand = st.duplicate mode cand a.2 := by
  unfold Scan.step partitionStep
  rw [← h.anchors]
  cases hdup : dupOf similar st.anchors cand with
  | none =>
    refine .inl ⟨if_pos ?_, rfl⟩
    unfold dupOf at hdup
    split at hdup
    · next hnil => exact .inl hnil
    · simpa using Or.inr (List.find?_eq_none.mp hdup)
  | some a =>
    unfold dupOf at hdup
    split at hdup
    · cases hdup
    · next hne =>
      have hmem := List.mem_of_find?_eq_some hdup
      have hsim := List.find?_some hdup
      simp only [ne_eq, decide_not, Bool.and_eq_true, Bool.not_eq_eq_eq_not, Bool.not_true,
        decide_eq_false_iff_not] at hsim
      refine .inr ⟨a, hmem, if_neg ?_, rfl⟩
      rintro (hnil | hall)
      · exact hne hnil
      · rw [hall a.1 (List.mem_map_of_mem hmem) hsim.1] at hsim
        cases hsim.2

theorem tracks_step (h : Tracks mode st p) (cand : Entry ν) :
    Tracks mode (st.step similar mode cand) (partitionStep similar p cand) := by
  obtain ⟨hs, ht⟩ | ⟨a, -, hs, ht⟩ := step_cases similar h cand
  · rw [hs, ht]
    exact ⟨by simp [Scan.anchor, h.anchors], h.dropped, fun hm => by simp [Scan.anchor, h.drop hm]⟩
  · rw [hs, ht]
    refine ⟨h.anchors, by simp [Scan.duplicate, h.dropped], fun hm => ?_⟩
    subst hm
    exact h.drop rfl

/-- In merge mode the output reads as the entries that stayed and their duplicates. -/
structure Merged (st : Scan ν) (p : List (Entry ν) × List (Entry ν)) : Prop extends
    Tracks .merge st p where
  places : ∀ a ∈ st.anchors, a.2 < st.kept.length
  values : st.kept.map (fun e => (e.key, (recover e.value).1)) =
    p.1.map fun e => (e.key, (recover e.value).1)
  merged : (st.kept.flatMap fun e => (recover e.value).2).Perm
    ((p.1.flatMap fun e => (recover e.value).2) ++ p.2.map Entry.prov)

theorem merged_step (h : Merged st p) (cand : Entry ν) :
    Merged (st.step similar .merge cand) (partitionStep similar p cand) := by
  have htracks := tracks_step similar h.toTracks cand
  obtain ⟨hs, ht⟩ | ⟨a, ha, hs, ht⟩ := step_cases similar h.toTracks cand
  · rw [hs, ht] at htracks ⊢
    refine { htracks with
      places := fun a ha => ?_, values := by simp [Scan.anchor, h.values], merged := ?_ }
    · have hlen : (st.anchor cand).kept.length = st.kept.length + 1 := List.length_append
      obtain ha | ha := List.mem_append.mp ha
      · exact hlen ▸ Nat.lt_succ_of_lt (h.places a ha)
      · rw [List.mem_singleton.mp ha, hlen]
        exact Nat.lt_succ_self _
    · have hperm := h.merged.append_right (recover cand.value).2
      simp only [Scan.anchor, List.flatMap_append, List.flatMap_singleton, List.append_assoc]
        at hperm ⊢
      exact hperm.trans (List.perm_append_comm.append_left _)
  · rw [hs, ht] at htracks ⊢
    -- the output before and behind the survivor the entry is merged into
    have hlt := h.places a ha
    obtain ⟨l, x, r, hkept, hmod⟩ : ∃ l x r, st.kept = l ++ x :: r ∧
        (st.duplicate .merge cand a.2).kept = l ++ cand.merge x :: r :=
      ⟨st.kept.take a.2, st.kept[a.2], st.kept.drop (a.2 + 1), by simp,
        List.modify_eq_take_cons_drop hlt⟩
    have hvalues := h.values
    have hlast := h.merged.append_right [cand.prov]
    rw [hkept] at hvalues hlast
    refine { htracks with places := fun a ha => ?_, values := ?_, merged := ?_ }
    · exact (List.length_modify ..).symm ▸ h.places a ha
    · rw [hmod, ← hvalues]
      simp [Entry.merge, recover_mergeProvenance]
    · rw [hmod]
      simp only [List.flatMap_append, List.flatMap_cons, Entry.merge, recover_mergeProvenance,
        List.append_assoc, List.map_append] at hlast ⊢
      exact ((List.perm_append_comm.append_left _).append_left _).trans hlast

variable {similar}

theorem dedupResults_eq (mode : DedupMode) (ranked : List (Entry ν)) :
    dedupResults similar ⟨true, mode⟩ ranked =
      ((ranked.foldl (Scan.step similar mode) {}).kept,
        (ranked.foldl (Scan.step similar mode) {}).dropped) := by
  unfold dedupResults
  split
  · next hshort =>
    match ranked with
    | [] => rfl
    | [e] => simp [Scan.step, dupOf, Scan.anchor]
    | _ :: _ :: _ => simp at hshort
  · rfl

/-- Keep mode puts out every entry. -/
theorem kept_keep (ranked : List (Entry ν)) (st : Scan ν) :
    (ranked.foldl (Scan.step similar .keep) st).kept = st.kept ++ ranked := by
  induction ranked generalizing st with
  | nil => simp
  | cons e ranked ih =>
    have hstep : (st.step similar .keep e).kept = st.kept ++ [e] := by
      unfold Scan.step
      split <;> rfl
    rw [List.foldl_cons, ih, hstep, List.append_assoc]
    rfl

/-- Drop mode returns the entries that stay; keep mode all of them, with the same count; and merge
mode's result reads back as the entries that stay with their values, and their duplicates, if and
only if no value of one that stays reads as an envelope already. -/
theorem dedup_results_spec (similar : List ν → List ν → Bool) (ranked : List (Entry ν)) :
    dedupResults similar ⟨true, .drop⟩ ranked =
        ((partition similar ranked).1, (partition similar ranked).2.length) ∧
      dedupResults similar ⟨true, .keep⟩ ranked = (ranked, (partition similar ranked).2.length) ∧
      (((dedupResults similar ⟨true, .merge⟩ ranked).1.map
            (fun e => (e.key, (recover e.value).1)) =
          (partition similar ranked).1.map (fun e => (e.key, e.value)) ∧
        ((dedupResults similar ⟨true, .merge⟩ ranked).1.flatMap
            fun e => (recover e.value).2).Perm ((partition similar ranked).2.map Entry.prov)) ↔
        ∀ e ∈ (partition similar ranked).1, ∀ env, unmarshal e.value = some env →
          env.mergedFrom = none) := by
  have htracks : ∀ mode, Tracks mode (ranked.foldl (Scan.step similar mode) {})
      (partition similar ranked) := fun mode =>
    List.foldl_rel ⟨rfl, rfl, fun _ => rfl⟩ fun e _ _ _ h => tracks_step similar h e
  have hmerged : Merged (ranked.foldl (Scan.step similar .merge) {}) (partition similar ranked) :=
    List.foldl_rel ⟨⟨rfl, rfl, nofun⟩, nofun, rfl, .nil⟩ fun e _ _ _ h => merged_step similar h e
  have hvalues : (dedupResults similar ⟨true, .merge⟩ ranked).1.map
        (fun e => (e.key, (recover e.value).1)) =
        (partition similar ranked).1.map (fun e => (e.key, e.value)) ↔
      ∀ e ∈ (partition similar ranked).1, (recover e.value).1 = e.value := by
    rw [dedupResults_eq, hmerged.values, List.map_inj_left]
    simp only [Prod.mk.injEq, true_and]
  simp only [recover_fst_eq_iff] at hvalues
  refine ⟨?_, ?_, fun h => hvalues.mp h.1, fun hplain => ⟨hvalues.mpr hplain, ?_⟩⟩
  · rw [dedupResults_eq, (htracks .drop).drop rfl, (htracks .drop).dropped]
  · rw [dedupResults_eq, kept_keep, (htracks .keep).dropped]
    rfl
  · have hnil : ((partition similar ranked).1.flatMap fun e => (recover e.value).2) = [] :=
      List.flatMap_eq_nil_iff.mpr fun e he => by rw [recover_of_plain (hplain e he)]
    rw [dedupResults_eq]
    simpa [hnil] using hmerged.merged

/-- Scanning what stayed goes as the scan it stayed in, with nothing to drop. -/
theorem scan_kept (ranked : List (Entry ν)) :
    let st := ranked.foldl (Scan.step similar .drop) {}
    st.kept.foldl (Scan.step similar .drop) {} = { st with dropped := 0 } := by
  refine List.foldlRecOn (motive := fun st : Scan ν =>
    st.kept.foldl (Scan.step similar .drop) {} = { st with dropped := 0 }) ranked _ rfl ?_
  intro st h cand _
  cases hdup : dupOf similar st.anchors cand with
  | none => simp [Scan.step, hdup, Scan.anchor, h]
  | some a => simpa [Scan.step, hdup, Scan.duplicate] using h

/-- Whatever counts as similar, a second pass drops nothing. -/
theorem dedupResults_again (ranked : List (Entry ν)) :
    let kept := (dedupResults similar ⟨true, .drop⟩ ranked).1
    dedupResults similar ⟨true, .drop⟩ kept = (kept, 0) := by
  simp only [dedupResults_eq]
  rw [scan_kept]

/-- A value that reads as an envelope loses its other members. -/
theorem merge_forgets_value : ∃ a a' b : Entry Unit, a.value ≠ a'.value ∧
    dedupResults (fun _ _ => true) ⟨true, .merge⟩ [a, b] =
      dedupResults (fun _ _ => true) ⟨true, .merge⟩ [a', b] := by
  let note : Bytes × Json := (ascii "note", .str (ascii "x"))
  refine ⟨⟨ascii "a", .obj [(ascii "merged_from", .arr []), note], [()]⟩,
    ⟨ascii "a", .obj [(ascii "merged_from", .arr [])], [()]⟩, ⟨ascii "b", .null, [()]⟩, ?_, ?_⟩
  · simp
  · rfl

end Loomcycle.Memory
