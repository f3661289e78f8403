import Mathlib.Data.List.Sort
import Loomcycle.Lib.JsonText

/-! # Which keys of a stateful run's state are dropped

`loop/sigma_evict.go`. A map is the function its reads see, with the order `range` takes its keys
in beside it; how the state is marshalled is any function of it. -/

namespace Loomcycle.Conversation.Evict
open Lib.Encoding Lib.JsonText

inductive Retention
  | core
  | derived
  | scratch
deriving DecidableEq, Repr

/-- The value a map has at a key; nothing else has one. -/
def field (k : Bytes) : Json → Option Json
  | .obj members => members.lookup k
  | _ => none

def retentionOf (schema : Json) (key : Bytes) : Retention :=
  let props := field (ascii "properties") schema
  let prop := props.bind (field key)
  match prop.bind (field (ascii "x-retention")) with
  | some (.str c) =>
    if c = ascii "scratch" then .scratch else if c = ascii "derived" then .derived else .core
  | _ => .core

section
variable (schema : Json) (lastWritten : Bytes → Int)

/-- The comparison of two candidates, by their keys. -/
def less (a b : Bytes) : Bool :=
  if retentionOf schema a ≠ retentionOf schema b then retentionOf schema a = .scratch
  else if lastWritten a ≠ lastWritten b then lastWritten a < lastWritten b
  else a.map UInt8.toNat < b.map UInt8.toNat

/-- The candidates as `sort.Slice` leaves them: none is less than one before it. -/
def cands (range : List Bytes) : List Bytes :=
  (range.filter fun k => retentionOf schema k ≠ .core).insertionSort fun a b =>
    less schema lastWritten b a = false

end

/-- The state Σ. -/
abbrev SigmaMap (V : Type) := Bytes → Option V

section
variable {V : Type} (marshal : SigmaMap V → Option Bytes)

def delete (sigma : SigmaMap V) (k : Bytes) : SigmaMap V := Function.update sigma k none

def sigmaTokens (sigma : SigmaMap V) : Nat :=
  match marshal sigma with
  | none => 0
  | some b => b.length / 4

/-- The loop over the candidates. -/
def evict (budget : Int) : SigmaMap V → List Bytes → List Bytes
  | _, [] => []
  | remaining, k :: ks =>
    if sigmaTokens marshal remaining ≤ budget then []
    else k :: evict budget (delete remaining k) ks

def sigmaEvictionPlan (sigma : SigmaMap V) (range : List Bytes) (schema : Json)
    (lastWritten : Bytes → Int) (budget : Int) : List Bytes :=
  if budget ≤ 0 ∨ sigmaTokens marshal sigma ≤ budget then []
  else evict marshal budget sigma (cands schema lastWritten range)

/-- The loop takes candidates from the front while the rest is too large. -/
theorem evict_spec (budget : Int) (sigma : SigmaMap V) (ks : List Bytes) :
    let plan := evict marshal budget sigma ks
    ∃ rest, ks = plan ++ rest ∧
      (rest ≠ [] → sigmaTokens marshal (plan.foldl delete sigma) ≤ budget) ∧
      ∀ p q, plan = p ++ q → q ≠ [] → budget < sigmaTokens marshal (p.foldl delete sigma) := by
  induction ks generalizing sigma with
  | nil => exact ⟨[], rfl, nofun, fun p q h hq => absurd (List.append_eq_nil_iff.mp h.symm).2 hq⟩
  | cons k ks ih =>
    rw [evict]
    split
    · next hfits =>
      refine ⟨k :: ks, rfl, fun _ => hfits, fun p q h hq => ?_⟩
      exact absurd (List.append_eq_nil_iff.mp h.symm).2 hq
    · next hlarge =>
      obtain ⟨rest, hks, hfits, hleast⟩ := ih (delete sigma k)
      refine ⟨rest, congrArg (k :: ·) hks, hfits, fun p q h hq => ?_⟩
      cases p with
      | nil => exact not_le.mp hlarge
      | cons k' p =>
        obtain ⟨rfl, hrest⟩ := List.cons_eq_cons.mp h
        exact hleast p q hrest hq

/-- A larger budget stops the loop no later. -/
theorem evict_prefix {budget budget' : Int} (h : budget ≤ budget') (sigma : SigmaMap V)
    (ks : List Bytes) : evict marshal budget' sigma ks <+: evict marshal budget sigma ks := by
  induction ks generalizing sigma with
  | nil => exact List.prefix_rfl
  | cons k ks ih =>
    simp only [evict]
    split
    · exact List.nil_prefix
    · next hlarge =>
      rw [if_neg fun hfits => hlarge (hfits.trans h)]
      exact List.cons_prefix_cons.mpr ⟨rfl, ih (delete sigma k)⟩

end

/-! ### The order of the candidates -/

variable {V : Type} {schema : Json} {lastWritten : Bytes → Int} {range range' : List Bytes}

/-- Scratch before derived, then the least recently written, then by key. -/
def rank (schema : Json) (lastWritten : Bytes → Int) (k : Bytes) : Bool ×ₗ Int ×ₗ List Nat :=
  toLex (retentionOf schema k ≠ .scratch, toLex (lastWritten k, k.map UInt8.toNat))

theorem rank_injective : Function.Injective (rank schema lastWritten) := by
  intro a b h
  have hkey := congrArg (fun x => (ofLex (ofLex x).2).2) h
  exact List.map_injective_iff.mpr (fun _ _ => UInt8.toNat_inj.mp) hkey

theorem less_iff {a b : Bytes} (ha : retentionOf schema a ≠ .core)
    (hb : retentionOf schema b ≠ .core) :
    less schema lastWritten a b = true ↔
      rank schema lastWritten a < rank schema lastWritten b := by
  simp only [rank, Prod.Lex.toLex_lt_toLex, less]
  by_cases hr : retentionOf schema a = retentionOf schema b
  · by_cases hs : lastWritten a = lastWritten b <;> simp [hr, hs]
  · cases h : retentionOf schema a <;> cases h' : retentionOf schema b <;> simp_all

theorem mem_cands {k : Bytes} :
    k ∈ cands schema lastWritten range ↔ k ∈ range ∧ retentionOf schema k ≠ .core := by
  rw [cands, List.mem_insertionSort, List.mem_filter, decide_eq_true_eq]

theorem cands_ordered (range : List Bytes) : (cands schema lastWritten range).Pairwise fun a b =>
    rank schema lastWritten a ≤ rank schema lastWritten b := by
  have hsort : (cands schema lastWritten range).map (rank schema lastWritten) =
      ((range.filter fun k => retentionOf schema k ≠ .core).map
        (rank schema lastWritten)).insertionSort (· ≤ ·) := by
    refine List.map_insertionSort _ _ _ _ fun a ha b hb => ?_
    rw [List.mem_filter, decide_eq_true_eq] at ha hb
    rw [← Bool.not_eq_true, less_iff hb.2 ha.2, not_lt]
  exact List.pairwise_map.mp (hsort ▸ List.pairwise_insertionSort _ _)

theorem cands_sorted (h : range.Nodup) : (cands schema lastWritten range).Pairwise fun a b =>
    rank schema lastWritten a < rank schema lastWritten b := by
  have hnodup : (cands schema lastWritten range).Nodup :=
    (List.perm_insertionSort ..).nodup_iff.mpr (h.filter _)
  refine ((cands_ordered range).and hnodup).imp fun h => lt_of_le_of_ne h.1 ?_
  exact fun heq => h.2 (rank_injective heq)

/-- The order of the map does not matter. -/
theorem cands_eq (hperm : range.Perm range') :
    cands schema lastWritten range = cands schema lastWritten range' := by
  refine List.Perm.eq_of_pairwise (fun a b _ _ hab hba => rank_injective (le_antisymm hab hba))
    (cands_ordered range) (cands_ordered range') ?_
  exact (List.perm_insertionSort ..).trans
    ((hperm.filter _).trans (List.perm_insertionSort ..).symm)

/-- `range` goes over the keys of the map. -/
def Ranges (range : List Bytes) (sigma : SigmaMap V) : Prop :=
  range.Nodup ∧ ∀ k, k ∈ range ↔ (sigma k).isSome

/-- Only keys that are not core are dropped, in their order, whatever the order of the map; no
fewer of them would do, and with a budget they do unless there are no more; without one nothing
is dropped. -/
theorem evictionPlan_minimal {marshal : SigmaMap V → Option Bytes} {sigma : SigmaMap V}
    {budget : Int} (h : Ranges range sigma) :
    let plan := sigmaEvictionPlan marshal sigma range schema lastWritten budget
    (∀ k ∈ plan, retentionOf schema k ≠ .core) ∧
      plan.Pairwise (fun k k' => rank schema lastWritten k < rank schema lastWritten k') ∧
      (∀ range', Ranges range' sigma →
        sigmaEvictionPlan marshal sigma range' schema lastWritten budget = plan) ∧
      (0 < budget → sigmaTokens marshal (plan.foldl delete sigma) ≤ budget ∨
        ∀ k, (sigma k).isSome → retentionOf schema k ≠ .core → k ∈ plan) ∧
      (∀ p q, plan = p ++ q → q ≠ [] → budget < sigmaTokens marshal (p.foldl delete sigma)) ∧
      (budget ≤ 0 → plan = []) := by
  intro plan
  have hsame : ∀ range', Ranges range' sigma →
      sigmaEvictionPlan marshal sigma range' schema lastWritten budget = plan := by
    intro range' h'
    have hperm := (List.perm_ext_iff_of_nodup h'.1 h.1).mpr fun k => (h'.2 k).trans (h.2 k).symm
    rw [sigmaEvictionPlan, cands_eq hperm]
    rfl
  by_cases hnone : budget ≤ 0 ∨ sigmaTokens marshal sigma ≤ budget
  · have hplan : plan = [] := if_pos hnone
    rw [hplan] at hsame ⊢
    refine ⟨nofun, .nil, hsame, fun hpos => .inl (hnone.resolve_left (not_le.mpr hpos)), ?_,
      fun _ => rfl⟩
    exact fun p q h hq => absurd (List.append_eq_nil_iff.mp h.symm).2 hq
  have hplan : plan = evict marshal budget sigma (cands schema lastWritten range) := if_neg hnone
  obtain ⟨rest, hks, hfits, hleast⟩ :=
    evict_spec marshal budget sigma (cands schema lastWritten range)
  rw [← hplan] at hks hfits hleast
  have hsorted : (cands schema lastWritten range).Pairwise _ := cands_sorted h.1
  rw [hks, List.pairwise_append] at hsorted
  refine ⟨fun k hk => ?_, hsorted.1, hsame, fun _ => ?_, hleast, fun h => absurd (.inl h) hnone⟩
  · have hmem : k ∈ cands schema lastWritten range := hks ▸ List.mem_append_left rest hk
    exact (mem_cands.mp hmem).2
  by_cases hrest : rest = []
  · refine .inr fun k hk hcore => ?_
    rw [hrest, List.append_nil] at hks
    rw [← hks]
    exact mem_cands.mpr ⟨(h.2 k).mpr hk, hcore⟩
  · exact .inl (hfits hrest)

/-- A state with one key, which the schema calls scratch. -/
def noted : SigmaMap Unit := fun k => if k = ascii "n" then some () else none

def notedSchema : Json :=
  .obj [(ascii "properties",
    .obj [(ascii "n", .obj [(ascii "x-retention", .str (ascii "scratch"))])])]

def marshalNoted (sigma : SigmaMap Unit) : Option Bytes :=
  some (ascii (if (sigma (ascii "n")).isSome then "\x7b\"n\":\"note\"\x7d" else "\x7b\x7d"))

theorem evictionPlan_minimal_noted :
    Ranges [ascii "n"] noted ∧ ∀ range, Ranges range noted →
      sigmaEvictionPlan marshalNoted noted range notedSchema (fun _ => 0) 1 = [ascii "n"] := by
  have h : Ranges [ascii "n"] noted := by
    refine ⟨List.nodup_singleton _, fun k => ?_⟩
    by_cases hk : k = ascii "n" <;> simp [noted, hk]
  refine ⟨h, fun range hrange => ?_⟩
  exact ((evictionPlan_minimal h).2.2.1 range hrange).trans (by decide)

/-- Without a budget nothing is dropped, though the key could be. -/
theorem evictionPlan_no_budget :
    sigmaEvictionPlan marshalNoted noted [ascii "n"] notedSchema (fun _ => 0) 0 = [] ∧
      ¬ (sigmaTokens marshalNoted noted : Int) ≤ 0 ∧ (noted (ascii "n")).isSome ∧
      retentionOf notedSchema (ascii "n") ≠ .core := by
  decide

/-- A larger budget drops the first of the keys a smaller one drops, in whatever orders the two
plans range over the map. -/
theorem evictionPlan_prefix (marshal : SigmaMap V → Option Bytes) (sigma : SigmaMap V)
    (b n : Nat) (h : range.Perm range') :
    sigmaEvictionPlan marshal sigma range schema lastWritten (b + n + 1) <+:
      sigmaEvictionPlan marshal sigma range' schema lastWritten (b + 1) := by
  simp only [sigmaEvictionPlan, cands_eq h]
  split
  · exact List.nil_prefix
  · rw [if_neg (by omega)]
    exact evict_prefix marshal (by omega) _ _

theorem evictionPlan_prefix_noted :
    sigmaEvictionPlan marshalNoted noted [ascii "n", ascii "m"] notedSchema (fun _ => 0) 2 <+:
      sigmaEvictionPlan marshalNoted noted [ascii "m", ascii "n"] notedSchema (fun _ => 0) 1 :=
  evictionPlan_prefix marshalNoted noted 0 1 (.swap _ _ _)

end Loomcycle.Conversation.Evict
