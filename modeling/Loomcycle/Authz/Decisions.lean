import Loomcycle.Authz.Engine

/-! Questions about many instances at once, a bare scope (`DecideScope`) and a whole type
(`AnyInstance`), against the question about one instance. -/

namespace Loomcycle.Authz

open Lib Lib.Encoding

/-- The request about another instance. -/
def Request.at (req : Request) (name : Bytes) (owner : String) : Request :=
  { req with resource := { req.resource with name, owner } }

variable {cat : Catalog} {e : Effective} {req : Request} {name scope : Bytes}
  {owner owner' type : String} {spec : TypeSpec} {tr : TypeRules} {s : Selector} {c : Condition}
  {deny : Bool}

/-- Hits that are fewer denies and more allows make a greater outcome. -/
theorem rank_decision_le {hit hit' : Effect → CompiledRule → Bool}
    (hdeny : ∀ r ∈ tr.deny, hit' .deny r = true → hit .deny r = true)
    (hallow : ∀ r ∈ tr.allow, hit .allow r = true → hit' .allow r = true) :
    (tr.decision hit).outcome.rank ≤ (tr.decision hit').outcome.rank := by
  have hd : tr.deny.any (hit' .deny) = true → tr.deny.any (hit .deny) = true := by
    simpa using fun r hr h => ⟨r, hr, hdeny r hr h⟩
  have ha : tr.allow.any (hit .allow) = true → tr.allow.any (hit' .allow) = true := by
    simpa using fun r hr h => ⟨r, hr, hallow r hr h⟩
  simp only [TypeRules.decision]
  split_ifs <;> simp_all [Outcome.rank]

theorem Condition.holds_at (h : c.ownerIsSelf.isSome = true → owner = req.resource.owner) :
    c.holds (req.at name owner) deny = c.holds req deny := by
  cases hown : c.ownerIsSelf with
  | none => simp [Condition.holds, Request.at, hown]
  | some self =>
    rw [hown] at h
    simp [Condition.holds, Request.at, Request.self, h rfl]

/-! ## A whole type -/

theorem Selector.matches_of_type (h : s.matches spec anyInstance = true) (name : Bytes) :
    s.matches spec name = true := by
  by_cases hname : name = anyInstance
  · rwa [hname]
  rw [Selector.matches, if_pos rfl] at h
  rw [Selector.matches, if_neg hname]
  split at h
  · next hscopes => simp [hscopes, h]
  · next hscopes =>
    obtain ⟨hscope, hglob⟩ := Bool.and_eq_true_iff.mp h
    simp [hscopes, Selector.inScope, hscope, Option.isNone_iff_eq_none.mp hglob]

theorem rank_decideOwn_le (e : RuleSet) :
    (e.decideOwn cat (req.at name owner)).outcome.rank ≤
      (e.decideOwn cat (req.at anyInstance owner)).outcome.rank := by
  by_cases hcross : e.crosses req.resource.tenantID = true
  · simp [RuleSet.decideOwn, Request.at, hcross]
  cases htr : e.byType req.resource.type with
  | none => simp [RuleSet.decideOwn, Request.at, htr]
  | some tr =>
  cases hspec : cat req.resource.type with
  | none => simp [RuleSet.decideOwn, Request.at, htr, hspec]
  | some spec =>
    simp only [RuleSet.decideOwn, Request.at, if_neg hcross, htr, hspec]
    refine rank_decision_le (fun r hr hit => ?_) (fun r hr hit => ?_)
    · -- a deny of every instance
      simp only [CompiledRule.matches, reduceCtorEq, and_false, if_false, Bool.and_eq_true,
        List.any_eq_true] at hit ⊢
      obtain ⟨⟨haction, s, hs, hmatch⟩, hwhen⟩ := hit
      exact ⟨⟨haction, s, hs, Selector.matches_of_type hmatch name⟩, hwhen⟩
    · -- an allow of some instance
      simp only [CompiledRule.matches, and_self, if_true, Bool.and_eq_true] at hit ⊢
      refine ⟨⟨hit.1.1, ?_⟩, hit.2⟩
      cases hsels : r.sels with
      | nil => simp [hsels] at hit
      | cons s l => rfl

/-- A deny of the set matches, or the tenant is another's. -/
def RuleSet.denies (cat : Catalog) (req : Request) (e : RuleSet) : Bool :=
  e.crosses req.resource.tenantID || (e.byType req.resource.type).any fun tr =>
    (cat req.resource.type).any fun spec => tr.deny.any (·.matches .deny spec req)

/-- An allow of the set matches. -/
def RuleSet.allows (cat : Catalog) (req : Request) (e : RuleSet) : Bool :=
  (e.byType req.resource.type).any fun tr =>
    (cat req.resource.type).any fun spec => tr.allow.any (·.matches .allow spec req)

theorem outcome_decideOwn (e : RuleSet) : (e.decideOwn cat req).outcome =
    if e.denies cat req then .denied else if e.allows cat req then .allowed else .noMatch := by
  unfold RuleSet.decideOwn RuleSet.denies RuleSet.allows
  split
  · next h => simp [h]
  · next h =>
    simp only [Bool.not_eq_true] at h
    cases e.byType req.resource.type with
    | none => simp [h]
    | some tr =>
      cases cat req.resource.type with
      | none => simp [h]
      | some spec => simp [h, TypeRules.decision]

/-- Some set of the chain denies. -/
def Effective.denies (cat : Catalog) (req : Request) (e : Effective) : Bool :=
  e.sets.any (·.denies cat req)

/-- No set of the chain denies and each allows. -/
def Effective.allows (cat : Catalog) (req : Request) (e : Effective) : Bool :=
  e.sets.all fun r => !r.denies cat req && r.allows cat req

/-- The meet denies where some set does and allows where each does. -/
theorem meets_sets (f : RuleSet → Outcome) (e : Effective) :
    (e.answer f = .denied ↔ ∃ r ∈ e.sets, f r = .denied) ∧
      (e.answer f = .allowed ↔ ∀ r ∈ e.sets, f r = .allowed) := by
  induction e with
  | alone own => simp [Effective.answer, Effective.sets]
  | held own ceiling ih =>
    obtain ⟨hdenied, hallowed⟩ := meets_of_rank (rank_meetOutcome (f own) (ceiling.answer f))
    simp only [Effective.answer, Effective.sets, List.exists_mem_cons_iff, List.forall_mem_cons,
      hdenied, hallowed, ih, and_self]

theorem outcome_eq_denied_iff (e : Effective) :
    (e.decide cat req).outcome = .denied ↔ e.denies cat req = true := by
  rw [outcome_decide, (meets_sets _ e).1, Effective.denies, List.any_eq_true]
  refine exists_congr fun r => and_congr_right fun _ => ?_
  rw [outcome_decideOwn]
  split_ifs <;> simp_all

theorem outcome_eq_allowed_iff (e : Effective) :
    (e.decide cat req).outcome = .allowed ↔ e.allows cat req = true := by
  rw [outcome_decide, (meets_sets _ e).2, Effective.allows, List.all_eq_true]
  refine forall₂_congr fun r _ => ?_
  rw [outcome_decideOwn]
  split_ifs <;> simp_all

/-- A rule on every document, of one's own (`some true`), not of one's own or of anyone. -/
def docRule (self : Option Bool) : CompiledRule where
  actions := ["read"]
  sels := [{ scope := anyInstance }]
  when := self.map fun self => { ownerIsSelf := some self }

def docSpec : TypeSpec := ⟨[ascii "tenant", ascii "user"], 58⟩

def docCatalog (type : String) : Option TypeSpec := if type = "document" then some docSpec else none

def docRules (deny allow : List CompiledRule) : Effective :=
  .alone ⟨⟨"acme", "ann"⟩, fun type => if type = "document" then some { deny, allow } else none⟩

/-- Reading documents of the tenant. -/
def docRequest : Request :=
  ⟨⟨"acme", "ann"⟩, "read", { type := "document", name := ascii "tenant" }, {}⟩

/-- A deny that holds for some instance holds for the scope, and an allow that holds for the scope
holds for every instance. -/
theorem Condition.holdsForScope_at (howner : req.resource.owner ≠ "" → owner = req.resource.owner) :
    (c.holds (req.at name owner) true = true → c.holdsForScope req true = true) ∧
      (c.holdsForScope req false = true → c.holds (req.at name owner) false = true) := by
  by_cases hoff : (c.inert || c.noAddress req.context) = true
  · have hno : ∀ deny, c.holds (req.at name owner) deny = false := fun _ => if_pos hoff
    simp [Condition.holdsForScope, hoff, hno]
  cases hundecided : c.undecided req with
  | true => simp [Condition.holdsForScope, hoff, hundecided]
  | false =>
    have hsame : ∀ deny, c.holds (req.at name owner) deny = c.holds req deny := by
      refine fun deny => Condition.holds_at fun hown => howner ?_
      simp only [Condition.undecided, hown, Bool.or_eq_false_iff] at hundecided
      simpa using hundecided.1.1.1.1.1.1
    simp [Condition.holdsForScope, hoff, hundecided, hsame]

def RuleSet.hasInstanceRules (e : RuleSet) (type : String) (scope : Bytes) : Bool :=
  (e.byType type).any fun tr => (tr.deny ++ tr.allow).any fun r => r.sels.any fun s =>
    s.inScope scope && (!s.coversScope || r.when.isSome)

/-- Whether a rule on the type names a part of the scope only, or has a condition. -/
def Effective.hasInstanceRules (type : String) (scope : Bytes) : Effective → Bool
  | alone own => own.hasInstanceRules type scope
  | held own ceiling => ceiling.hasInstanceRules type scope || own.hasInstanceRules type scope

theorem hasInstanceRules_sets
    (h : e.hasInstanceRules type scope = false) :
    ∀ r ∈ e.sets, r.hasInstanceRules type scope = false := by
  induction e with
  | alone own => exact List.forall_mem_singleton.mpr h
  | held own ceiling ih =>
    obtain ⟨hceiling, hown⟩ := Bool.or_eq_false_iff.mp h
    exact List.forall_mem_cons.mpr ⟨hown, ih hceiling⟩

theorem doublestarMatch_all (path : List Bytes) : doublestarMatch [[42, 42]] path = true := by
  rw [doublestarMatch, Glob.search_iff, Glob.matches_star rfl]
  exact ⟨[], List.nil_suffix, rfl⟩

section Scope

variable (hscoped : spec.isScoped = true)
include hscoped

theorem Selector.inScope_of_matches (h : s.matches spec name = true) :
    s.inScope (splitName spec name).1 = true := by
  have hscopes : spec.scopes.isEmpty = false := by simp_all [TypeSpec.isScoped]
  simp only [Selector.matches, hscopes] at h
  split at h <;> simp_all [Selector.inScope]

theorem Selector.matches_of_covers (hname : name ≠ anyInstance)
    (hin : s.inScope (splitName spec name).1 = true) (hcovers : s.coversScope = true) :
    s.matches spec name = true := by
  have hscopes : spec.scopes.isEmpty = false := by simp_all [TypeSpec.isScoped]
  simp only [Selector.matches, if_neg hname, hscopes, hin]
  cases hglob : s.glob with
  | none => simp
  | some glob =>
    obtain rfl : glob = [[42, 42]] := by simpa [Selector.coversScope, hglob] using hcovers
    simp [doublestarMatch_all]

variable (req) (hspec : cat req.resource.type = some spec)
include hspec

theorem rank_decideScopeOwn_le (hscope : (splitName spec name).1 = req.resource.name)
    (howner : req.resource.owner ≠ "" → owner = req.resource.owner) (e : RuleSet) :
    (e.decideScopeOwn cat req).outcome.rank ≤
      (e.decideOwn cat (req.at name owner)).outcome.rank := by
  unfold RuleSet.decideScopeOwn RuleSet.decideOwn
  simp only [Request.at, hspec, Option.any_some, hscoped, if_true]
  split
  · exact Nat.le_refl _
  cases e.byType req.resource.type with
  | none => exact Nat.le_refl _
  | some tr =>
    refine rank_decision_le (fun r _ h => ?_) (fun r _ h => ?_)
    · -- a deny of the instance touches the scope
      simp only [CompiledRule.matches, Bool.and_eq_true, reduceCtorEq, and_false, if_false,
        List.any_eq_true, Option.all_eq_true] at h
      obtain ⟨⟨haction, s, hs, hmatch⟩, hwhen⟩ := h
      have hin := Selector.inScope_of_matches hscoped hmatch
      rw [hscope] at hin
      simp only [Bool.and_eq_true, CompiledRule.touchesScope, List.any_eq_true, Option.all_eq_true]
      exact ⟨⟨haction, s, hs, by simpa using hin⟩,
        fun c hc => (Condition.holdsForScope_at howner).1 (hwhen c hc)⟩
    · -- an allow of the whole scope covers the instance
      simp only [Bool.and_eq_true, CompiledRule.touchesScope, List.any_eq_true,
        Option.all_eq_true] at h
      obtain ⟨⟨haction, s, hs, hin, hcovers⟩, hfor⟩ := h
      rw [← hscope] at hin
      simp only [CompiledRule.matches, Bool.and_eq_true, Option.all_eq_true]
      refine ⟨⟨haction, ?_⟩, fun c hc => (Condition.holdsForScope_at howner).2 (hfor c hc)⟩
      split
      · simpa using List.ne_nil_of_mem hs
      · next hname =>
        refine List.any_eq_true.mpr ⟨s, hs, Selector.matches_of_covers hscoped ?_ hin ?_⟩
        · exact fun heq => hname ⟨heq, trivial⟩
        · simpa using hcovers

/-- What a scope question allows is allowed for each instance of the scope, and what is denied
for one of them is denied for the scope: under any chain of ceilings, for the owner the request
names or, when it names none, for any. -/
theorem decideScope_sound (e : Effective) (hscope : (splitName spec name).1 = req.resource.name)
    (howner : req.resource.owner ≠ "" → owner = req.resource.owner) :
    ((e.decideScope cat req).outcome = .allowed →
      (e.decide cat (req.at name owner)).outcome = .allowed) ∧
    ((e.decide cat (req.at name owner)).outcome = .denied →
      (e.decideScope cat req).outcome = .denied) := by
  rw [outcome_decideScope, outcome_decide]
  exact Outcome.of_rank_le
    (rank_answer_le fun r _ => rank_decideScopeOwn_le req hscoped hspec hscope howner r)

omit hscoped hspec in
theorem decideScope_sound_documents :
    ((docRules [] [docRule none]).decide docCatalog
      (docRequest.at (ascii "tenant:a") "bob")).outcome = .allowed :=
  (decideScope_sound docRequest rfl rfl _ rfl (fun h => absurd rfl h)).1
    (by decide +kernel)

/-- Where every selector in the scope covers it and its rule has no condition, the instances are
answered no more than the scope. -/
theorem rank_le_decideScopeOwn {e : RuleSet} (hname : name ≠ anyInstance)
    (hscope : (splitName spec name).1 = req.resource.name)
    (h : e.hasInstanceRules req.resource.type req.resource.name = false) :
    (e.decideOwn cat (req.at name owner)).outcome.rank ≤
      (e.decideScopeOwn cat req).outcome.rank := by
  unfold RuleSet.decideScopeOwn RuleSet.decideOwn
  simp only [Request.at, hspec, Option.any_some, hscoped, if_true]
  split
  · exact Nat.le_refl _
  cases hby : e.byType req.resource.type with
  | none => exact Nat.le_refl _
  | some tr =>
    have hwhole : ∀ r ∈ tr.deny ++ tr.allow, ∀ s ∈ r.sels, s.inScope req.resource.name = true →
        s.coversScope = true ∧ r.when = none :=
      List.forall_mem_append.mpr (by simpa [RuleSet.hasInstanceRules, hby] using h)
    refine rank_decision_le (fun r hr hit => ?_) (fun r hr hit => ?_)
    · simp only [Bool.and_eq_true, CompiledRule.touchesScope, List.any_eq_true] at hit
      obtain ⟨⟨haction, s, hs, hin, -⟩, -⟩ := hit
      obtain ⟨hcovers, hwhen⟩ := hwhole r (List.mem_append_left _ hr) s hs hin
      rw [← hscope] at hin
      have hmatch := Selector.matches_of_covers hscoped hname hin hcovers
      simp only [CompiledRule.matches, hname, false_and, if_false, Bool.and_eq_true, hwhen]
      exact ⟨⟨haction, List.any_eq_true.mpr ⟨s, hs, hmatch⟩⟩, rfl⟩
    · simp only [CompiledRule.matches, hname, false_and, if_false, Bool.and_eq_true,
        List.any_eq_true] at hit
      obtain ⟨⟨haction, s, hs, hmatch⟩, -⟩ := hit
      have hin := hscope ▸ Selector.inScope_of_matches hscoped hmatch
      obtain ⟨hcovers, hwhen⟩ := hwhole r (List.mem_append_right _ hr) s hs hin
      simp only [CompiledRule.touchesScope, Bool.and_eq_true, List.any_eq_true, hwhen]
      exact ⟨⟨haction, s, hs, hin, by simp [hcovers]⟩, rfl⟩

end Scope

/-- Without such a rule every instance of the scope, whoever owns it, has the answer the scope
has. -/
theorem instances_alike (cat : Catalog) (e : Effective) (req : Request) (spec : TypeSpec)
    (hspec : cat req.resource.type = some spec) (hscoped : spec.isScoped = true)
    (h : e.hasInstanceRules req.resource.type req.resource.name = false) (name : Bytes)
    (owner : String) (hname : name ≠ anyInstance)
    (hscope : (splitName spec name).1 = req.resource.name) :
    (e.decide cat (req.at name owner)).outcome = (e.decideScope cat req).outcome := by
  have hsame : ∀ asked owner, (asked ≠ "" → owner = asked) →
      (e.decide cat (req.at name owner)).outcome =
        (e.decideScope cat (req.at req.resource.name asked)).outcome := by
    intro asked owner howner
    rw [outcome_decideScope, outcome_decide]
    refine Outcome.eq_of_rank (le_antisymm (rank_answer_le fun r hr => ?_)
      (rank_answer_le fun r _ => ?_))
    · exact rank_le_decideScopeOwn (req.at _ asked) hscoped hspec hname hscope
        (hasInstanceRules_sets h r hr)
    · exact rank_decideScopeOwn_le (req.at _ asked) hscoped hspec hscope howner r
  -- a scope question that names no owner answers for every owner
  calc (e.decide cat (req.at name owner)).outcome
    _ = (e.decideScope cat (req.at req.resource.name "")).outcome := hsame "" owner nofun
    _ = (e.decide cat (req.at name req.resource.owner)).outcome := (hsame "" _ nofun).symm
    _ = (e.decideScope cat req).outcome := hsame _ _ fun _ => rfl

theorem instances_alike_documents :
    ((docRules [] [docRule none]).decide docCatalog
        (docRequest.at (ascii "tenant:a") "bob")).outcome =
      ((docRules [] [docRule none]).decideScope docCatalog docRequest).outcome :=
  instances_alike docCatalog _ docRequest docSpec rfl rfl (by decide +kernel) _ _ (by decide) rfl

end Loomcycle.Authz
