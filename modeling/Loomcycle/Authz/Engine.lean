import Loomcycle.Authz.Glob

/-! The decision engine (`authz/engine.go`) with the conditions and selectors of its rules
(`condition.go`, `selector.go`), over any catalog of resource types.

A set answers by its denies first, then its allows; held to a ceiling it answers with the meet of
both answers. Outcomes are ordered from denied to allowed, and the meet is the smaller one. -/

namespace Loomcycle.Authz

open Lib.Encoding

structure Subject where
  tenantID : String
  id : String

structure Resource where
  type : String
  name : Bytes
  tenantID : String := ""
  owner : String := ""

/-- What the surface knows about the request. A zero time and a nil address are `none`. -/
structure Context where
  transport : String := ""
  now : Option Int := none
  interactive : Bool := false
  tier : String := ""
  userTier : String := ""
  sourceIP : Option Bytes := none
  agent : Bytes := []
  depth : Int := 0
  noClient : Bool := false

structure Request where
  subject : Subject
  action : String
  resource : Resource
  context : Context := {}

inductive Effect where
  | allow
  | deny
deriving DecidableEq, Repr

inductive Outcome where
  | noMatch
  | denied
  | allowed
deriving DecidableEq, Repr

/-! ## Conditions -/

/-- A compiled condition; of the time window and the address blocks it keeps their tests. -/
structure Condition where
  transport : List String := []
  time : Option (Int → Bool) := none
  interactive : Option Bool := none
  tier : List String := []
  userTier : List String := []
  sourceCIDR : Option (Bytes → Bool) := none
  ownerIsSelf : Option Bool := none
  agent : Option (List Bytes) := none
  depth : Option Int := none

def Request.self (req : Request) : Bool :=
  req.resource.owner != "" && req.subject.id != "" && req.resource.owner == req.subject.id

namespace Condition

def inert (c : Condition) : Bool := !c.tier.isEmpty || !c.userTier.isEmpty

/-- There is no client by nature, so no address to match. -/
def noAddress (c : Condition) (ctx : Context) : Bool :=
  c.sourceCIDR.isSome && ctx.sourceIP.isNone && ctx.noClient

def unknown (c : Condition) (ctx : Context) : Bool :=
  (!c.transport.isEmpty && ctx.transport == "") || (c.time.isSome && ctx.now.isNone) ||
    (c.sourceCIDR.isSome && ctx.sourceIP.isNone)

def undecided (c : Condition) (req : Request) : Bool :=
  (c.ownerIsSelf.isSome && req.resource.owner == "") || c.unknown req.context ||
    (!c.tier.isEmpty && req.context.tier == "") ||
    (!c.userTier.isEmpty && req.context.userTier == "") ||
    (c.agent.isSome && req.context.agent.isEmpty) || c.interactive.isSome || c.depth.isSome

/-- The fields that are read off the context. -/
def fits (c : Condition) (ctx : Context) : Bool :=
  (c.transport.isEmpty || c.transport.contains ctx.transport) &&
    c.time.all (fun timeHolds => ctx.now.any timeHolds) &&
    c.interactive.all (· == ctx.interactive) &&
    (c.tier.isEmpty || c.tier.contains ctx.tier) &&
    (c.userTier.isEmpty || c.userTier.contains ctx.userTier) &&
    c.sourceCIDR.all (fun inAnyPrefix => ctx.sourceIP.any inAnyPrefix) &&
    c.agent.all (fun pat => !ctx.agent.isEmpty && doublestarMatch pat (splitSlash ctx.agent)) &&
    c.depth.all (fun max => decide (ctx.depth ≤ max))

/-- A fact the surface should have supplied and did not holds for a deny only. -/
def holds (c : Condition) (req : Request) (deny : Bool) : Bool :=
  if c.inert || c.noAddress req.context then false
  else if c.unknown req.context then deny
  else c.fits req.context && c.ownerIsSelf.all (· == req.self)

/-- `holds` for every instance of a scope at once. -/
def holdsForScope (c : Condition) (req : Request) (deny : Bool) : Bool :=
  if c.inert || c.noAddress req.context then false
  else if c.undecided req then deny
  else c.holds req deny

end Condition

/-! ## Selectors -/

structure TypeSpec where
  scopes : List Bytes
  sep : UInt8

abbrev Catalog := String → Option TypeSpec

def TypeSpec.isEnum (spec : TypeSpec) : Bool := !spec.scopes.isEmpty && spec.sep == 0

def TypeSpec.isScoped (spec : TypeSpec) : Bool := !spec.scopes.isEmpty && spec.sep != 0

/-- The name of a type-level question; as the scope of a selector it is any scope. -/
def anyInstance : Bytes := [42]

structure Selector where
  scope : Bytes := []
  glob : Option (List Bytes) := none
  all : Bool := false
  literal : Bytes := []

def splitName (spec : TypeSpec) (name : Bytes) : Bytes × List Bytes :=
  if spec.isEnum then (name, [])
  else if spec.isScoped then
    let rest := trimSlash ((name.dropWhile (· != spec.sep)).drop 1)
    (name.takeWhile (· != spec.sep), if rest = [] then [] else splitSlash rest)
  else ([], splitSlash (trimSlash name))

namespace Selector

def inScope (s : Selector) (scope : Bytes) : Bool := s.scope == anyInstance || s.scope == scope

def «matches» (s : Selector) (spec : TypeSpec) (name : Bytes) : Bool :=
  if name = anyInstance then
    if spec.scopes.isEmpty then s.all else s.scope == anyInstance && s.glob.isNone
  else if spec.scopes.isEmpty then
    s.all || doublestarMatch (s.glob.getD []) (splitName spec name).2
  else
    s.inScope (splitName spec name).1 &&
      (spec.isEnum || s.glob.all fun glob => doublestarMatch glob (splitName spec name).2)

def coversScope (s : Selector) : Bool := s.glob.all (· == [[42, 42]])

end Selector

/-! ## Rules -/

structure CompiledRule where
  acl : String := ""
  version : Int := 0
  index : Nat := 0
  actions : List String
  sels : List Selector
  when : Option Condition := none

/-- The rules on one type. The effect of a rule is the list it is in. -/
structure TypeRules where
  deny : List CompiledRule := []
  allow : List CompiledRule := []
  literalDeny : String → Bytes → List CompiledRule := fun _ _ => []
  literalAllow : String → Bytes → List CompiledRule := fun _ _ => []

structure Reason where
  acl : String
  version : Int
  ruleIndex : Nat
  effect : Effect
deriving DecidableEq, Repr

structure Decision where
  outcome : Outcome := .noMatch
  reasons : List Reason := []
  tenantFloor : Bool := false
deriving DecidableEq, Repr

def CompiledRule.«matches» (r : CompiledRule) (effect : Effect) (spec : TypeSpec)
    (req : Request) : Bool :=
  r.actions.contains req.action &&
    (if req.resource.name = anyInstance ∧ effect = .allow then !r.sels.isEmpty
      else r.sels.any (·.matches spec req.resource.name)) &&
    r.when.all (·.holds req (effect == .deny))

def CompiledRule.touchesScope (r : CompiledRule) (scope : Bytes) (whole : Bool) : Bool :=
  r.sels.any fun s => s.inScope scope && (!whole || s.coversScope)

/-- Every matching rule is named, denies first. -/
def TypeRules.decision (tr : TypeRules) (hit : Effect → CompiledRule → Bool) : Decision where
  outcome :=
    if tr.deny.any (hit .deny) then .denied
    else if tr.allow.any (hit .allow) then .allowed else .noMatch
  reasons :=
    (tr.deny.filter (hit .deny)).map (fun r => ⟨r.acl, r.version, r.index, .deny⟩) ++
      (tr.allow.filter (hit .allow)).map fun r => ⟨r.acl, r.version, r.index, .allow⟩

/-- The rules of one set, without its ceiling. -/
structure RuleSet where
  subject : Subject
  byType : String → Option TypeRules

namespace RuleSet

def crosses (e : RuleSet) (tenantID : String) : Bool :=
  tenantID != "" && tenantID != e.subject.tenantID

def decideOwn (cat : Catalog) (e : RuleSet) (req : Request) : Decision :=
  if e.crosses req.resource.tenantID then { outcome := .denied, tenantFloor := true }
  else match e.byType req.resource.type, cat req.resource.type with
    | some tr, some spec => tr.decision fun effect r => r.matches effect spec req
    | _, _ => {}

def decideScopeOwn (cat : Catalog) (e : RuleSet) (req : Request) : Decision :=
  if e.crosses req.resource.tenantID then { outcome := .denied, tenantFloor := true }
  else if (cat req.resource.type).any TypeSpec.isScoped then
    match e.byType req.resource.type with
    | none => {}
    | some tr => tr.decision fun effect r =>
      r.actions.contains req.action && r.touchesScope req.resource.name (effect == .allow) &&
        r.when.all (·.holdsForScope req (effect == .deny))
  else e.decideOwn cat req

/-- The literal memo answers where no rule of the type is a glob or conditional. -/
def quickOwn (cat : Catalog) (e : RuleSet) (type action : String) (name : Bytes) : Outcome :=
  match e.byType type with
  | none => .noMatch
  | some tr =>
    if (tr.deny ++ tr.allow).any fun r => r.when.isSome || r.sels.length != 1 ||
        r.sels.any (·.literal.isEmpty) then
      (e.decideOwn cat ⟨e.subject, action, { type, name }, {}⟩).outcome
    else if !(tr.literalDeny action name).isEmpty then .denied
    else if !(tr.literalAllow action name).isEmpty then .allowed
    else .noMatch

end RuleSet

def meetOutcome (a b : Outcome) : Outcome :=
  if a = .denied ∨ b = .denied then .denied
  else if a = .allowed ∧ b = .allowed then .allowed
  else .noMatch

def meet (a b : Decision) : Decision :=
  if a.outcome = .denied ∨ b.outcome = .denied then
    { outcome := .denied
      reasons := (a.reasons ++ b.reasons).filter (·.effect == .deny)
      tenantFloor := a.tenantFloor || b.tenantFloor }
  else if a.outcome = .allowed ∧ b.outcome = .allowed then
    { outcome := .allowed, reasons := a.reasons ++ b.reasons }
  else {}

/-- A compiled set, and the ceiling it is held to. -/
inductive Effective where
  | alone (own : RuleSet)
  | held (own : RuleSet) (ceiling : Effective)

/-- The comparison of two pointers: equal ones point to equal sets. -/
structure Pointers where
  same : Effective → Effective → Bool
  eq_of_same : ∀ a b, same a b = true → a = b

namespace Effective

variable (cat : Catalog)

/-- `e` held to a ceiling, which may be nil. -/
def within (ptr : Pointers) : Effective → Option Effective → Effective
  | e, none => e
  | alone own, some c => if ptr.same c (alone own) then alone own else held own c
  | held own ceiling, some c =>
    if ptr.same c (held own ceiling) then held own ceiling
    else held own (ceiling.within ptr (some c))

def decide (req : Request) : Effective → Decision
  | alone own => own.decideOwn cat req
  | held own ceiling => meet (own.decideOwn cat req) (ceiling.decide req)

def decideScope (req : Request) : Effective → Decision
  | alone own => own.decideScopeOwn cat req
  | held own ceiling => meet (own.decideScopeOwn cat req) (ceiling.decideScope req)

def quick (type action : String) (name : Bytes) : Effective → Outcome
  | alone own => own.quickOwn cat type action name
  | held own ceiling =>
    meetOutcome (own.quickOwn cat type action name) (ceiling.quick type action name)

/-! ## The order of outcomes -/

def sets : Effective → List RuleSet
  | alone own => [own]
  | held own ceiling => own :: ceiling.sets

/-- The meet of what each set answers. -/
def answer (own : RuleSet → Outcome) : Effective → Outcome
  | alone r => own r
  | held r ceiling => meetOutcome (own r) (ceiling.answer own)

end Effective

def Outcome.rank : Outcome → Nat
  | .denied => 0
  | .noMatch => 1
  | .allowed => 2

theorem rank_meetOutcome (a b : Outcome) : (meetOutcome a b).rank = min a.rank b.rank := by
  cases a <;> cases b <;> rfl

theorem Outcome.eq_of_rank {a b : Outcome} (h : a.rank = b.rank) : a = b := by
  cases a <;> cases b <;> first | rfl | cases h

/-- The smaller outcome allows less and denies more. -/
theorem Outcome.of_rank_le {a b : Outcome} (h : a.rank ≤ b.rank) :
    (a = .allowed → b = .allowed) ∧ (b = .denied → a = .denied) := by
  cases a <;> cases b <;> simp_all [Outcome.rank]

variable {cat : Catalog} {e c : Effective} {req : Request}

theorem outcome_meet (a b : Decision) : (meet a b).outcome = meetOutcome a.outcome b.outcome := by
  unfold meet meetOutcome
  split
  · rfl
  · split <;> rfl

theorem outcome_decide :
    (e.decide cat req).outcome = e.answer fun r => (r.decideOwn cat req).outcome := by
  induction e with
  | alone own => rfl
  | held own ceiling ih => rw [Effective.decide, outcome_meet, ih, Effective.answer]

theorem outcome_decideScope :
    (e.decideScope cat req).outcome = e.answer fun r => (r.decideScopeOwn cat req).outcome := by
  induction e with
  | alone own => rfl
  | held own ceiling ih => rw [Effective.decideScope, outcome_meet, ih, Effective.answer]

theorem quick_eq {type action : String} {name : Bytes} :
    e.quick cat type action name = e.answer fun r => r.quickOwn cat type action name := by
  induction e with
  | alone own => rfl
  | held own ceiling ih => rw [Effective.quick, ih, Effective.answer]

/-- Sets that each answer less answer less together. -/
theorem rank_answer_le {f g : RuleSet → Outcome}
    (h : ∀ r ∈ e.sets, (f r).rank ≤ (g r).rank) : (e.answer f).rank ≤ (e.answer g).rank := by
  induction e with
  | alone own => exact h own List.mem_cons_self
  | held own ceiling ih =>
    obtain ⟨hown, hrest⟩ := List.forall_mem_cons.mp h
    have hle := ih hrest
    simp only [Effective.answer, rank_meetOutcome]
    omega

theorem rank_answer_within (ptr : Pointers) (own : RuleSet → Outcome) :
    ((e.within ptr (some c)).answer own).rank = min (e.answer own).rank (c.answer own).rank := by
  induction e with
  | alone r =>
    rw [Effective.within]
    split
    · next hsame => rw [ptr.eq_of_same _ _ hsame, min_self]
    · exact rank_meetOutcome ..
  | held r ceiling ih =>
    rw [Effective.within]
    split
    · next hsame => rw [ptr.eq_of_same _ _ hsame, min_self]
    · simp only [Effective.answer, rank_meetOutcome, ih, min_assoc]

/-- Denied where either is, allowed where both are, no match otherwise. -/
def Meets (a b o : Outcome) : Prop :=
  (o = .denied ↔ a = .denied ∨ b = .denied) ∧ (o = .allowed ↔ a = .allowed ∧ b = .allowed)

theorem meets_of_rank {a b o : Outcome} (h : o.rank = min a.rank b.rank) : Meets a b o := by
  obtain rfl : o = meetOutcome a b := Outcome.eq_of_rank (h.trans (rank_meetOutcome a b).symm)
  cases a <;> cases b <;> simp [Meets, meetOutcome]

/-- Two sets with the same answers to every question. -/
def SameAnswers (cat : Catalog) (e e' : Effective) : Prop :=
  (∀ req, (e.decide cat req).outcome = (e'.decide cat req).outcome) ∧
    (∀ req, (e.decideScope cat req).outcome = (e'.decideScope cat req).outcome) ∧
    ∀ type action name, e.quick cat type action name = e'.quick cat type action name

theorem sameAnswers_of_rank {e e' : Effective}
    (h : ∀ own, (e.answer own).rank = (e'.answer own).rank) : SameAnswers cat e e' := by
  refine ⟨fun req => ?_, fun req => ?_, fun type action name => ?_⟩
  · rw [outcome_decide, outcome_decide, Outcome.eq_of_rank (h _)]
  · rw [outcome_decideScope, outcome_decideScope, Outcome.eq_of_rank (h _)]
  · rw [quick_eq, quick_eq, Outcome.eq_of_rank (h _)]

/-- A set held within a ceiling answers with the meet, whatever chains of ceilings the two
already have. -/
theorem within_meets (cat : Catalog) (ptr : Pointers) (e c : Effective) :
    ((∀ req, Meets (e.decide cat req).outcome (c.decide cat req).outcome
        ((e.within ptr (some c)).decide cat req).outcome) ∧
      (∀ req, Meets (e.decideScope cat req).outcome (c.decideScope cat req).outcome
        ((e.within ptr (some c)).decideScope cat req).outcome) ∧
      ∀ type action name, Meets (e.quick cat type action name) (c.quick cat type action name)
        ((e.within ptr (some c)).quick cat type action name)) ∧
    SameAnswers cat (e.within ptr (some e)) e ∧
    SameAnswers cat ((e.within ptr (some c)).within ptr (some c)) (e.within ptr (some c)) ∧
    ∀ c', SameAnswers cat ((e.within ptr (some c)).within ptr (some c'))
      ((e.within ptr (some c')).within ptr (some c)) := by
  refine ⟨⟨fun req => ?_, fun req => ?_, fun type action name => ?_⟩, ?_, ?_, fun c' => ?_⟩
  · rw [outcome_decide, outcome_decide, outcome_decide]
    exact meets_of_rank (rank_answer_within ptr _)
  · rw [outcome_decideScope, outcome_decideScope, outcome_decideScope]
    exact meets_of_rank (rank_answer_within ptr _)
  · rw [quick_eq, quick_eq, quick_eq]
    exact meets_of_rank (rank_answer_within ptr _)
  all_goals
    refine sameAnswers_of_rank fun own => ?_
    simp only [rank_answer_within]
    omega

end Loomcycle.Authz
