import Loomcycle.Lib.GraphSearch
import Mathlib.Data.List.Sort
import Mathlib.Data.String.Basic

/-! Group nesting (`authz/groups.go`) and the write that adds one group to another
(`sqlshared/acl.go`, `insertGroupMember`).

`validateGroupGraph` refuses a cycle. Its depth check measures the calls of its own search, and
the search does not go below a group it has finished: a chain whose groups are visited from the
innermost outwards is never measured, so an accepted graph can hold a chain longer than
`maxGroupNestingDepth`. `closure` stops after that many steps. -/

namespace Loomcycle.Authz

open Lib

def maxGroupNestingDepth : Nat := 8
def maxSubjectIDBytes : Nat := 128

/-- The nesting of a tenant's groups: for each group the groups that are its direct members.
Looking up a name that is no key gives no members. -/
structure GroupGraph where
  names : List String
  members : String → List String
  absent : ∀ g, g ∉ names → members g = []

def asciiAlnum (c : Char) : Bool :=
  ('a' ≤ c && c ≤ 'z') || ('A' ≤ c && c ≤ 'Z') || ('0' ≤ c && c ≤ '9')

def nameChar (c : Char) : Bool :=
  asciiAlnum c || c == '_' || c == '.' || c == ':' || c == '/' || c == '-'

def validName (name : String) : Bool :=
  match name.toList with
  | [] => false
  | c :: cs => asciiAlnum c && decide (cs.length ≤ 63) && cs.all nameChar

inductive GroupError where
  | deep (g : String)
  | nested (g : String)
  | ownMember (g : String)
  | badName (g : String)
  | memberID
  | memberOfItself (g : String)
  | notFound (g : String)
  | refused (e : GroupError)
deriving DecidableEq, Repr

/-- The text of an error; `quoted` is `%q`. -/
def GroupError.message (quoted : String → String) : GroupError → String
  | .deep g => "group " ++ quoted g ++ " nests deeper than " ++ toString maxGroupNestingDepth
  | .nested g => "group " ++ quoted g ++ " is nested inside itself"
  | .ownMember g => "group " ++ quoted g ++ " lists itself as a member"
  | .badName g => "group " ++ quoted g ++ " is not a valid name"
  | .memberID =>
    "group member add: member_id is empty or longer than " ++ toString maxSubjectIDBytes ++
      " bytes"
  | .memberOfItself g =>
    "group member add: group " ++ quoted g ++ " cannot be a member of itself"
  | .notFound g => "group not found: " ++ g
  | .refused e => "group member add: " ++ e.message quoted

def sortStrings (l : List String) : List String := l.insertionSort (· ≤ ·)

@[simp] theorem mem_sortStrings {l : List String} {s : String} : s ∈ sortStrings l ↔ s ∈ l :=
  List.mem_insertionSort _

/-- The recursion of `ValidateGroupGraph`; at depth `d` it is run with `8 + 1 - d` calls left. -/
def visit (graph : GroupGraph) :
    Nat → String → (String → GraphSearch.Colour) → Except GroupError (String → GraphSearch.Colour) :=
  GraphSearch.visit graph.members .deep .nested .ownMember

/-- The turn of a group in the loop of `ValidateGroupGraph`. -/
def visitNamed (graph : GroupGraph) (color : String → GraphSearch.Colour) (g : String) :
    Except GroupError (String → GraphSearch.Colour) :=
  if validName g then visit graph (maxGroupNestingDepth + 1) g color else .error (.badName g)

def validateGroupGraph (graph : GroupGraph) : Except GroupError Unit := do
  let _ ← (sortStrings graph.names).foldlM (visitNamed graph) (fun _ => GraphSearch.Colour.white)
  .ok ()

/-- The reverse index: the groups that list `c`, once for each time they list it. -/
def parents (graph : GroupGraph) (c : String) : List String :=
  sortStrings (graph.names.flatMap fun parent =>
    (graph.members parent).filterMap fun m => if m = c then some parent else none)

def viaDirect : String := "direct"

/-- The groups of a subject, and for each how the subject came to be in it. The loop of the
source also ends when its frontier is empty; a level with an empty frontier adds nothing. -/
def closureVia (graph : GroupGraph) (direct : List String) : List String × List (String × String) :=
  let frontier := (sortStrings direct).map fun g => (g, viaDirect)
  let via := GraphSearch.levels (parents graph) id (maxGroupNestingDepth + 1) [] frontier
  (sortStrings (via.map Prod.fst), via)

def closure (graph : GroupGraph) (direct : List String) : List String :=
  (closureVia graph direct).1

/-- `graph[g] = append(graph[g], m)`. -/
def GroupGraph.append (graph : GroupGraph) (g m : String) : GroupGraph where
  names := if g ∈ graph.names then graph.names else graph.names ++ [g]
  members x := if x = g then graph.members g ++ [m] else graph.members x
  absent x hx := by
    have hxg : x ≠ g := by
      rintro rfl
      split at hx
      · exact hx ‹_›
      · exact hx (List.mem_append_right _ List.mem_cons_self)
    rw [if_neg hxg]
    refine graph.absent x fun hmem => hx ?_
    split
    · exact hmem
    · exact List.mem_append_left _ hmem

/-- The rows of `user_group_members` come back ordered by member. -/
def GroupGraph.reread (graph : GroupGraph) : GroupGraph where
  names := graph.names
  members g := sortStrings (graph.members g)
  absent g hg := by rw [graph.absent g hg]; rfl

/-- `insertGroupMember` for a member that is a group: the graph the store holds afterwards. -/
def insertGroupMember (graph : GroupGraph) (group member : String) :
    Except GroupError GroupGraph :=
  if member = "" ∨ maxSubjectIDBytes < member.utf8ByteSize then .error .memberID
  else if member = group then .error (.memberOfItself group)
  else if group ∉ graph.names then .error (.notFound group)
  else if member ∉ graph.names then .error (.notFound member)
  else
    match validateGroupGraph (graph.append group member) with
    | .error e => .error (.refused e)
    | .ok () =>
      .ok (if member ∈ graph.members group then graph else (graph.append group member).reread)

/-! ## Containment -/

/-- `g` contains `c` through a chain of `k` nestings. -/
def Above (graph : GroupGraph) : Nat → String → String → Prop
  | 0, c, g => c = g
  | k + 1, c, g => ∃ m, Above graph k c m ∧ m ∈ graph.members g

variable {graph : GroupGraph} {g : String}

theorem mem_parents {c p : String} : p ∈ parents graph c ↔ c ∈ graph.members p := by
  rw [parents, mem_sortStrings, List.mem_flatMap]
  constructor
  · rintro ⟨q, -, hp⟩
    obtain ⟨m, hm, heq⟩ := List.mem_filterMap.mp hp
    split at heq
    · rename_i hmc
      cases heq
      exact hmc ▸ hm
    · cases heq
  · intro hc
    have hp : p ∈ graph.names := by
      by_contra hp
      rw [graph.absent p hp] at hc
      cases hc
    refine ⟨p, hp, List.mem_filterMap.mpr ⟨c, hc, if_pos rfl⟩⟩

theorem above_iff_steps {k : Nat} {c : String} :
    Above graph k c g ↔ GraphSearch.Steps (parents graph) k c g := by
  induction k generalizing g with
  | zero => exact Iff.rfl
  | succ k ih =>
    constructor
    · rintro ⟨m, hm, hg⟩
      exact ⟨m, ih.mp hm, mem_parents.mpr hg⟩
    · rintro ⟨m, hm, hg⟩
      exact ⟨m, ih.mpr hm, mem_parents.mp hg⟩

theorem mem_closure {direct : List String} :
    g ∈ closure graph direct ↔
      ∃ d ∈ direct, ∃ k ≤ maxGroupNestingDepth, Above graph k d g := by
  have hstart : ((sortStrings direct).map fun g => (g, viaDirect)).map Prod.fst =
      sortStrings direct := by
    simp [List.map_map, Function.comp_def]
  rw [closure, closureVia, mem_sortStrings, GraphSearch.mem_levels, hstart]
  simp only [mem_sortStrings, above_iff_steps, Nat.lt_succ_iff]

theorem fold_of_validateGroupGraph (hok : validateGroupGraph graph = .ok ()) :
    ∃ color, (sortStrings graph.names).foldlM (visitNamed graph)
      (fun _ => GraphSearch.Colour.white) = .ok color := by
  rw [validateGroupGraph] at hok
  cases hfold : (sortStrings graph.names).foldlM (visitNamed graph)
      (fun _ => GraphSearch.Colour.white) with
  | error e =>
    simp only [hfold] at hok
    cases hok
  | ok color => exact ⟨color, rfl⟩

theorem visit_of_visitNamed {color color' : String → GraphSearch.Colour}
    (h : visitNamed graph color g = .ok color') :
    visit graph (maxGroupNestingDepth + 1) g color = .ok color' := by
  rw [visitNamed] at h
  split at h
  · exact h
  · cases h

/-- Every group of an accepted graph is well founded under containment. -/
theorem acc_of_validateGroupGraph (hok : validateGroupGraph graph = .ok ()) (g : String) :
    Acc (fun c p => c ∈ graph.members p) g := by
  by_cases hg : g ∈ graph.names
  · obtain ⟨color, hfold⟩ := fold_of_validateGroupGraph hok
    have hall : GraphSearch.Blackens graph.members (· ∈ sortStrings graph.names)
        (fun _ => .white) color := GraphSearch.blackens_fold
      (fun hvisit hfin => GraphSearch.visit_blackens (visit_of_visitNamed hvisit) hfin) hfold nofun
    exact hall.finished g (hall.black g (mem_sortStrings.mpr hg))
  · refine ⟨_, fun c hc => ?_⟩
    rw [graph.absent g hg] at hc
    cases hc

theorem above_acyclic (hok : validateGroupGraph graph = .ok ()) {k : Nat} :
    ¬ Above graph (k + 1) g g := by
  rw [above_iff_steps]
  exact GraphSearch.Steps.not_cycle (acc_of_validateGroupGraph hok) fun _ _ => mem_parents.mp

/-! ## When the validator bounds the chains -/

/-- Each finished group that the validator comes upon holds no chain longer than what is left of
the cap at that depth. It asks for no such thing: it goes on. -/
def FinishedInReach (graph : GroupGraph) : Prop :=
  GraphSearch.EachSearch (visitNamed graph)
    (fun color g => GraphSearch.FinishedMet graph.members GroupError.deep .nested .ownMember
      (GraphSearch.Short graph.members) (maxGroupNestingDepth + 1) g color)
    (sortStrings graph.names) (fun _ => .white)

theorem above_iff_steps_members {k : Nat} {c : String} :
    Above graph k c g ↔ GraphSearch.Steps graph.members k g c := by
  induction k generalizing g with
  | zero => exact eq_comm
  | succ k ih =>
    rw [Above, GraphSearch.steps_succ_iff]
    simp only [ih, and_comm]

theorem chains_bounded_iff (hok : validateGroupGraph graph = .ok ()) :
    (∀ k c g, Above graph k c g → k ≤ maxGroupNestingDepth) ↔ FinishedInReach graph := by
  obtain ⟨color, hfold⟩ := fold_of_validateGroupGraph hok
  have hreach : FinishedInReach graph ↔ ∀ g ∈ sortStrings graph.names,
      GraphSearch.Short graph.members (maxGroupNestingDepth + 1) g := by
    refine GraphSearch.eachSearch_iff (fun color g color' hvisit => ?_) hfold
    exact GraphSearch.finishedMet_iff (visit_of_visitNamed hvisit)
  simp only [hreach, above_iff_steps_members, mem_sortStrings]
  constructor
  · intro h g _ k c hsteps
    exact Nat.lt_succ_of_le (h k c g hsteps)
  · intro h k c g hsteps
    by_cases hg : g ∈ graph.names
    · exact Nat.le_of_lt_succ (h g hg k c hsteps)
    · -- a name that is no group has no members
      cases k with
      | zero => exact Nat.zero_le _
      | succ k =>
        obtain ⟨m, hm, -⟩ := GraphSearch.steps_succ_iff.mp hsteps
        rw [graph.absent g hg] at hm
        cases hm

/-- The groups of a tenant, none of them nested yet. -/
def flatGroups (names : List String) : GroupGraph := ⟨names, fun _ => [], fun _ _ => rfl⟩

/-- The nestings asked for one after another, each through `insertGroupMember`. -/
def insertGroupMembers (graph : GroupGraph) (edges : List (String × String)) :
    Except GroupError GroupGraph :=
  edges.foldlM (fun graph e => insertGroupMember graph e.1 e.2) graph

/-- Staff holds engineering and support, and support holds its second line. -/
def staffGroups : GroupGraph :=
  ((flatGroups ["staff", "eng", "support", "l2"]).append "staff" "eng").append "staff" "support"
    |>.append "support" "l2"

theorem staffGroups_short (g : String) : GraphSearch.Short staffGroups.members 3 g := by
  -- what is two steps below a group has no members
  have hleaf : ∀ g, ∀ c ∈ staffGroups.members g, ∀ d ∈ staffGroups.members c,
      staffGroups.members d = [] := by
    intro g
    by_cases hg : g ∈ staffGroups.names
    · revert g
      decide +kernel
    · rw [staffGroups.absent g hg]
      nofun
  refine GraphSearch.short_succ_iff.mpr fun c hc => GraphSearch.short_succ_iff.mpr fun d hd => ?_
  rw [GraphSearch.short_succ_iff, hleaf g c hc d hd]
  nofun

end Loomcycle.Authz
