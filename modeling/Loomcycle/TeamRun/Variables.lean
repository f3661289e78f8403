import Loomcycle.Lib.Replay
import Loomcycle.TeamRun.Compose

/-! The variables of a walk, as its states assign them. A `vars` state expands its templates in an
environment that shares the task's map, so an assignment is seen by those after it; a wave binds
its variables from its first message alone. -/

namespace Loomcycle.TeamRun
open Lib Lib.Regex

/-- The task's map; `none` is nil. -/
abbrev Vars := Option (Text → Option Text)

def Vars.get (vars : Vars) : Text → Option Text := vars.getD fun _ => none

def Vars.setVar (vars : Vars) (name value : Text) : Vars :=
  some (Function.update vars.get name (some value))

/-! ### Assignments -/

/-- The assignments of a `vars` state in the order its map is ranged over. The environment was made
before them: of a nil map it keeps nothing, any other map it shares. -/
def runVars (env : Env) (shared : Bool) : List (Text × Text) → Vars → Vars
  | [], vars => vars
  | (name, tmpl) :: set, vars =>
    let env' := { env with vars := if shared then vars.get else fun _ => none }
    runVars env shared set (vars.setVar name (expand tmpl env').1)

def runHandler (env : Env) (set : List (Text × Text)) (vars : Vars) : Vars :=
  runVars env vars.isSome set vars

/-- The entry's assignment, were all of them made at once. -/
def assign (env : Env) (before vars : Text → Option Text) (e : Text × Text) : Text → Option Text :=
  Function.update vars e.1 (some (expand e.2 { env with vars := before }).1)

/-- From `vars` on, with the entries ranged over before it assigned, each template still expands to
what it is under the values from before the state. -/
def Unseen (env : Env) (before vars : Text → Option Text) (set : List (Text × Text)) : Prop :=
  Replay.Along (assign env before) (fun vars e =>
    (expand e.2 { env with vars }).1 = (expand e.2 { env with vars := before }).1) set vars

theorem get_runVars_of_not_mem {env : Env} {shared : Bool} {set : List (Text × Text)} {vars : Vars}
    {name : Text} (h : name ∉ set.map Prod.fst) :
    (runVars env shared set vars).get name = vars.get name := by
  induction set generalizing vars with
  | nil => rfl
  | cons e set ih =>
    obtain ⟨hne, h⟩ := not_or.mp fun hmem => h (List.mem_cons.mpr hmem)
    exact (ih h).trans (Function.update_of_ne hne ..)

/-- Entry by entry: an assigned value is not touched again, so the state leaves it as the expansion
was when its turn came. -/
theorem get_runVars_iff {env : Env} {shared : Bool} {before : Text → Option Text}
    {set : List (Text × Text)} {vars : Vars} (hset : (set.map Prod.fst).Nodup)
    (hnil : shared = false → before = fun _ => none) :
    (∀ e ∈ set, (runVars env shared set vars).get e.1 =
        some (expand e.2 { env with vars := before }).1) ↔
      shared = false ∨ Unseen env before vars.get set := by
  induction set generalizing vars with
  | nil => exact iff_of_true nofun (.inr trivial)
  | cons e set ih =>
    obtain ⟨name, tmpl⟩ := e
    obtain ⟨hnot, hset⟩ := List.nodup_cons.mp hset
    have hown : ∀ value, (runVars env shared set (vars.setVar name value)).get name = some value :=
      fun value => (get_runVars_of_not_mem hnot).trans (Function.update_self ..)
    rw [List.forall_mem_cons, runVars, hown, Option.some.injEq]
    cases shared with
    | false =>
      obtain rfl := hnil rfl
      exact iff_of_true ⟨rfl, (ih hset).mpr (.inl rfl)⟩ (.inl rfl)
    | true =>
      rw [or_iff_right Bool.noConfusion, Unseen, Replay.Along]
      refine and_congr_right fun hvalue => ?_
      rw [if_pos rfl] at hvalue ⊢
      rw [hvalue, ih hset, or_iff_right Bool.noConfusion]
      rfl

/-- The names that are not assigned are unchanged. The others hold what their templates are under
the values from before if and only if there was no map to share or, in the order of the entries,
none sees an assignment before its own. -/
theorem assignments_simultaneous (env : Env) (vars : Vars) {set : List (Text × Text)}
    (hset : (set.map Prod.fst).Nodup) :
    (∀ name ∉ set.map Prod.fst, (runHandler env set vars).get name = vars.get name) ∧
    ((∀ e ∈ set, (runHandler env set vars).get e.1 =
        some (expand e.2 { env with vars := vars.get }).1) ↔
      vars = none ∨ Unseen env vars.get vars.get set) := by
  refine ⟨fun name => get_runVars_of_not_mem, ?_⟩
  rw [runHandler, get_runVars_iff hset, Option.isSome_eq_false_iff, Option.isNone_iff_eq_none]
  intro hnil
  obtain rfl := Option.isNone_iff_eq_none.mp (Option.isSome_eq_false_iff.mp hnil)
  rfl

/-- A task with one variable. -/
def oneVar : Vars := some (Function.update (fun _ => none) ['a'] (some ['1']))

theorem assignments_simultaneous_last :
    let set := [(['b'], "$\x7bvar.a\x7d".toList), (['a'], ['2'])]
    ∀ e ∈ set, (runHandler {} set oneVar).get e.1 =
      some (expand e.2 { vars := oneVar.get }).1 :=
  (assignments_simultaneous {} oneVar (by decide)).2.mpr
    (.inr ⟨by decide +kernel, by decide +kernel, trivial⟩)

/-- When `a` comes first, `b` has its new value. -/
theorem assignment_seen :
    let set := [(['a'], ['2']), (['b'], "$\x7bvar.a\x7d".toList)]
    (runHandler {} set oneVar).get ['b'] = some ['2'] ∧
      (expand "$\x7bvar.a\x7d".toList { vars := oneVar.get }).1 = ['1'] := by
  decide +kernel

/-! ### The binds of a wave -/

inductive FanoutPer
  | message
  | chunk
  | once
deriving DecidableEq

/-- The binds, a map, and what a path of a payload is as text, if the payload is JSON and has it. -/
structure Starter where
  per : FanoutPer
  binds : List (Text × Text)
  nodup_binds : (binds.map Prod.fst).Nodup
  resolve : Text → Text → Option Text

def bindFromMessage (st : Starter) (vars : Vars) (msg : Text) : Vars :=
  st.binds.foldl (fun vars bind =>
    match st.resolve msg bind.2 with
    | some value => vars.setVar bind.1 value
    | none => vars) vars

/-- What a run of the wave is composed from. -/
structure Dispatch where
  slots : DataSlots
  vars : Text → Option Text

/-- The dispatches of a wave by index; `marshal` writes a batch as JSON. -/
def runWave (st : Starter) (marshal : List Text → Text) (vars : Vars) (msgs : List Text) :
    List Dispatch :=
  if st.per = .once then [⟨[(.starterMessages, marshal msgs)], vars.get⟩]
  else
    let bound := msgs.head?.elim vars (bindFromMessage st vars)
    msgs.map fun msg => ⟨[(.starterMessage, msg)], bound.get⟩

/-- A bound name has what its path is in the message, or its own value where the path is not there;
the other names keep theirs. -/
theorem get_bindFromMessage (st : Starter) (vars : Vars) (msg : Text) :
    (∀ bind ∈ st.binds, (bindFromMessage st vars msg).get bind.1 =
        (st.resolve msg bind.2).or (vars.get bind.1)) ∧
      ∀ name ∉ st.binds.map Prod.fst, (bindFromMessage st vars msg).get name = vars.get name := by
  obtain ⟨-, binds, hnodup, resolve⟩ := st
  simp only [bindFromMessage]
  induction binds generalizing vars with
  | nil => exact ⟨nofun, fun _ _ => rfl⟩
  | cons bind binds ih =>
    obtain ⟨hnot, hnodup⟩ := List.nodup_cons.mp hnodup
    rw [List.foldl_cons]
    set vars' : Vars := match resolve msg bind.2 with
      | some value => vars.setVar bind.1 value
      | none => vars with hvars'
    have hown : vars'.get bind.1 = (resolve msg bind.2).or (vars.get bind.1) := by
      rw [hvars']
      split
      · next value h => rw [h]; exact Function.update_self ..
      · next h => rw [h]; rfl
    have hother : ∀ name, name ≠ bind.1 → vars'.get name = vars.get name := by
      intro name hne
      rw [hvars']
      split
      · exact Function.update_of_ne hne ..
      · rfl
    obtain ⟨hbound, hrest⟩ := ih vars' hnodup
    refine ⟨List.forall_mem_cons.mpr ⟨(hrest _ hnot).trans hown, fun other hmem => ?_⟩,
      fun name hname => ?_⟩
    · rw [hbound other hmem, hother other.1 fun h => hnot (h ▸ List.mem_map_of_mem hmem)]
    · obtain ⟨hne, hname⟩ := not_or.mp fun hmem => hname (List.mem_cons.mpr hmem)
      rw [hrest name hname, hother name hne]

/-- A run has its own message. It has the variables that binding that message gives if and only if
each bind comes to the same from it as from the first one: what its path is there, or the task's own
value of its name. -/
theorem run_of_own_message {st : Starter} (marshal : List Text → Text) (vars : Vars)
    {first msg : Text} {msgs : List Text} {i : Nat} (hper : st.per ≠ .once)
    (hi : (first :: msgs)[i]? = some msg) :
    ∃ run, (runWave st marshal vars (first :: msgs))[i]? = some run ∧
      run.slots = [(.starterMessage, msg)] ∧
      (run.vars = (bindFromMessage st vars msg).get ↔ ∀ bind ∈ st.binds,
        (st.resolve first bind.2).or (vars.get bind.1) =
          (st.resolve msg bind.2).or (vars.get bind.1)) := by
  obtain ⟨hfirst, hothers⟩ := get_bindFromMessage st vars first
  obtain ⟨hmsg, hothers'⟩ := get_bindFromMessage st vars msg
  refine ⟨⟨[(.starterMessage, msg)], (bindFromMessage st vars first).get⟩, ?_, rfl, ?_, ?_⟩
  · rw [runWave, if_neg hper, List.getElem?_map, hi]
    rfl
  · intro h bind hbind
    rw [← hfirst bind hbind, ← hmsg bind hbind]
    exact congrFun h bind.1
  · intro h
    funext name
    by_cases hname : name ∈ st.binds.map Prod.fst
    · obtain ⟨bind, hbind, rfl⟩ := List.mem_map.mp hname
      exact (hfirst bind hbind).trans ((h bind hbind).trans (hmsg bind hbind).symm)
    · exact (hothers name hname).trans (hothers' name hname).symm

/-- Each message has the one value it is. -/
def payloads : Starter := ⟨.message, [(['x'], [])], by decide, fun msg _ => some msg⟩

theorem run_of_own_message_first : ∃ run, (runWave payloads List.flatten none [['1'], ['2']])[0]? =
    some run ∧ run.vars = (bindFromMessage payloads none ['1']).get := by
  obtain ⟨run, hrun, -, hvars⟩ := @run_of_own_message payloads List.flatten none ['1'] ['1'] [['2']]
    0 (by decide) rfl
  exact ⟨run, hrun, hvars.mpr fun _ _ => rfl⟩

/-- The second run has the first message's value. -/
theorem run_of_first_message :
    ((runWave payloads List.flatten none [['1'], ['2']])[1]?.map fun run =>
      (run.slots, run.vars ['x'])) = some ([(.starterMessage, ['2'])], some ['1']) ∧
      (bindFromMessage payloads none ['2']).get ['x'] = some ['2'] := by
  decide

end Loomcycle.TeamRun
