import Mathlib.Data.List.Basic

/-! Logs that only grow. What is said of an event is said of the log before it: every event is
justified by what came before (`Justified`), or one event happened at a time when something
held (`HappenedWhen`). A condition that events switch on and off cuts the part of the log since
it last came on (`since`). -/

namespace Loomcycle.Lib.History

variable {ε : Type*} {log l : List ε} {e : ε}

/-- Every event is `ok` after the log before it. -/
def Justified (ok : List ε → ε → Prop) (log : List ε) : Prop :=
  ∀ before e after, log = before ++ e :: after → ok before e

variable {ok : List ε → ε → Prop} {P : List ε → Prop}

theorem justified_nil : Justified ok [] :=
  fun before _ _ h => absurd h.symm (List.append_ne_nil_of_right_ne_nil before (by simp))

theorem Justified.snoc (h : Justified ok log) (he : ok log e) : Justified ok (log ++ [e]) := by
  intro before e' after heq
  obtain hnil | ⟨front, last, rfl⟩ := List.eq_nil_or_concat after
  · rw [hnil] at heq
    obtain ⟨rfl, hlast⟩ := List.append_inj' heq rfl
    rw [← (List.cons.inj hlast).1]
    exact he
  · have heq' : log ++ [e] = (before ++ e' :: front) ++ [last] := by
      rw [heq]
      simp
    exact h before e' front (List.append_inj' heq' rfl).1

/-- The event `e` happened at a time when `P` held of the log. -/
def HappenedWhen (P : List ε → Prop) (e : ε) (log : List ε) : Prop :=
  ∃ before after, log = before ++ e :: after ∧ P before

theorem HappenedWhen.append (h : HappenedWhen P e log) : HappenedWhen P e (log ++ l) := by
  obtain ⟨before, after, rfl, hP⟩ := h
  exact ⟨before, after ++ l, by simp, hP⟩

section Since

variable (f : ε → Option Bool)

/-- An event switches the condition on or off, or leaves it. -/
def scanStep (acc : Bool × List ε) (e : ε) : Bool × List ε :=
  match f e with
  | some true => (true, if acc.1 then acc.2 ++ [e] else [e])
  | some false => (false, acc.2 ++ [e])
  | none => (acc.1, acc.2 ++ [e])

def scan (log : List ε) : Bool × List ε := log.foldl (scanStep f) (false, [])

/-- The condition is on at the end of the log. -/
def holding (log : List ε) : Bool := (scan f log).1

/-- The log since the condition last came on. -/
def since (log : List ε) : List ε := (scan f log).2

variable {f}

theorem scan_snoc : scan f (log ++ [e]) = scanStep f (scan f log) e := by
  rw [scan, List.foldl_append, List.foldl_cons, List.foldl_nil, scan]

theorem since_snoc (h : f e = some true → holding f log = true) :
    since f (log ++ [e]) = since f log ++ [e] := by
  rw [since, scan_snoc, scanStep]
  split
  · next he =>
    have hon : (scan f log).1 = true := h he
    rw [if_pos hon]
    rfl
  · rfl
  · rfl

end Since

end Loomcycle.Lib.History
