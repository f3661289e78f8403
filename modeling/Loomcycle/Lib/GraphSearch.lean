import Mathlib.Data.List.Basic
import Mathlib.Order.WellFounded

/-!
Two searches over a finite graph given by a successor list.

`levels` walks breadth first for a fixed number of levels; what it finds are the nodes within
that many steps (`mem_levels`). `visit` is the coloured depth first search with a bound on the
depth of its recursion; the nodes it has finished have no infinite descent below them
(`visit_blackens`), so a graph all of whose nodes it finishes has no cycle. It measures the chains
below a node exactly when the finished nodes it comes upon are short enough for the calls it has
left (`finishedMet_iff`).
-/

namespace Loomcycle.Lib.GraphSearch

variable {α β ε : Type*}

/-- `b` is reached from `a` by exactly `k` steps. -/
def Steps (next : α → List α) : Nat → α → α → Prop
  | 0, a, b => a = b
  | k + 1, a, b => ∃ c, Steps next k a c ∧ b ∈ next c

variable {k : Nat}

theorem Steps.transGen {next : α → List α} {a b : α} (h : Steps next (k + 1) a b) :
    Relation.TransGen (fun x y => y ∈ next x) a b := by
  induction k generalizing b with
  | zero =>
    obtain ⟨c, rfl, hb⟩ := h
    exact .single hb
  | succ k ih =>
    obtain ⟨c, hc, hb⟩ := h
    exact (ih hc).tail hb

theorem steps_succ_iff {next : α → List α} {a b : α} :
    Steps next (k + 1) a b ↔ ∃ c ∈ next a, Steps next k c b := by
  induction k generalizing b with
  | zero => simp [Steps]
  | succ k ih =>
    rw [Steps]
    simp only [ih]
    constructor
    · rintro ⟨c, ⟨d, hd, hc⟩, hb⟩
      exact ⟨d, hd, c, hc, hb⟩
    · rintro ⟨d, hd, c, hc, hb⟩
      exact ⟨c, ⟨d, hd, hc⟩, hb⟩

/-- Every chain from `g` has fewer than `n` steps. -/
def Short (next : α → List α) (n : Nat) (g : α) : Prop := ∀ k b, Steps next k g b → k < n

theorem short_succ_iff {next : α → List α} {n : Nat} {g : α} :
    Short next (n + 1) g ↔ ∀ c ∈ next g, Short next n c := by
  constructor
  · intro h c hc k b hsteps
    exact Nat.lt_of_succ_lt_succ (h (k + 1) b (steps_succ_iff.mpr ⟨c, hc, hsteps⟩))
  · intro h k b hsteps
    cases k with
    | zero => exact Nat.succ_pos n
    | succ k =>
      obtain ⟨c, hc, hsteps⟩ := steps_succ_iff.mp hsteps
      exact Nat.succ_lt_succ (h c hc k b hsteps)

/-! ## Breadth first, a bounded number of levels -/

section Levels

variable [DecidableEq α]

/-- One node of the frontier: a new one is recorded and its successors join the next frontier. -/
def expand (next : α → List α) (label : α → β) (st : List (α × β) × List (α × β)) (s : α × β) :
    List (α × β) × List (α × β) :=
  if s.1 ∈ st.1.map Prod.fst then st
  else (st.1 ++ [s], st.2 ++ (next s.1).map fun b => (b, label s.1))

/-- The nodes found in `n` levels, each with the label it was reached under. -/
def levels (next : α → List α) (label : α → β) :
    Nat → List (α × β) → List (α × β) → List (α × β)
  | 0, found, _ => found
  | n + 1, found, frontier =>
    let st := frontier.foldl (expand next label) (found, [])
    levels next label n st.1 st.2

variable {next : α → List α} {label : α → β}

theorem mem_found_level (frontier found acc : List (α × β)) (g : α) :
    g ∈ (frontier.foldl (expand next label) (found, acc)).1.map Prod.fst ↔
      g ∈ found.map Prod.fst ∨ g ∈ frontier.map Prod.fst := by
  induction frontier generalizing found acc with
  | nil => simp
  | cons s rest ih =>
    rw [List.foldl_cons, expand]
    split
    · grind
    · rw [ih, List.map_append, List.map_cons, List.mem_append, List.mem_cons]
      simp [or_assoc]

theorem mem_next_level (frontier found acc : List (α × β)) (b : α) :
    b ∈ (frontier.foldl (expand next label) (found, acc)).2.map Prod.fst ↔
      b ∈ acc.map Prod.fst ∨
        ∃ g ∈ frontier.map Prod.fst, g ∉ found.map Prod.fst ∧ b ∈ next g := by
  induction frontier generalizing found acc with
  | nil => simp
  | cons s rest ih =>
    rw [List.foldl_cons, expand]
    split
    · grind
    rename_i hnew
    have hsuccs : ((next s.1).map fun b => (b, label s.1)).map Prod.fst = next s.1 := by
      simp [List.map_map, Function.comp_def]
    rw [ih, List.map_append, hsuccs]
    simp only [List.map_append, List.map_cons, List.map_nil, List.mem_append, List.mem_cons,
      List.not_mem_nil, or_false] at hnew ⊢
    constructor
    · rintro ((h | h) | ⟨g, hg, hnot, hb⟩)
      · exact .inl h
      · exact .inr ⟨s.1, .inl rfl, hnew, h⟩
      · exact .inr ⟨g, .inr hg, fun hmem => hnot (.inl hmem), hb⟩
    · rintro (h | ⟨g, hg, hnot, hb⟩)
      · exact .inl (.inl h)
      · by_cases hs : g = s.1
        · exact .inl (.inr (hs ▸ hb))
        · exact .inr ⟨g, hg.resolve_left hs, fun h => h.elim hnot hs, hb⟩

/-- Fewer than `i` steps away from a start. -/
def Near (next : α → List α) (start : α → Prop) (i : Nat) (g : α) : Prop :=
  ∃ d, start d ∧ ∃ j < i, Steps next j d g

variable {start : α → Prop} {found frontier : List (α × β)}

omit [DecidableEq α] in
theorem near_succ {i : Nat} {g : α} : Near next start (i + 2) g ↔
    Near next start (i + 1) g ∨ ∃ c, Near next start (i + 1) c ∧ g ∈ next c := by
  constructor
  · rintro ⟨d, hd, j, hj, hsteps⟩
    by_cases hlt : j < i + 1
    · exact .inl ⟨d, hd, j, hlt, hsteps⟩
    obtain rfl : j = i + 1 := by omega
    obtain ⟨c, hc, hg⟩ := hsteps
    exact .inr ⟨c, ⟨d, hd, i, by omega, hc⟩, hg⟩
  · rintro (⟨d, hd, j, hj, hsteps⟩ | ⟨c, ⟨d, hd, j, hj, hsteps⟩, hg⟩)
    · exact ⟨d, hd, j, by omega, hsteps⟩
    · exact ⟨d, hd, j + 1, by omega, c, hsteps, hg⟩

/-- What holds between two levels: after `i` levels the nodes found are those fewer than `i`
steps away, and the frontier has the ones `i` steps away that are still missing. -/
structure Explored (next : α → List α) (start : α → Prop) (i : Nat) (found frontier : List α) :
    Prop where
  found_iff : ∀ g, g ∈ found ↔ Near next start i g
  reached_iff : ∀ g, g ∈ found ∨ g ∈ frontier ↔ Near next start (i + 1) g

theorem Explored.level {i : Nat}
    (h : Explored next start i (found.map Prod.fst) (frontier.map Prod.fst)) :
    Explored next start (i + 1)
      ((frontier.foldl (expand next label) (found, [])).1.map Prod.fst)
      ((frontier.foldl (expand next label) (found, [])).2.map Prod.fst) := by
  refine ⟨fun g => (mem_found_level ..).trans (h.reached_iff g), fun g => ?_⟩
  rw [mem_found_level, mem_next_level, h.reached_iff, near_succ]
  constructor
  · rintro (hg | hg | ⟨c, hc, -, hg⟩)
    · exact .inl hg
    · cases hg
    · exact .inr ⟨c, (h.reached_iff c).mp (.inr hc), hg⟩
  · rintro (hg | ⟨c, hc, hg⟩)
    · exact .inl hg
    by_cases hold : c ∈ found.map Prod.fst
    · -- a successor of a node found before was reached with it
      obtain ⟨d, hd, j, hj, hsteps⟩ := (h.found_iff c).mp hold
      exact .inl ⟨d, hd, j + 1, by omega, c, hsteps, hg⟩
    · exact .inr (.inr ⟨c, ((h.reached_iff c).mpr hc).resolve_left hold, hold, hg⟩)

theorem Explored.levels {i n : Nat}
    (h : Explored next start i (found.map Prod.fst) (frontier.map Prod.fst)) (g : α) :
    g ∈ (levels next label n found frontier).map Prod.fst ↔ Near next start (i + n) g := by
  induction n generalizing i found frontier with
  | zero => exact h.found_iff g
  | succ n ih =>
    rw [GraphSearch.levels, ih h.level, Nat.add_right_comm, Nat.add_assoc i n 1]

/-- `n` levels from a list of starting nodes find the nodes fewer than `n` steps away. -/
theorem mem_levels (n : Nat) (from_ : List (α × β)) (g : α) :
    g ∈ (levels next label n [] from_).map Prod.fst ↔
      ∃ d ∈ from_.map Prod.fst, ∃ j < n, Steps next j d g := by
  have h : Explored next (· ∈ from_.map Prod.fst) 0 (([] : List (α × β)).map Prod.fst)
      (from_.map Prod.fst) := by
    refine ⟨fun g => ⟨nofun, nofun⟩, fun g => ⟨fun hg => ?_, ?_⟩⟩
    · exact ⟨g, hg.resolve_left List.not_mem_nil, 0, Nat.one_pos, rfl⟩
    · rintro ⟨d, hd, j, hj, hsteps⟩
      obtain rfl : j = 0 := by omega
      exact .inr (hsteps ▸ hd)
  rw [h.levels, Nat.zero_add]
  rfl

end Levels

/-! ## Depth first, coloured -/

inductive Colour where
  | white
  | grey
  | black
deriving DecidableEq, Repr

/-- The search below `g`, at most `n` calls deep. A grey node is one of the callers. -/
def visit [DecidableEq α] (next : α → List α) (tooDeep looped ownSuccessor : α → ε) :
    Nat → α → (α → Colour) → Except ε (α → Colour)
  | 0, g, _ => .error (tooDeep g)
  | n + 1, g, colour =>
    match colour g with
    | .grey => .error (looped g)
    | .black => .ok colour
    | .white => do
      let colour ← (next g).foldlM (fun colour c =>
        if c = g then .error (ownSuccessor g)
        else visit next tooDeep looped ownSuccessor n c colour) (Function.update colour g .grey)
      .ok (Function.update colour g .black)

/-- Below a black node every descent ends. -/
def Finished (next : α → List α) (colour : α → Colour) : Prop :=
  ∀ b, colour b = .black → Acc (fun c p => c ∈ next p) b

/-- What a search adds to a colouring: black nodes stay black, and `done` are black now. -/
structure Blackens (next : α → List α) (done : α → Prop) (colour colour' : α → Colour) :
    Prop where
  stay : ∀ b, colour b = .black → colour' b = .black
  black : ∀ b, done b → colour' b = .black
  finished : Finished next colour'

variable {next : α → List α}

variable {colour colour' : α → Colour}

theorem blackens_fold {search : (α → Colour) → α → Except ε (α → Colour)}
    (hsearch : ∀ {colour c colour'}, search colour c = .ok colour' → Finished next colour → Blackens
      next (· = c) colour colour') {cs : List α} (h : cs.foldlM search colour = .ok colour')
    (hfin : Finished next colour) : Blackens next (· ∈ cs) colour colour' := by
  induction cs generalizing colour with
  | nil =>
    cases h
    exact ⟨fun _ hb => hb, nofun, hfin⟩
  | cons c rest ih =>
    rw [List.foldlM_cons] at h
    cases hc : search colour c with
    | error e =>
      rw [hc] at h
      cases h
    | ok mid =>
      rw [hc] at h
      have hone := hsearch hc hfin
      have hrest := ih h hone.finished
      refine ⟨fun b hb => hrest.stay b (hone.stay b hb), fun b hb => ?_, hrest.finished⟩
      obtain rfl | hb := List.mem_cons.mp hb
      · exact hrest.stay b (hone.black b rfl)
      · exact hrest.black b hb

theorem visit_blackens [DecidableEq α] {tooDeep looped ownSuccessor : α → ε} {n : Nat} {g : α}
    (h : visit next tooDeep looped ownSuccessor n g colour = .ok colour')
    (hfin : Finished next colour) : Blackens next (· = g) colour colour' := by
  induction n generalizing g colour colour' with
  | zero => cases h
  | succ n ih =>
    rw [visit] at h
    split at h
    · cases h
    · next hg =>
      cases h
      exact ⟨fun _ hb => hb, fun b hb => hb ▸ hg, hfin⟩
    next hg =>
    generalize hfold : List.foldlM (m := Except ε) _ _ _ = r at h
    cases r with
    | error e => cases h
    | ok mid =>
      cases h
      have hgrey : Finished next (Function.update colour g .grey) := by
        intro b hb
        by_cases hbg : b = g
        · subst hbg
          cases (Function.update_self ..).symm.trans hb
        · rw [Function.update_of_ne hbg] at hb
          exact hfin b hb
      have hbelow : Blackens next (· ∈ next g) (Function.update colour g .grey) mid := by
        refine blackens_fold ?_ hfold hgrey
        intro colour c colour' hc hcol
        split at hc
        · cases hc
        · exact ih hc hcol
      refine ⟨fun b hb => ?_, fun b hb => hb ▸ Function.update_self .., fun b hb => ?_⟩
      · have hbg : b ≠ g := by
          rintro rfl
          rw [hg] at hb
          cases hb
        rw [Function.update_of_ne hbg]
        refine hbelow.stay b ?_
        rwa [Function.update_of_ne hbg]
      · by_cases hbg : b = g
        · subst hbg
          exact ⟨_, fun c hc => hbelow.finished c (hbelow.black c hc)⟩
        · rw [Function.update_of_ne hbg] at hb
          exact hbelow.finished b hb

/-! ## What a search measures -/

/-- Every node is searched from a state that `P` allows for it. -/
def EachSearch {σ : Type*} (search : σ → α → Except ε σ) (P : σ → α → Prop) : List α → σ → Prop
  | [], _ => True
  | c :: cs, s => P s c ∧ ∀ s', search s c = .ok s' → EachSearch search P cs s'

theorem eachSearch_iff {σ : Type*} {search : σ → α → Except ε σ} {P : σ → α → Prop} {Q : α → Prop}
    (hsearch : ∀ s c s', search s c = .ok s' → (P s c ↔ Q c)) {cs : List α} {s s' : σ}
    (h : cs.foldlM search s = .ok s') : EachSearch search P cs s ↔ ∀ c ∈ cs, Q c := by
  induction cs generalizing s with
  | nil => exact iff_of_true trivial nofun
  | cons c cs ih =>
    rw [List.foldlM_cons] at h
    cases hc : search s c with
    | error e =>
      rw [hc] at h
      cases h
    | ok mid =>
      rw [hc] at h
      rw [EachSearch, List.forall_mem_cons, hsearch s c mid hc, ← ih h]
      refine and_congr_right fun _ => ⟨fun hrest => hrest mid hc, fun hrest s' hs' => ?_⟩
      cases hc.symm.trans hs'
      exact hrest

/-- In the search below `g` each finished node that is come upon meets `P` with the calls left. -/
def FinishedMet [DecidableEq α] (next : α → List α) (tooDeep looped ownSuccessor : α → ε)
    (P : Nat → α → Prop) : Nat → α → (α → Colour) → Prop
  | 0, _, _ => True
  | n + 1, g, colour =>
    match colour g with
    | .grey => True
    | .black => P (n + 1) g
    | .white => EachSearch
      (fun colour c => if c = g then .error (ownSuccessor g)
        else visit next tooDeep looped ownSuccessor n c colour)
      (fun colour c => FinishedMet next tooDeep looped ownSuccessor P n c colour) (next g)
      (Function.update colour g .grey)

/-- A search that ends has bounded the chains below its node if and only if it was so at every
finished node it came upon: it does not look below these. -/
theorem finishedMet_iff [DecidableEq α] {tooDeep looped ownSuccessor : α → ε} {n : Nat} {g : α}
    (h : visit next tooDeep looped ownSuccessor n g colour = .ok colour') :
    FinishedMet next tooDeep looped ownSuccessor (Short next) n g colour ↔ Short next n g := by
  induction n generalizing g colour colour' with
  | zero => cases h
  | succ n ih =>
    rw [visit] at h
    rw [FinishedMet]
    split at h
    · cases h
    · exact Iff.rfl
    generalize hfold : List.foldlM (m := Except ε) _ _ _ = r at h
    cases r with
    | error e => cases h
    | ok mid =>
      rw [short_succ_iff]
      refine eachSearch_iff (fun colour c colour' hc => ?_) hfold
      split at hc
      · cases hc
      · exact ih hc

/-- When every step goes down a well founded relation no chain comes back to its start. -/
theorem Steps.not_cycle {r : α → α → Prop} (hacc : ∀ b, Acc r b) (hnext : ∀ a, ∀ b ∈ next a, r a b)
    {g : α} : ¬ Steps next (k + 1) g g := by
  intro hcycle
  have hwf : WellFounded (Relation.TransGen r) := WellFounded.transGen ⟨hacc⟩
  exact hwf.irrefl.irrefl g (Relation.TransGen.mono hnext g g hcycle.transGen)

end Loomcycle.Lib.GraphSearch
