import Mathlib.Data.List.Infix

/-! Regular expressions with captures, leftmost-first: of the matches at the first place that has
one, the one a backtracking search finds first. A text is cut into the characters between the
matches and the matches themselves, once, from the left; what replaces a match is not looked at
again. The expressions are meant to match no empty text. -/

namespace Loomcycle.Lib

abbrev Text := List Char

inductive Regex
  | eps
  | cls (p : Char → Bool)
  | seq (a b : Regex)
  | alt (a b : Regex)
  | star (reluctant : Bool) (a : Regex)
  | group (n : Nat) (a : Regex)

namespace Regex

def opt (a : Regex) : Regex := .alt a .eps

def plus (a : Regex) : Regex := .seq a (.star false a)

/-- At most `n` times. -/
def upTo (a : Regex) : Nat → Regex
  | 0 => .eps
  | n + 1 => opt (.seq a (upTo a n))

def word (w : Text) : Regex := w.foldr (fun c r => .seq (.cls fun x => x = c) r) .eps

def lit (w : String) : Regex := word w.toList

def oneOf (rs : List Regex) : Regex := rs.foldr .alt (.cls fun _ => false)

def cat (rs : List Regex) : Regex := rs.foldr .seq .eps

/-! ### Case folding -/

/-- The lower-case ASCII letter that `c` folds with: the long s and the Kelvin sign fold too. -/
def base (c : Char) : Char :=
  if c = '\u017f' then 's' else if c = '\u212a' then 'k' else c.toLower

/-- All that folds with `c`. -/
def orbit (c : Char) : List Char :=
  [base c, (base c).toUpper] ++ (if base c = 's' then ['\u017f'] else []) ++
    (if base c = 'k' then ['\u212a'] else [])

/-- The flag `(?i)`. -/
def ci : Regex → Regex
  | .eps => .eps
  | .cls p => .cls fun c => (orbit c).any p
  | .seq a b => .seq a.ci b.ci
  | .alt a b => .alt a.ci b.ci
  | .star reluctant a => .star reluctant a.ci
  | .group n a => .group n a.ci

/-! ### Matching -/

abbrev Caps := List (Nat × Text)

/-- `f` again and again, as long as it gets on; the most often first, unless `reluctant`. -/
def iterate (reluctant : Bool) (f : Text → Caps → List (Text × Caps)) :
    Nat → Text → Caps → List (Text × Caps)
  | 0, s, caps => [(s, caps)]
  | n + 1, s, caps =>
    let more := (f s caps).flatMap fun x =>
      if x.1.length < s.length then iterate reluctant f n x.1 x.2 else []
    if reluctant then (s, caps) :: more else more ++ [(s, caps)]

/-- What is left of the text after each match at its beginning, in order of preference. -/
def run : Regex → Text → Caps → List (Text × Caps)
  | .eps, s, caps => [(s, caps)]
  | .cls p, s, caps =>
    match s with
    | [] => []
    | c :: rest => if p c then [(rest, caps)] else []
  | .seq a b, s, caps => (run a s caps).flatMap fun x => run b x.1 x.2
  | .alt a b, s, caps => run a s caps ++ run b s caps
  | .star reluctant a, s, caps => iterate reluctant (run a) s.length s caps
  | .group n a, s, caps =>
    (run a s caps).map fun x => (x.1, (n, s.take (s.length - x.1.length)) :: x.2)

structure Match where
  text : Text
  caps : Caps
deriving DecidableEq

def Match.group (m : Match) (n : Nat) : Text := (m.caps.lookup n).getD []

/-- The match at the beginning of the text, and the rest. -/
def first? (r : Regex) (s : Text) : Option (Match × Text) :=
  (r.run s []).head?.map fun x => (⟨s.take (s.length - x.1.length), x.2⟩, x.1)

/-- `FindStringSubmatch` -/
def find? (r : Regex) : Text → Option Match
  | [] => (r.first? []).map Prod.fst
  | c :: s => ((r.first? (c :: s)).map Prod.fst).or (find? r s)

/-- `MatchString` -/
def isMatch (r : Regex) (s : Text) : Bool := (r.find? s).isSome

inductive Piece
  | char (c : Char)
  | hit (m : Match)
deriving DecidableEq

def Piece.text : Piece → Text
  | .char c => [c]
  | .hit m => m.text

def piecesLoop (r : Regex) : Nat → Text → List Piece
  | _, [] => []
  | 0, s => s.map .char
  | n + 1, c :: s =>
    match r.first? (c :: s) with
    | some (m, rest) =>
      if m.text = [] then .char c :: piecesLoop r n s else .hit m :: piecesLoop r n rest
    | none => .char c :: piecesLoop r n s

/-- The text cut at its matches. -/
def pieces (r : Regex) (s : Text) : List Piece := piecesLoop r s.length s

/-- `FindAllStringSubmatch` -/
def findAll (r : Regex) (s : Text) : List Match :=
  (r.pieces s).filterMap fun
    | .char _ => none
    | .hit m => some m

def Piece.replaced (f : Match → Text) : Piece → Text
  | .char c => [c]
  | .hit m => f m

/-- `ReplaceAllStringFunc` -/
def replaceAll (r : Regex) (f : Match → Text) (s : Text) : Text :=
  (r.pieces s).flatMap (Piece.replaced f)

/-- `ReplaceAllStringFunc` with a function that keeps a state. -/
def replaceWith {σ : Type*} (f : Match → σ → Text × σ) : List Piece → σ → Text × σ
  | [], st => ([], st)
  | .char c :: ps, st => (c :: (replaceWith f ps st).1, (replaceWith f ps st).2)
  | .hit m :: ps, st =>
    ((f m st).1 ++ (replaceWith f ps (f m st).2).1, (replaceWith f ps (f m st).2).2)

/-! ### What a match consumes -/

variable {r : Regex} {s rest : Text} {caps caps' : Caps} {m : Match}

variable {n : Nat} {x : Text × Caps}

/-- The matches of `r` at a text, as the text they consume: `P` says something of it. -/
theorem iterate_induct {reluctant : Bool} {f : Text → Caps → List (Text × Caps)}
    {P : Text → Caps → Text × Caps → Prop} (hstop : ∀ s caps, P s caps (s, caps))
    (hmore : ∀ s caps x y, x ∈ f s caps → P x.1 x.2 y → P s caps y)
    (h : x ∈ iterate reluctant f n s caps) : P s caps x := by
  induction n generalizing s caps with
  | zero =>
    obtain rfl := List.mem_singleton.mp h
    exact hstop s caps
  | succ n ih =>
    have hcases : x = (s, caps) ∨ x ∈ (f s caps).flatMap fun y =>
        if y.1.length < s.length then iterate reluctant f n y.1 y.2 else [] := by
      cases reluctant with
      | true => exact List.mem_cons.mp h
      | false => exact (List.mem_append.mp h).symm.imp List.mem_singleton.mp id
    obtain rfl | hx := hcases
    · exact hstop s caps
    · obtain ⟨y, hy, hx⟩ := List.mem_flatMap.mp hx
      split at hx
      · exact hmore s caps y x hy (ih hx)
      · cases hx

/-- No class of `r` has `x`. -/
def avoids (x : Char) : Regex → Bool
  | .eps => true
  | .cls p => !p x
  | .seq a b | .alt a b => a.avoids x && b.avoids x
  | .star _ a | .group _ a => a.avoids x

/-- What the group `n` captures has no `x`. -/
def groupAvoids (n : Nat) (x : Char) : Regex → Bool
  | .eps | .cls _ => true
  | .seq a b | .alt a b => a.groupAvoids n x && b.groupAvoids n x
  | .star _ a => a.groupAvoids n x
  | .group k a => (k ≠ n || a.avoids x) && a.groupAvoids n x

/-- The texts an expression stands for. -/
inductive Matches : Regex → Text → Prop
  | eps : Matches .eps []
  | cls {p : Char → Bool} {c : Char} (hc : p c = true) : Matches (.cls p) [c]
  | seq {a b : Regex} {s t : Text} (ha : Matches a s) (hb : Matches b t) :
      Matches (.seq a b) (s ++ t)
  | inl {a b : Regex} {s : Text} (ha : Matches a s) : Matches (.alt a b) s
  | inr {a b : Regex} {s : Text} (hb : Matches b s) : Matches (.alt a b) s
  | stop {reluctant : Bool} {a : Regex} : Matches (.star reluctant a) []
  | more {reluctant : Bool} {a : Regex} {s t : Text} (ha : Matches a s)
      (hstar : Matches (.star reluctant a) t) : Matches (.star reluctant a) (s ++ t)
  | group {n : Nat} {a : Regex} {s : Text} (ha : Matches a s) : Matches (.group n a) s

theorem matches_of_run (h : x ∈ r.run s caps) : ∃ t, s = t ++ x.1 ∧ Matches r t := by
  induction r generalizing s caps x with
  | eps =>
    obtain rfl := List.mem_singleton.mp h
    exact ⟨[], rfl, .eps⟩
  | cls p =>
    cases s with
    | nil => cases h
    | cons c s =>
      rw [run] at h
      split at h
      · next hp =>
        obtain rfl := List.mem_singleton.mp h
        exact ⟨[c], rfl, .cls hp⟩
      · cases h
  | seq a b iha ihb =>
    obtain ⟨y, hy, hx⟩ := List.mem_flatMap.mp h
    obtain ⟨t, rfl, ht⟩ := iha hy
    obtain ⟨t', heq, ht'⟩ := ihb hx
    exact ⟨t ++ t', by rw [heq, List.append_assoc], .seq ht ht'⟩
  | alt a b iha ihb =>
    obtain ha | hb := List.mem_append.mp h
    · exact (iha ha).imp fun t ht => ⟨ht.1, .inl ht.2⟩
    · exact (ihb hb).imp fun t ht => ⟨ht.1, .inr ht.2⟩
  | star reluctant a ih =>
    refine iterate_induct (P := fun s _ x => ∃ t, s = t ++ x.1 ∧ Matches (.star reluctant a) t)
      (fun s _ => ⟨[], rfl, .stop⟩) (fun s _ x y hx hy => ?_) h
    obtain ⟨t, rfl, ht⟩ := ih hx
    obtain ⟨t', heq, ht'⟩ := hy
    exact ⟨t ++ t', by rw [heq, List.append_assoc], .more ht ht'⟩
  | group n a ih =>
    obtain ⟨y, hy, rfl⟩ := List.mem_map.mp h
    exact (ih hy).imp fun t ht => ⟨ht.1, .group ht.2⟩

/-- The search finds every match at the beginning of a text. -/
theorem run_of_matches {t : Text} (h : Matches r t) (rest : Text) (caps : Caps) :
    ∃ caps', (rest, caps') ∈ r.run (t ++ rest) caps := by
  induction r generalizing t rest caps with
  | eps =>
    cases h
    exact ⟨caps, List.mem_cons_self⟩
  | cls p =>
    cases h with
    | cls hc =>
      rw [List.singleton_append, run, if_pos hc]
      exact ⟨caps, List.mem_cons_self⟩
  | seq a b iha ihb =>
    cases h with
    | seq ha hb =>
      obtain ⟨caps₁, h₁⟩ := iha ha (_ ++ rest) caps
      obtain ⟨caps₂, h₂⟩ := ihb hb rest caps₁
      exact ⟨caps₂, by rw [List.append_assoc]; exact List.mem_flatMap.mpr ⟨_, h₁, h₂⟩⟩
  | alt a b iha ihb =>
    cases h with
    | inl ha => exact (iha ha rest caps).imp fun _ => List.mem_append_left _
    | inr hb => exact (ihb hb rest caps).imp fun _ => List.mem_append_right _
  | star reluctant a ih =>
    -- rounds that consume nothing are left out, so the length of the text bounds their number
    have hloop : ∀ {q t}, Matches q t → q = .star reluctant a → ∀ n caps, t.length ≤ n →
        ∃ caps', (rest, caps') ∈ iterate reluctant (run a) n (t ++ rest) caps := by
      intro q t hq
      have hstop : ∀ n caps, (rest, caps) ∈ iterate reluctant (run a) n rest caps := by
        intro n caps
        cases n <;> cases reluctant <;> simp [iterate]
      induction hq with
      | stop => exact fun _ n caps _ => ⟨caps, hstop n caps⟩
      | @more _ _ u v ha _ _ ihstar =>
        rintro ⟨⟩ n caps hn
        rw [List.length_append] at hn
        cases hu : u.length with
        | zero =>
          obtain rfl := List.eq_nil_of_length_eq_zero hu
          exact ihstar rfl n caps (by omega)
        | succ k =>
          obtain ⟨n, rfl⟩ : ∃ m, n = m + 1 := Nat.exists_eq_add_one.mpr (by omega)
          obtain ⟨caps₁, h₁⟩ := ih ha (v ++ rest) caps
          obtain ⟨caps₂, h₂⟩ := ihstar rfl n caps₁ (by omega)
          rw [List.append_assoc, iterate]
          have hmore : (rest, caps₂) ∈ (run a (u ++ (v ++ rest)) caps).flatMap fun x =>
              if x.1.length < (u ++ (v ++ rest)).length then iterate reluctant (run a) n x.1 x.2
              else [] :=
            List.mem_flatMap.mpr ⟨_, h₁, by rwa [if_pos (by simp; omega)]⟩
          refine ⟨caps₂, ?_⟩
          cases reluctant with
          | true => exact List.mem_cons_of_mem _ hmore
          | false => exact List.mem_append_left _ hmore
      | _ => nofun
    exact hloop h rfl _ caps (by simp)
  | group n a ih =>
    cases h with
    | group ha =>
      obtain ⟨caps', hrun⟩ := ih ha rest caps
      exact ⟨_, List.mem_map.mpr ⟨_, hrun, rfl⟩⟩

/-- A text of an expression that avoids `c` has no `c`. -/
theorem Matches.not_mem {c : Char} {t : Text} (h : Matches r t) (hr : r.avoids c = true) :
    c ∉ t := by
  induction h with
  | cls hp =>
    rintro hc
    obtain rfl := List.mem_singleton.mp hc
    rw [avoids, hp] at hr
    cases hr
  | seq _ _ iha ihb =>
    obtain ⟨ha, hb⟩ := Bool.and_eq_true_iff.mp hr
    exact fun hc => (List.mem_append.mp hc).elim (iha ha) (ihb hb)
  | inl _ ih => exact ih (Bool.and_eq_true_iff.mp hr).1
  | inr _ ih => exact ih (Bool.and_eq_true_iff.mp hr).2
  | more _ _ iha ihstar => exact fun hc => (List.mem_append.mp hc).elim (iha hr) (ihstar hr)
  | group _ ih => exact ih hr
  | _ => exact List.not_mem_nil

/-- Every text of `r` has a character. -/
def nonempty : Regex → Bool
  | .eps | .star _ _ => false
  | .cls _ => true
  | .seq a b => a.nonempty || b.nonempty
  | .alt a b => a.nonempty && b.nonempty
  | .group _ a => a.nonempty

theorem Matches.ne_nil {t : Text} (h : Matches r t) (hr : r.nonempty = true) : t ≠ [] := by
  induction h with
  | cls => exact List.cons_ne_nil _ _
  | seq _ _ iha ihb =>
    intro hnil
    obtain ⟨rfl, rfl⟩ := List.append_eq_nil_iff.mp hnil
    exact (Bool.or_eq_true_iff.mp hr).elim (fun ha => iha ha rfl) fun hb => ihb hb rfl
  | inl _ ih => exact ih (Bool.and_eq_true_iff.mp hr).1
  | inr _ ih => exact ih (Bool.and_eq_true_iff.mp hr).2
  | group _ ih => exact ih hr
  | _ => cases hr

theorem not_mem_group_of_run {c : Char} (hr : r.groupAvoids n c = true)
    (hcaps : ∀ t, (n, t) ∈ caps → c ∉ t) (h : x ∈ r.run s caps) : ∀ t, (n, t) ∈ x.2 → c ∉ t := by
  induction r generalizing s caps x with
  | eps =>
    obtain rfl := List.mem_singleton.mp h
    exact hcaps
  | cls p =>
    cases s with
    | nil => cases h
    | cons d s =>
      rw [run] at h
      split at h
      · obtain rfl := List.mem_singleton.mp h
        exact hcaps
      · cases h
  | seq a b iha ihb =>
    obtain ⟨y, hy, hx⟩ := List.mem_flatMap.mp h
    obtain ⟨ha, hb⟩ := Bool.and_eq_true_iff.mp hr
    exact ihb hb (iha ha hcaps hy) hx
  | alt a b iha ihb =>
    obtain ⟨ha, hb⟩ := Bool.and_eq_true_iff.mp hr
    exact (List.mem_append.mp h).elim (iha ha hcaps) (ihb hb hcaps)
  | star reluctant a ih =>
    have hall := iterate_induct
      (P := fun _ caps x => (∀ t, (n, t) ∈ caps → c ∉ t) → ∀ t, (n, t) ∈ x.2 → c ∉ t)
      (fun _ _ h => h) (fun _ _ x y hx hy hcaps => hy (ih hr hcaps hx)) h
    exact hall hcaps
  | group k a ih =>
    obtain ⟨y, hy, rfl⟩ := List.mem_map.mp h
    obtain ⟨hk, ha⟩ := Bool.and_eq_true_iff.mp hr
    intro t ht
    obtain heq | ht := List.mem_cons.mp ht
    · obtain ⟨rfl, rfl⟩ := Prod.mk.inj heq
      have hav : a.avoids c = true := by simpa using hk
      obtain ⟨u, rfl, hu⟩ := matches_of_run hy
      rw [List.length_append, Nat.add_sub_cancel, List.take_left]
      exact hu.not_mem hav
    · exact ih ha hcaps hy t ht

/-- What is matched first is a text of the expression. -/
theorem matches_of_first (h : r.first? s = some (m, rest)) :
    m.text ++ rest = s ∧ Matches r m.text := by
  obtain ⟨x, hx, heq⟩ := Option.map_eq_some_iff.mp h
  obtain ⟨rfl, rfl⟩ := Prod.mk.inj heq
  obtain ⟨t, rfl, ht⟩ := matches_of_run (List.mem_of_head? hx)
  simpa using ht

theorem not_mem_group_of_first {c : Char} (hr : r.groupAvoids n c = true)
    (h : r.first? s = some (m, rest)) : c ∉ m.group n := by
  obtain ⟨x, hx, heq⟩ := Option.map_eq_some_iff.mp h
  obtain ⟨rfl, rfl⟩ := Prod.mk.inj heq
  rw [Match.group]
  cases hlook : x.2.lookup n with
  | none => exact List.not_mem_nil
  | some t =>
    obtain ⟨l₁, l₂, heq, -⟩ := List.lookup_eq_some_iff.mp hlook
    refine not_mem_group_of_run hr (fun t ht => ?_) (List.mem_of_head? hx) t ?_
    · cases ht
    rw [heq]
    exact List.mem_append_right _ List.mem_cons_self

theorem not_mem_group_of_find {c : Char} (hr : r.groupAvoids n c = true) (h : r.find? s = some m) :
    c ∉ m.group n := by
  induction s with
  | nil =>
    obtain ⟨⟨m', rest⟩, hfirst, rfl⟩ := Option.map_eq_some_iff.mp h
    exact not_mem_group_of_first hr hfirst
  | cons d s ih =>
    rw [find?] at h
    cases hfirst : r.first? (d :: s) with
    | none =>
      rw [hfirst] at h
      exact ih h
    | some x =>
      rw [hfirst] at h
      cases h
      exact not_mem_group_of_first hr hfirst

/-- A word matches where the text begins with it. -/
theorem run_word (w : Text) :
    (word w).run s caps = if w <+: s then [(s.drop w.length, caps)] else [] := by
  induction w generalizing s with
  | nil => rw [if_pos List.nil_prefix]; rfl
  | cons c w ih =>
    have hcons : (word (c :: w)).run s caps =
        ((cls fun x => x = c).run s caps).flatMap fun x => (word w).run x.1 x.2 := rfl
    cases s with
    | nil => rw [hcons, if_neg (by simp)]; rfl
    | cons d s =>
      by_cases hd : d = c
      · subst hd
        simp only [hcons, run, decide_true, if_true, List.flatMap_singleton, ih,
          List.cons_prefix_cons, true_and, List.length_cons, List.drop_succ_cons]
      · simp [hcons, run, hd, Ne.symm hd]

theorem first_word (w : Text) :
    (word w).first? s = if w <+: s then some (⟨w, []⟩, s.drop w.length) else none := by
  rw [first?, run_word]
  split
  · next h =>
    obtain ⟨t, rfl⟩ := h
    simp
  · rfl

/-! ### The pieces of a text -/

/-- The ways a text is cut: a character stays where nothing is matched. -/
inductive Cut (r : Regex) : Text → List Piece → Prop
  | nil : Cut r [] []
  | char {c : Char} {s : Text} {ps : List Piece}
      (h : ∀ m rest, r.first? (c :: s) = some (m, rest) → m.text = []) (hps : Cut r s ps) :
      Cut r (c :: s) (.char c :: ps)
  | hit {m : Match} {rest : Text} {ps : List Piece} (hne : m.text ≠ []) (hm : r.Matches m.text)
      (hps : Cut r rest ps) : Cut r (m.text ++ rest) (.hit m :: ps)

theorem cut_piecesLoop (hn : s.length ≤ n) : r.Cut s (r.piecesLoop n s) := by
  induction n generalizing s with
  | zero =>
    obtain rfl := List.eq_nil_of_length_eq_zero (Nat.le_zero.mp hn)
    exact .nil
  | succ n ih =>
    cases s with
    | nil => exact .nil
    | cons c s =>
      have hs := ih (Nat.le_of_succ_le_succ hn)
      rw [piecesLoop]
      split
      · next m rest hfirst =>
        split
        · next hnil =>
          refine .char (fun m' rest' heq => ?_) hs
          rw [hfirst] at heq
          cases heq
          exact hnil
        · next hne =>
          obtain ⟨htext, hm⟩ := matches_of_first hfirst
          have hlen := congrArg List.length htext
          have hpos := List.length_pos_iff.mpr hne
          rw [List.length_append] at hlen
          rw [← htext]
          exact .hit hne hm (ih (by omega))
      · next hfirst => exact .char (fun m rest heq => by cases hfirst.symm.trans heq) hs

theorem cut_pieces (r : Regex) (s : Text) : r.Cut s (r.pieces s) := cut_piecesLoop (Nat.le_refl _)

/-- What is replaced was matched at its place. -/
theorem first_of_hit (h : .hit m ∈ r.piecesLoop n s) :
    ∃ s' rest, r.first? s' = some (m, rest) := by
  induction n generalizing s with
  | zero => cases s <;> simp [piecesLoop] at h
  | succ n ih =>
    cases s with
    | nil => cases h
    | cons c s =>
      rw [piecesLoop] at h
      split at h
      · next hfirst =>
        split at h
        · exact ih ((List.mem_cons.mp h).resolve_left nofun)
        · obtain heq | h := List.mem_cons.mp h
          · cases heq
            exact ⟨_, _, hfirst⟩
          · exact ih h
      · exact ih ((List.mem_cons.mp h).resolve_left nofun)

theorem Cut.text {ps : List Piece} (h : r.Cut s ps) : ps.flatMap Piece.text = s := by
  induction h with
  | nil => rfl
  | char _ _ ih => exact congrArg (_ :: ·) ih
  | hit _ _ _ ih => exact congrArg (_ ++ ·) ih

/-- The pieces put together again are the text. -/
theorem pieces_text (r : Regex) (s : Text) : (r.pieces s).flatMap Piece.text = s :=
  (cut_pieces r s).text

/-- A text with each match replaced by something `P` allows for it. -/
inductive Filled (P : Text → Text → Prop) : List Piece → Text → Prop
  | nil : Filled P [] []
  | char {c : Char} {ps : List Piece} {t : Text} : Filled P ps t → Filled P (.char c :: ps) (c :: t)
  | hit {m : Match} {v : Text} {ps : List Piece} {t : Text} :
      P m.text v → Filled P ps t → Filled P (.hit m :: ps) (v ++ t)

/-- The matches, each with the state it is met in. -/
def met {σ : Type*} (f : Match → σ → Text × σ) : List Piece → σ → List (Match × σ)
  | [], _ => []
  | .char _ :: ps, st => met f ps st
  | .hit m :: ps, st => (m, st) :: met f ps (f m st).2

theorem filled_replaceWith {σ : Type*} {P : Text → Text → Prop} {f : Match → σ → Text × σ}
    {ps : List Piece} {st : σ} (h : ∀ x ∈ met f ps st, P x.1.text (f x.1 x.2).1) :
    Filled P ps (replaceWith f ps st).1 := by
  induction ps generalizing st with
  | nil => exact .nil
  | cons p ps ih =>
    cases p with
    | char c => exact .char (ih h)
    | hit m =>
      obtain ⟨hfirst, hrest⟩ := List.forall_mem_cons.mp h
      exact .hit hfirst (ih hrest)

/-- When no state that comes up changes what replaces a match, each match has its own value. -/
theorem replaceWith_eq {σ : Type*} {f : Match → σ → Text × σ} {g : Match → Text} {I : σ → Prop}
    (h : ∀ m st, I st → (f m st).1 = g m ∧ I (f m st).2) (ps : List Piece) {st : σ} (hst : I st) :
    (replaceWith f ps st).1 = ps.flatMap (Piece.replaced g) := by
  induction ps generalizing st with
  | nil => rfl
  | cons p ps ih =>
    cases p with
    | char c => rw [replaceWith, ih hst]; rfl
    | hit m => rw [replaceWith, (h m st hst).1, ih (h m st hst).2]; rfl

/-- Replacing each match by itself changes nothing. -/
theorem replaceAll_eq_self {f : Match → Text}
    (h : ∀ m : Match, m.text <:+: s → r.Matches m.text → f m = m.text) : r.replaceAll f s = s := by
  have hcut : ∀ {s' ps}, r.Cut s' ps → s' <:+: s → ps.flatMap (Piece.replaced f) = s' := by
    intro s' ps hps
    induction hps with
    | nil => exact fun _ => rfl
    | char _ _ ih =>
      exact fun hs => congrArg (_ :: ·) (ih ((List.suffix_cons _ _).isInfix.trans hs))
    | @hit m rest ps _ hm _ ih =>
      intro hs
      rw [List.flatMap_cons, Piece.replaced, h m ((List.prefix_append _ _).isInfix.trans hs) hm,
        ih ((List.suffix_append _ _).isInfix.trans hs)]
  exact hcut (cut_pieces r s) (List.infix_refl s)

/-! ### Occurrences of a word -/

section Occurrences

variable {α : Type*} {w a b l r : List α} {x : α}

/-- A word without `x` lies on one side of an `x`. -/
theorem split_of_cons (hx : x ∉ w) (hw : w ≠ []) (hl : ¬ w <:+: l)
    (h : l ++ x :: r = a ++ w ++ b) : ∃ a', r = a' ++ w ++ b := by
  rw [List.append_assoc] at h
  obtain ⟨c, rfl, hr⟩ | ⟨c, rfl, hr⟩ := List.append_eq_append_iff.mp h
  · cases c with
    | nil =>
      obtain ⟨d, w', rfl⟩ := List.exists_cons_of_ne_nil hw
      exact absurd ((List.cons.inj hr).1 ▸ List.mem_cons_self) hx
    | cons d c =>
      refine ⟨c, ?_⟩
      rw [List.append_assoc]
      exact (List.cons.inj hr).2
  · obtain ⟨d, rfl, -⟩ | ⟨d, rfl, hd⟩ := List.append_eq_append_iff.mp hr
    · exact absurd ⟨a, d, List.append_assoc ..⟩ hl
    · cases d with
      | nil =>
        rw [List.append_nil] at hl
        exact absurd (List.suffix_append a c).isInfix hl
      | cons y d =>
        refine absurd ?_ hx
        rw [(List.cons.inj hd).1]
        exact List.mem_append_right _ List.mem_cons_self

theorem not_infix_cons (hx : x ∉ w) (hw : w ≠ []) (hl : ¬ w <:+: l) (hr : ¬ w <:+: r) :
    ¬ w <:+: l ++ x :: r := by
  rintro ⟨a, b, h⟩
  obtain ⟨a', hr'⟩ := split_of_cons hx hw hl h.symm
  exact hr ⟨a', b, hr'.symm⟩

/-- Of a word between two `x`, the occurrence is that one or comes later. -/
theorem split_quoted (hx : x ∉ w) (hw : w ≠ []) (hl : ¬ w <:+: l)
    (h : l ++ x :: (w ++ x :: r) = a ++ w ++ b) :
    a = l ++ [x] ∧ b = x :: r ∨ ∃ a', r = a' ++ w ++ b := by
  obtain ⟨a', h'⟩ := split_of_cons hx hw hl h
  cases a' with
  | nil =>
    obtain rfl := List.append_cancel_left h'
    rw [List.append_assoc, List.append_cons] at h
    exact .inl ⟨(List.append_cancel_right h).symm, rfl⟩
  | cons y a' =>
    obtain ⟨z, w, rfl⟩ := List.exists_cons_of_ne_nil hw
    refine .inr (split_of_cons hx hw (fun hinfix => ?_) (List.cons.inj h').2)
    exact absurd hinfix.length_le (by simp)

/-- A word after whose start the text has no more of its first letter. -/
theorem rest_of_cons (hw : x ∉ w) (hr : x ∉ r) (h : x :: w ++ r = a ++ x :: w ++ b) : b = r := by
  cases a with
  | nil => exact (List.append_cancel_left h).symm
  | cons y a =>
    -- an occurrence further on would begin inside the word
    have htail : w ++ r = a ++ x :: w ++ b := (List.cons.inj h).2
    have hmem : x ∈ w ++ r := by simp [htail]
    exact absurd hmem (by simp [hw, hr])

end Occurrences

/-! ### Words that replacing takes out -/

theorem base_mem_orbit (c : Char) : base c ∈ orbit c := by
  exact List.mem_cons_self

/-- A folded word stands for whatever folds to it. -/
theorem matches_word (t : Text) : (word (t.map base)).ci.Matches t := by
  induction t with
  | nil => exact .eps
  | cons c t ih =>
    refine .seq (.cls (List.any_eq_true.mpr ⟨base c, base_mem_orbit c, ?_⟩)) ih
    exact decide_eq_true rfl

theorem matches_oneOf {rs : List Regex} {t : Text} (hr : r ∈ rs) (h : r.ci.Matches t) :
    (oneOf rs).ci.Matches t := by
  induction rs with
  | nil => cases hr
  | cons r' rs ih =>
    obtain rfl | hr := List.mem_cons.mp hr
    · exact .inl h
    · exact .inr (ih hr)

theorem first_of_matches {t : Text} (h : r.Matches t) (hs : t <+: s) :
    ∃ m rest, r.first? s = some (m, rest) := by
  obtain ⟨rest, rfl⟩ := hs
  obtain ⟨caps, hrun⟩ := run_of_matches h rest []
  obtain ⟨x, xs, hcons⟩ := List.exists_cons_of_ne_nil (List.ne_nil_of_mem hrun)
  exact ⟨_, _, by rw [first?, hcons]; rfl⟩

section Words

variable {f : Match → Text} {w : Text} {c : Char} {g : Char → Char}

/-- A beginning of the new text, read through `g`, was there in the old one, if it has nothing a
replacement starts with. -/
theorem prefix_of_replaced {ps : List Piece} (hps : r.Cut s ps)
    (hf : ∀ m, .hit m ∈ ps → ∃ x t, f m = x :: t ∧ g x ∉ w) {v : Text} (hv : v ⊆ w)
    (h : v <+: (ps.flatMap (Piece.replaced f)).map g) : v <+: s.map g := by
  induction hps generalizing v with
  | nil => exact h
  | char _ _ ih =>
    cases v with
    | nil => exact List.nil_prefix
    | cons b v =>
      obtain ⟨hb, hrest⟩ := List.cons_prefix_cons.mp h
      have hs := ih (fun m hm => hf m (List.mem_cons_of_mem _ hm))
        (fun x hx => hv (List.mem_cons_of_mem _ hx)) hrest
      exact List.cons_prefix_cons.mpr ⟨hb, hs⟩
  | @hit m =>
    cases v with
    | nil => exact List.nil_prefix
    | cons b v =>
      obtain ⟨x, t, heq, hx⟩ := hf m List.mem_cons_self
      rw [List.flatMap_cons, Piece.replaced, heq] at h
      exact absurd ((List.cons_prefix_cons.mp h).1 ▸ hv List.mem_cons_self) hx

theorem infix_of_append {a b : Text} (hc : c ∉ a) (h : (c :: w) <:+: a ++ b) : (c :: w) <:+: b := by
  induction a with
  | nil => exact h
  | cons d a ih =>
    obtain ⟨hd, ha⟩ := not_or.mp fun h => hc (List.mem_cons.mpr h)
    obtain hhead | hocc := List.infix_cons_iff.mp h
    · exact absurd (List.cons_prefix_cons.mp hhead).1 hd
    · exact ih ha hocc

/-- A word all of whose forms are matched, and that no replacement has a part in, is gone. -/
theorem Cut.gone {ps : List Piece} (hps : r.Cut s ps)
    (hword : ∀ t, t.map g = c :: w → r.Matches t) (hne : ∀ t, r.Matches t → t ≠ [])
    (hf : ∀ m, .hit m ∈ ps → c ∉ (f m).map g ∧ ∃ x t, f m = x :: t ∧ g x ∉ w) :
    ¬ (c :: w) <:+: (ps.flatMap (Piece.replaced f)).map g := by
  intro h
  induction hps with
  | nil => exact absurd (List.infix_nil.mp h) (List.cons_ne_nil c w)
  | @char d s ps hfirst hps ih =>
    have hrest := fun m hm => hf m (List.mem_cons_of_mem _ hm)
    -- a character that stays: the word would begin with it, and be matched here
    obtain hhead | hocc := List.infix_cons_iff.mp h
    · obtain ⟨hd, hw⟩ := List.cons_prefix_cons.mp hhead
      have hold := prefix_of_replaced hps (fun m hm => (hrest m hm).2) (List.Subset.refl w) hw
      have htake := List.prefix_iff_eq_take.mp (List.cons_prefix_cons.mpr ⟨hd, hold⟩)
      rw [← List.map_cons, ← List.map_take] at htake
      obtain ⟨m, rest, hsome⟩ := first_of_matches (hword _ htake.symm) (List.take_prefix _ _)
      exact hne _ (matches_of_first hsome).2 (hfirst m rest hsome)
    · exact ih hrest hocc
  | @hit m _ _ _ _ _ ih =>
    rw [List.flatMap_cons, List.map_append] at h
    refine ih (fun m hm => hf m (List.mem_cons_of_mem _ hm)) ?_
    exact infix_of_append (hf m List.mem_cons_self).1 h

end Words

end Regex

end Loomcycle.Lib
