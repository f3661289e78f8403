import Loomcycle.Lib.Utf8Cut

/-!
Patterns made of symbols that stand for one item and stars that stand for any run of items.

`Matches` is the language of a pattern. `search` tries every run a star can stand for; `greedy`
is the loop that remembers one star only, the last it met, and goes back to it. Both decide the
language, the loop on patterns whose stars hit no item of the text they are brought to. The last
section reads patterns and texts as bytes and as characters.
-/

namespace Loomcycle.Lib.Glob

variable {τ α : Type*}

section Language

/-- The texts of a pattern: each star is replaced by a run of items, each other symbol by one
item it hits. -/
def Matches (star : τ → Bool) (hits : τ → α → Prop) : List τ → List α → Prop
  | [], s => s = []
  | t :: p, s =>
    (star t = true ∧ ∃ v, v <:+ s ∧ Matches star hits p v) ∨
      (star t = false ∧ ∃ a v, s = a :: v ∧ hits t a ∧ Matches star hits p v)

variable {star : τ → Bool} {hits hits' : τ → α → Prop} {t : τ} {p : List τ} {a : α} {s : List α}

theorem matches_star (ht : star t = true) :
    Matches star hits (t :: p) s ↔ ∃ v, v <:+ s ∧ Matches star hits p v := by
  exact ⟨fun h => h.elim And.right fun h => absurd ht (by simp [h.1]), fun h => .inl ⟨ht, h⟩⟩

theorem matches_symbol (ht : star t = false) :
    Matches star hits (t :: p) s ↔ ∃ a v, s = a :: v ∧ hits t a ∧ Matches star hits p v := by
  exact ⟨fun h => h.elim (fun h => absurd h.1 (by simp [ht])) And.right, fun h => .inr ⟨ht, h⟩⟩

theorem matches_symbol_cons (ht : star t = false) :
    Matches star hits (t :: p) (a :: s) ↔ hits t a ∧ Matches star hits p s := by
  rw [matches_symbol ht]
  constructor
  · rintro ⟨b, v, heq, h⟩
    obtain ⟨rfl, rfl⟩ := List.cons.inj heq
    exact h
  · exact fun h => ⟨a, s, rfl, h⟩

/-- Whatever way the symbols before it match, a symbol and the item it is then brought to are in
`Q`. -/
def Brings (star : τ → Bool) (hits Q : τ → α → Prop) : List τ → List α → Prop
  | [], _ => True
  | t :: p, s =>
    (∀ a v, s = a :: v → Q t a) ∧
      (star t = true → ∀ v, v <:+ s → Brings star hits Q p v) ∧
      (star t = false → ∀ a v, s = a :: v → hits t a → Brings star hits Q p v)

theorem Brings.imp {Q Q' : τ → α → Prop} (hQ : ∀ t a, Q t a → Q' t a) (h : Brings star hits Q p s) :
    Brings star hits Q' p s := by
  induction p generalizing s with
  | nil => trivial
  | cons t p ih =>
    obtain ⟨hhead, hstar, hsymbol⟩ := h
    exact ⟨fun a v hs => hQ t a (hhead a v hs), fun ht v hv => ih (hstar ht v hv),
      fun ht a v hs hhit => ih (hsymbol ht a v hs hhit)⟩

theorem brings_of_forall {Q : τ → α → Prop} (h : ∀ t ∈ p, ∀ a ∈ s, Q t a) :
    Brings star hits Q p s := by
  induction p generalizing s with
  | nil => trivial
  | cons t p ih =>
    obtain ⟨hhead, hrest⟩ := List.forall_mem_cons.mp h
    refine ⟨?_, fun _ v hv => ih fun t ht a ha => hrest t ht a (hv.subset ha), ?_⟩
    · rintro a v rfl
      exact hhead a List.mem_cons_self
    · rintro - a v rfl -
      exact ih fun t ht b hb => hrest t ht b (List.mem_cons_of_mem _ hb)

/-- The language depends on what the symbols hit of the items they are brought to. -/
theorem matches_congr
    (h : Brings star hits (fun t a => star t = false → (hits t a ↔ hits' t a)) p s) :
    Matches star hits p s ↔ Matches star hits' p s := by
  induction p generalizing s with
  | nil => rfl
  | cons t p ih =>
    obtain ⟨hhead, hstar, hsymbol⟩ := h
    rcases Bool.eq_false_or_eq_true (star t) with ht | ht
    · rw [matches_star ht, matches_star ht]
      exact exists_congr fun v => and_congr_right fun hv => ih (hstar ht v hv)
    · rw [matches_symbol ht, matches_symbol ht]
      refine exists₂_congr fun a v => and_congr_right fun hs => ?_
      rw [← hhead a v hs ht]
      exact and_congr_right fun hhit => ih (hsymbol ht a v hs hhit)

/-- Without a star, where each symbol hits itself alone, a pattern is its own only text. -/
theorem matches_literal {star : α → Bool} {hits : α → α → Prop} {p s : List α}
    (hp : ∀ t ∈ p, star t = false ∧ ∀ a, hits t a ↔ t = a) : Matches star hits p s ↔ p = s := by
  induction p generalizing s with
  | nil => exact eq_comm
  | cons t p ih =>
    obtain ⟨⟨ht, hhit⟩, hp⟩ := List.forall_mem_cons.mp hp
    rw [matches_symbol ht]
    constructor
    · rintro ⟨a, v, rfl, ha, hv⟩
      rw [(hhit a).mp ha, (ih hp).mp hv]
    · rintro rfl
      exact ⟨t, p, rfl, (hhit t).mpr rfl, (ih hp).mpr rfl⟩

end Language

/-! ## Trying every run -/

def search (star : τ → Bool) (hits : τ → α → Bool) : List τ → List α → Bool
  | [], s => s.isEmpty
  | t :: p, s =>
    if star t then s.tails.any (search star hits p)
    else match s with
      | [] => false
      | a :: s => hits t a && search star hits p s

theorem search_iff {star : τ → Bool} {hits : τ → α → Bool} {p : List τ} {s : List α} :
    search star hits p s = true ↔ Matches star (hits · · = true) p s := by
  induction p generalizing s with
  | nil => exact List.isEmpty_iff
  | cons t p ih =>
    unfold search
    split
    · rename_i ht
      simp only [matches_star ht, List.any_eq_true, List.mem_tails, ih]
    rename_i hsymbol
    have ht : star t = false := by simpa using hsymbol
    cases s with
    | nil =>
      rw [matches_symbol ht]
      exact ⟨nofun, nofun⟩
    | cons a s => rw [matches_symbol_cons ht, Bool.and_eq_true, ih]

/-! ## The loop that remembers one star -/

section Greedy

variable (star : τ → Bool) (hits : τ → α → Bool)

/-- Back to the last star: its run takes one more item. -/
def retry (loop : List τ → List α → Option (List τ × List α) → Bool) :
    Option (List τ × List α) → Bool
  | none => false
  | some (pb, sm) => loop pb sm.tail (some (pb, sm.tail))

/-- The loop. Its arguments are the rest of the pattern, the rest of the text, and for the last
star met the pattern behind it with the text from the end of the run it stands for so far. -/
def greedyLoop : Nat → List τ → List α → Option (List τ × List α) → Bool
  | 0, _, _, _ => false
  | _ + 1, p, [], _ => (p.dropWhile star).isEmpty
  | n + 1, p, a :: s, back =>
    if p.head?.any (hits · a) then greedyLoop n p.tail s back
    else if p.head?.any star then greedyLoop n p.tail (a :: s) (some (p.tail, a :: s))
    else retry (greedyLoop n) back

/-- The loop from its start, with steps enough for every pattern and text. -/
def greedy (p : List τ) (s : List α) : Bool :=
  greedyLoop star hits ((s.length + 1) * (p.length + s.length + 1) + p.length + s.length + 1)
    p s none

/-- Some run of items in front of the text is to be left out. -/
def Later (p : List τ) (s : List α) : Prop := ∃ v, v <:+ s ∧ Matches star (hits · · = true) p v

/-- What is left to try: the rest as it stands, or a longer run for the remembered star. -/
def Left (p : List τ) (s : List α) : Option (List τ × List α) → Prop
  | none => Matches star (hits · · = true) p s
  | some (pb, sm) => Matches star (hits · · = true) p s ∨ Later star hits pb sm.tail

/-- No star of the pattern hits the item it is brought to. -/
def StarsApart (p : List τ) (s : List α) : Prop :=
  Brings star (hits · · = true) (fun t a => star t = true → hits t a = false) p s

/-- The remembered star: a text for the pattern behind it that begins later ends in a text for
the rest of the pattern, which begins later too. -/
structure Behind (whole : List τ) (text : List α) (p : List τ) (s : List α) (pb : List τ)
    (sm : List α) : Prop where
  reach : Later star hits pb sm.tail → Later star hits p s.tail
  apart : ∀ v, v <:+ sm → StarsApart star hits pb v
  suffix : s <:+ sm
  pattern : pb <:+ whole
  text : sm <:+ text

/-- The star the loop remembers, if any. -/
abbrev Remembered (whole : List τ) (text : List α) (p : List τ) (s : List α)
    (back : Option (List τ × List α)) : Prop :=
  ∀ pb sm, back = some (pb, sm) → Behind star hits whole text p s pb sm

/-- The steps the loop has left, where `P` and `S` bound the pattern and the text. -/
def stepsLeft (P S : Nat) (p : List τ) (s : List α) : Option (List τ × List α) → Nat
  | none => (S + 1) * (P + S + 1) + p.length + s.length + 1
  | some (_, sm) => sm.length * (P + S + 1) + p.length + s.length + 1

variable {star hits} {t : τ} {p pb whole : List τ} {a : α} {s sm text : List α} {n : Nat}
variable {back : Option (List τ × List α)}

theorem later_iff : Later star hits p s ↔
    Matches star (hits · · = true) p s ∨ Later star hits p s.tail := by
  cases s with
  | nil => simp [Later]
  | cons a s => simp [Later, List.suffix_cons_iff, or_and_right, exists_or]

theorem Later.mono (h : Later star hits p s) (hs : s <:+ text) : Later star hits p text :=
  h.imp fun _ hv => ⟨hv.1.trans hs, hv.2⟩

theorem Behind.hit (h : Behind star hits whole text (t :: p) (a :: s) pb sm)
    (ht : star t = false) : Behind star hits whole text p s pb sm := by
  refine ⟨fun hlater => ?_, h.apart, (List.suffix_cons a s).trans h.suffix, h.pattern, h.text⟩
  obtain ⟨v, hv, hm⟩ := h.reach hlater
  obtain ⟨b, v, rfl, -, hm⟩ := (matches_symbol ht).mp hm
  cases s with
  | nil => cases List.suffix_nil.mp hv
  | cons c s =>
    obtain heq | hv := List.suffix_cons_iff.mp hv
    · exact ⟨v, (List.cons.inj heq).2 ▸ List.suffix_refl v, hm⟩
    · exact ⟨v, (List.suffix_cons b v).trans hv, hm⟩

/-- A star forgets the one before: what that could still match, this one matches. -/
theorem left_star (hback : Remembered star hits whole text (t :: p) s back) (ht : star t = true) :
    Left star hits p s (some (p, s)) ↔ Left star hits (t :: p) s back := by
  have hstar : Matches star (hits · · = true) (t :: p) s ↔ Later star hits p s := matches_star ht
  rw [Left, ← later_iff, ← hstar]
  cases back with
  | none => rfl
  | some remembered =>
    refine (or_iff_left_of_imp fun hlater => ?_).symm
    obtain ⟨v, hv, hm⟩ := (hback _ _ rfl).reach hlater
    have hv : Later star hits p v := (matches_star ht).mp hm
    exact hstar.mpr (hv.mono (‹v <:+ s.tail›.trans (List.tail_suffix s)))

theorem matches_nil : Matches star (hits · · = true) p [] ↔ (p.dropWhile star).isEmpty = true := by
  induction p with
  | nil => simp [Matches]
  | cons t p ih =>
    rcases Bool.eq_false_or_eq_true (star t) with ht | ht
    · simp only [matches_star ht, List.dropWhile_cons_of_pos ht, List.suffix_nil, exists_eq_left, ih]
    · rw [matches_symbol ht, List.dropWhile_cons_of_neg (by simp [ht])]
      exact ⟨nofun, nofun⟩

theorem left_nil (hback : Remembered star hits whole text p [] back) :
    (p.dropWhile star).isEmpty = true ↔ Left star hits p [] back := by
  have hnil : Matches star (hits · · = true) p [] ↔ _ := matches_nil
  rw [← hnil]
  cases back with
  | none => rfl
  | some remembered =>
    refine (or_iff_left_of_imp fun hlater => ?_).symm
    obtain ⟨v, hv, hm⟩ := (hback _ _ rfl).reach hlater
    rwa [List.suffix_nil.mp hv] at hm

/-- Going back to the remembered star. -/
theorem retry_iff
    (ih : ∀ {p s back}, StarsApart star hits p s → p <:+ whole → s <:+ text →
      Remembered star hits whole text p s back →
      stepsLeft whole.length text.length p s back ≤ n →
      (greedyLoop star hits n p s back = true ↔ Left star hits p s back))
    (hback : Remembered star hits whole text p (a :: s) back)
    (hn : stepsLeft whole.length text.length p (a :: s) back ≤ n + 1)
    (hno : ¬ Matches star (hits · · = true) p (a :: s)) :
    retry (greedyLoop star hits n) back = true ↔ Left star hits p (a :: s) back := by
  cases back with
  | none => exact ⟨nofun, fun h => absurd h hno⟩
  | some remembered =>
    obtain ⟨pb, sm⟩ := remembered
    have hb := hback pb sm rfl
    have htail : sm.tail <:+ text := (List.tail_suffix sm).trans hb.text
    have hleft : Left star hits pb sm.tail (some (pb, sm.tail)) ↔
        Left star hits p (a :: s) (some (pb, sm)) := later_iff.symm.trans (or_iff_right hno).symm
    rw [← hleft]
    refine ih (hb.apart _ (List.tail_suffix sm)) hb.pattern htail ?_ ?_
    · rintro _ _ ⟨⟩
      exact ⟨id, fun v hv => hb.apart v (hv.trans (List.tail_suffix sm)), List.suffix_refl _,
        hb.pattern, htail⟩
    · have hp := hb.pattern.length_le
      have hs := hb.text.length_le
      have hlen : sm.tail.length + 1 = sm.length := by
        have hpos : 0 < sm.length := Nat.lt_of_lt_of_le (Nat.succ_pos _) hb.suffix.length_le
        rw [List.length_tail]
        omega
      rw [stepsLeft, ← hlen, Nat.add_mul] at hn
      rw [stepsLeft]
      omega

theorem stepsLeft_hit {P S : Nat} :
    stepsLeft P S p s back < stepsLeft P S (t :: p) (a :: s) back := by
  unfold stepsLeft
  split <;> (simp only [List.length_cons]; omega)

/-- At a star the text left is no longer than it was from the star before. -/
theorem stepsLeft_star {P : Nat} (hs : s <:+ text)
    (hback : Remembered star hits whole text (t :: p) s back) :
    stepsLeft P text.length p s (some (p, s)) < stepsLeft P text.length (t :: p) s back := by
  have hmul : ∀ k, s.length ≤ k → stepsLeft P text.length p s (some (p, s)) <
      k * (P + text.length + 1) + (t :: p).length + s.length + 1 := by
    intro k hk
    have := Nat.mul_le_mul_right (P + text.length + 1) hk
    simp only [stepsLeft, List.length_cons]
    omega
  cases back with
  | none => exact hmul _ (Nat.le_succ_of_le hs.length_le)
  | some remembered => exact hmul _ (hback _ _ rfl).suffix.length_le

theorem greedyLoop_iff (hapart : StarsApart star hits p s) (hp : p <:+ whole)
    (hs : s <:+ text) (hback : Remembered star hits whole text p s back)
    (hn : stepsLeft whole.length text.length p s back ≤ n) :
    greedyLoop star hits n p s back = true ↔ Left star hits p s back := by
  induction n generalizing p s back with
  | zero =>
    unfold stepsLeft at hn
    split at hn <;> omega
  | succ n ih =>
    cases s with
    | nil => exact left_nil hback
    | cons a s =>
      cases p with
      | nil => exact retry_iff ih hback hn nofun
      | cons t p =>
        have hp' : p <:+ whole := (List.suffix_cons t p).trans hp
        change (if hits t a then greedyLoop star hits n p s back else if star t then _ else _) = true ↔ _
        by_cases hhit : hits t a = true
        · have ht : star t = false := by
            by_contra ht
            have hmiss := hapart.1 a s rfl (by simpa using ht)
            rw [hhit] at hmiss
            cases hmiss
          have hrest := ih (hapart.2.2 ht a s rfl hhit) hp' ((List.suffix_cons a s).trans hs)
            (fun pb sm h => (hback pb sm h).hit ht)
            (Nat.le_of_lt_succ (Nat.lt_of_lt_of_le stepsLeft_hit hn))
          rw [if_pos hhit, hrest]
          cases back <;> simp only [Left, matches_symbol_cons ht, hhit, true_and]
        · rw [if_neg hhit]
          by_cases ht : star t = true
          · have hnew : Remembered star hits whole text p (a :: s) (some (p, a :: s)) := by
              rintro _ _ ⟨⟩
              exact ⟨id, hapart.2.1 ht, List.suffix_refl _, hp', hs⟩
            have hrest := ih (hapart.2.1 ht _ (List.suffix_refl _)) hp' hs hnew
              (Nat.le_of_lt_succ (Nat.lt_of_lt_of_le (stepsLeft_star hs hback) hn))
            rw [if_pos ht]
            exact hrest.trans (left_star hback ht)
          · rw [if_neg ht]
            refine retry_iff ih hback hn ?_
            rw [matches_symbol_cons (by simpa using ht)]
            exact fun h => hhit h.1

/-- The loop decides the language of a pattern whose stars hit nothing they are brought to. -/
theorem greedy_iff (hapart : StarsApart star hits p s) :
    greedy star hits p s = true ↔ Matches star (hits · · = true) p s := by
  have hnone : Remembered star hits p s p s none := nofun
  exact greedyLoop_iff hapart (List.suffix_refl p) (List.suffix_refl s) hnone le_rfl

end Greedy

/-! ## Text

A star stands for any run of characters, a question mark for one character, every other character
for itself. A matcher of bytes sees the language of the characters where no question mark is
brought to a byte of a longer one. -/

section Text

open Lib.Encoding Lib.Utf8

def byteStar (b : UInt8) : Bool := b == 42

def byteHits (p b : UInt8) : Bool := p == 63 || p == b

def charStar (c : Chunk) : Bool := c == .rune 42 [42]

def CharHits (p c : Chunk) : Prop := p = .rune 63 [63] ∨ p = c

/-- No question mark is brought to a byte of a longer character. -/
def NarrowHits (p s : Bytes) : Prop :=
  Brings byteStar (byteHits · · = true) (fun t b => t = 63 → b.toNat < 0x80) p s

variable {p s t v : Bytes} {c : Chunk} {cs : List Chunk}

theorem exists_of_chunks_cons (h : chunks s = c :: cs) : ∃ v, s = c.bytes ++ v ∧ cs = chunks v := by
  cases s with
  | nil => cases h
  | cons b rest =>
    obtain ⟨d, v, hnext⟩ := next_some b rest
    obtain ⟨rfl, rfl⟩ := List.cons.inj (h.symm.trans (chunks_of_next hnext))
    exact ⟨v, (next_bytes hnext).1, rfl⟩

theorem exists_of_suffix_chunks (h : cs <:+ chunks s) : ∃ v, v <:+ s ∧ chunks v = cs := by
  induction s using chunks_induction with
  | nil => exact ⟨[], List.suffix_rfl, (List.suffix_nil.mp h).symm⟩
  | cons s d t hnext ih =>
    rw [chunks_of_next hnext] at h
    obtain heq | h := List.suffix_cons_iff.mp h
    · exact ⟨s, List.suffix_rfl, (chunks_of_next hnext).trans heq.symm⟩
    · obtain ⟨v, hv, hcs⟩ := ih h
      exact ⟨v, hv.trans ⟨d.bytes, (next_bytes hnext).1.symm⟩, hcs⟩

theorem suffix_chunks {b : UInt8} (hb : tail b = false) (h : b :: v <:+ s) :
    chunks (b :: v) <:+ chunks s := by
  obtain ⟨u, rfl⟩ := h
  exact ⟨chunks u, (chunks_append hb u).symm⟩

theorem tail_of_ascii {b : UInt8} (h : b.toNat < 0x80) : tail b = false := by
  rw [tail, within, Bool.and_eq_false_iff, decide_eq_false_iff_not]
  exact .inl (by omega)

/-- Bytes that are no signs stand for themselves. -/
theorem matches_bytes {bs : Bytes} (hbs : ∀ b ∈ bs, b ≠ 42 ∧ b ≠ 63) :
    Matches byteStar (byteHits · · = true) (bs ++ t) s ↔
      ∃ v, s = bs ++ v ∧ Matches byteStar (byteHits · · = true) t v := by
  induction bs generalizing s with
  | nil => simp
  | cons b bs ih =>
    obtain ⟨⟨hstar, hany⟩, hbs⟩ := List.forall_mem_cons.mp hbs
    have hsymbol : byteStar b = false := beq_eq_false_iff_ne.mpr hstar
    have hself : ∀ a, byteHits b a = true ↔ b = a := by simp [byteHits, hany]
    rw [List.cons_append, matches_symbol hsymbol]
    simp only [hself, ih hbs]
    constructor
    · rintro ⟨a, v, rfl, rfl, w, rfl, hw⟩
      exact ⟨w, rfl, hw⟩
    · rintro ⟨w, rfl, hw⟩
      exact ⟨b, bs ++ w, rfl, rfl, w, rfl, hw⟩

theorem NarrowHits.bytes {bs : Bytes} (hbs : ∀ b ∈ bs, b ≠ 42 ∧ b ≠ 63)
    (h : NarrowHits (bs ++ t) (bs ++ v)) : NarrowHits t v := by
  induction bs with
  | nil => exact h
  | cons b bs ih =>
    obtain ⟨⟨hstar, -⟩, hbs⟩ := List.forall_mem_cons.mp hbs
    refine ih hbs (h.2.2 (beq_eq_false_iff_ne.mpr hstar) b (bs ++ v) rfl ?_)
    simp [byteHits]

/-- A byte of a run behind a star that a valid rest of the pattern takes begins a character, unless
the rest begins with a star: then the run may as well be empty. -/
theorem star_run (ht : validString t = true) (hv : v <:+ s) (hnarrow : NarrowHits t v)
    (h : Matches byteStar (byteHits · · = true) t v) :
    ∃ w, w <:+ s ∧ chunks w <:+ chunks s ∧ Matches byteStar (byteHits · · = true) t w := by
  cases t with
  | nil => exact ⟨[], List.nil_suffix, List.nil_suffix, rfl⟩
  | cons b rest =>
    by_cases hstar : byteStar b = true
    · refine ⟨s, List.suffix_rfl, List.suffix_rfl, (matches_star hstar).mpr ?_⟩
      obtain ⟨w, hw, h⟩ := (matches_star hstar).mp h
      exact ⟨w, hw.trans hv, h⟩
    · obtain ⟨a, v, rfl, hhit, -⟩ := (matches_symbol (by simpa using hstar)).mp h
      refine ⟨a :: v, hv, suffix_chunks ?_ hv, h⟩
      rw [byteHits, Bool.or_eq_true, beq_iff_eq, beq_iff_eq] at hhit
      obtain hany | rfl := hhit
      · exact tail_of_ascii (hnarrow.1 a v rfl hany)
      · obtain ⟨c, u, hnext⟩ := next_some b rest
        rw [validString_of_next hnext, Bool.and_eq_true] at ht
        cases c with
        | stray _ => cases ht.1
        | rune r bs =>
          obtain ⟨b', rest', rfl, hb', -⟩ := rune_bytes hnext
          obtain ⟨rfl, -⟩ := List.cons.inj (next_bytes hnext).1
          exact hb'

theorem matches_text (hp : validString p = true) (hnarrow : NarrowHits p s) :
    Matches byteStar (byteHits · · = true) p s ↔
      Matches charStar CharHits (chunks p) (chunks s) := by
  induction p using chunks_induction generalizing s with
  | nil =>
    refine ⟨fun h => congrArg chunks h, fun h => ?_⟩
    rw [Matches, ← chunks_bytes s, show chunks s = [] from h]
    rfl
  | cons p c t hnext ih =>
    rw [validString_of_next hnext, Bool.and_eq_true] at hp
    obtain ⟨hrune, ht⟩ := hp
    cases c with
    | stray _ => cases hrune
    | rune r bs =>
    have hreads := reads_of_next hnext
    obtain rfl : p = bs ++ t := (next_bytes hnext).1
    rw [chunks_of_next hnext]
    have hsign : ∀ b ∈ bs, b.toNat < 0x80 → r = b.toNat ∧ bs = [b] := by
      intro b hb hlt
      obtain rfl := rune_of_mem_ascii hreads hb hlt
      rw [← encodeRune_of_next hnext, encodeRune, if_pos hlt]
      simp
    by_cases hstar : Chunk.rune r bs = .rune 42 [42]
    · obtain ⟨rfl, rfl⟩ := Chunk.rune.inj hstar
      have hrest := hnarrow.2.1 rfl
      rw [List.singleton_append, matches_star rfl, matches_star rfl]
      constructor
      · rintro ⟨v, hv, h⟩
        obtain ⟨w, hw, hchunks, h⟩ := star_run ht hv (hrest v hv) h
        exact ⟨chunks w, hchunks, (ih ht (hrest w hw)).mp h⟩
      · rintro ⟨cs, hcs, h⟩
        obtain ⟨v, hv, rfl⟩ := exists_of_suffix_chunks hcs
        exact ⟨v, hv, (ih ht (hrest v hv)).mpr h⟩
    · have hsymbol : charStar (.rune r bs) = false := beq_eq_false_iff_ne.mpr hstar
      rw [matches_symbol hsymbol]
      by_cases hany : Chunk.rune r bs = .rune 63 [63]
      · obtain ⟨rfl, rfl⟩ := Chunk.rune.inj hany
        rw [List.singleton_append, matches_symbol rfl]
        cases s with
        | nil =>
          constructor
          · rintro ⟨a, v, h, -⟩
            cases h
          · rintro ⟨c, cs, h, -⟩
            cases h
        | cons a v =>
          rw [chunks_of_next (next_ascii (hnarrow.1 a v rfl rfl) v)]
          simp only [List.cons.injEq, existsAndEq, true_and, byteHits, CharHits, beq_self_eq_true,
            Bool.true_or, true_or]
          exact ih ht (hnarrow.2.2 rfl a v rfl rfl)
      · have hbs : ∀ b ∈ bs, b ≠ 42 ∧ b ≠ 63 := by
          refine fun b hb => ⟨?_, ?_⟩ <;> rintro rfl
          · obtain ⟨rfl, rfl⟩ := hsign _ hb (by decide)
            exact hstar rfl
          · obtain ⟨rfl, rfl⟩ := hsign _ hb (by decide)
            exact hany rfl
        rw [matches_bytes hbs]
        constructor
        · rintro ⟨v, rfl, h⟩
          exact ⟨_, _, chunks_of_next (hreads v), .inr rfl, (ih ht (hnarrow.bytes hbs)).mp h⟩
        · rintro ⟨c, cs, hs, hhit, h⟩
          obtain rfl := hhit.resolve_left hany
          obtain ⟨v, rfl, rfl⟩ := exists_of_chunks_cons hs
          exact ⟨v, rfl, (ih ht (hnarrow.bytes hbs)).mpr h⟩

end Text

end Loomcycle.Lib.Glob
