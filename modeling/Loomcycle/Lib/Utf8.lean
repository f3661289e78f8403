import Loomcycle.Lib.Encoding

/-! UTF-8 read one rune at a time, as a byte scanner does: a byte that starts no
well-formed sequence is passed over alone. The text then splits into chunks, each
a rune with its bytes or one stray byte, and a function on texts is a function on
chunks. A text is valid when no chunk is stray. -/

namespace Loomcycle.Lib.Utf8
open Lib.Encoding

/-- What the scanner reads at one position. -/
inductive Chunk
  | rune (r : Nat) (bs : Bytes)
  | stray (b : UInt8)
  deriving DecidableEq, Repr

def Chunk.bytes : Chunk → Bytes
  | .rune _ bs => bs
  | .stray b => [b]

def Chunk.isRune : Chunk → Bool
  | .rune _ _ => true
  | .stray _ => false

/-- A multi-byte sequence by its first byte: its length and the range of its
second byte (the ranges shut out overlong forms, surrogates and runes past the
last). -/
inductive Lead
  | two
  | three (lo hi : Nat)
  | four (lo hi : Nat)
  deriving DecidableEq, Repr

def lead (n : Nat) : Option Lead :=
  if 0xC2 ≤ n ∧ n ≤ 0xDF then some .two
  else if n = 0xE0 then some (.three 0xA0 0xBF)
  else if n = 0xED then some (.three 0x80 0x9F)
  else if 0xE1 ≤ n ∧ n ≤ 0xEF then some (.three 0x80 0xBF)
  else if n = 0xF0 then some (.four 0x90 0xBF)
  else if n = 0xF4 then some (.four 0x80 0x8F)
  else if 0xF1 ≤ n ∧ n ≤ 0xF3 then some (.four 0x80 0xBF)
  else none

def within (lo hi : Nat) (b : UInt8) : Bool := lo ≤ b.toNat && b.toNat ≤ hi

/-- A continuation byte. -/
def tail (b : UInt8) : Bool := within 0x80 0xBF b

/-- The first chunk of a text and what follows it. -/
def next : Bytes → Option (Chunk × Bytes)
  | [] => none
  | b :: rest =>
    if b.toNat < 0x80 then some (.rune b.toNat [b], rest)
    else match lead b.toNat, rest with
      | some .two, c :: t =>
        if tail c then some (.rune (b.toNat % 32 * 64 + c.toNat % 64) [b, c], t)
        else some (.stray b, rest)
      | some (.three lo hi), c :: d :: t =>
        if within lo hi c && tail d then
          some (.rune (b.toNat % 16 * 4096 + c.toNat % 64 * 64 + d.toNat % 64) [b, c, d], t)
        else some (.stray b, rest)
      | some (.four lo hi), c :: d :: e :: t =>
        if within lo hi c && tail d && tail e then
          some (.rune (b.toNat % 8 * 262144 + c.toNat % 64 * 4096 + d.toNat % 64 * 64
            + e.toNat % 64) [b, c, d, e], t)
        else some (.stray b, rest)
      | _, _ => some (.stray b, rest)

variable {b : UInt8} {c : Chunk} {s t bs : Bytes} {r n : Nat}

theorem next_ascii (h : b.toNat < 0x80) (t : Bytes) :
    next (b :: t) = some (.rune b.toNat [b], t) := by
  simp [next, h]

theorem next_bytes (h : next s = some (c, t)) : s = c.bytes ++ t ∧ c.bytes ≠ [] := by
  cases s with
  | nil => simp [next] at h
  | cons b rest =>
    simp only [next] at h
    split at h
    · cases h; exact ⟨rfl, by simp [Chunk.bytes]⟩
    · split at h
      all_goals try split at h
      all_goals cases h; exact ⟨rfl, by simp [Chunk.bytes]⟩

theorem next_some (b : UInt8) (rest : Bytes) : ∃ c t, next (b :: rest) = some (c, t) := by
  cases h : next (b :: rest) with
  | some p => exact ⟨p.1, p.2, rfl⟩
  | none =>
    simp only [next] at h
    split at h
    · cases h
    · split at h
      all_goals try split at h
      all_goals cases h

/-- A rune with the bytes that are read as it. -/
inductive Spells : Nat → Bytes → Prop
  | one {b : UInt8} (hb : b.toNat < 0x80) : Spells b.toNat [b]
  | two {b c : UInt8} (hb : lead b.toNat = some .two) (hc : tail c = true) :
    Spells (b.toNat % 32 * 64 + c.toNat % 64) [b, c]
  | three {b c d : UInt8} {lo hi : Nat} (hb : lead b.toNat = some (.three lo hi))
      (hc : (within lo hi c && tail d) = true) :
    Spells (b.toNat % 16 * 4096 + c.toNat % 64 * 64 + d.toNat % 64) [b, c, d]
  | four {b c d e : UInt8} {lo hi : Nat} (hb : lead b.toNat = some (.four lo hi))
      (hc : (within lo hi c && tail d && tail e) = true) :
    Spells (b.toNat % 8 * 262144 + c.toNat % 64 * 4096 + d.toNat % 64 * 64 + e.toNat % 64)
      [b, c, d, e]

theorem spells_of_next (h : next s = some (.rune r bs, t)) : Spells r bs := by
  cases s with
  | nil => simp [next] at h
  | cons b rest =>
    simp only [next] at h
    split at h
    · rename_i hb; cases h; exact .one hb
    split at h
    all_goals try split at h
    all_goals cases h
    all_goals rename_i hb hc
    · exact .two hb hc
    · exact .three hb hc
    · exact .four hb hc

theorem not_ascii {l : Lead} (h : lead n = some l) : ¬ n < 0x80 := by
  intro hn
  rw [lead, if_neg (by omega), if_neg (by omega), if_neg (by omega), if_neg (by omega),
    if_neg (by omega), if_neg (by omega), if_neg (by omega)] at h
  cases h

/-- A chunk that the scanner reads whatever text stands behind its bytes. -/
def Chunk.Reads (c : Chunk) : Prop := ∀ t, next (c.bytes ++ t) = some (c, t)

theorem Spells.reads (h : Spells r bs) : Chunk.Reads (.rune r bs) := by
  intro t
  cases h with
  | one hb => exact next_ascii hb t
  | two hb hc | three hb hc | four hb hc =>
    simp only [Chunk.bytes, List.cons_append, List.nil_append, next, if_neg (not_ascii hb), hb, hc,
      if_true]

theorem reads_of_next (h : next s = some (.rune r bs, t)) : Chunk.Reads (.rune r bs) :=
  (spells_of_next h).reads

/-! ## The chunks of a text -/

def chunksAux : Nat → Bytes → List Chunk
  | 0, _ => []
  | fuel + 1, s => match next s with
    | none => []
    | some (c, t) => c :: chunksAux fuel t

def chunks (s : Bytes) : List Chunk := chunksAux s.length s

theorem next_shorter (h : next s = some (c, t)) : t.length < s.length := by
  obtain ⟨hs, hc⟩ := next_bytes h
  have := List.length_pos_iff.mpr hc
  rw [hs, List.length_append]; omega

theorem chunksAux_fuel {f g : Nat} (hf : s.length ≤ f) (hg : s.length ≤ g) :
    chunksAux f s = chunksAux g s := by
  induction f generalizing g s with
  | zero =>
    obtain rfl : s = [] := List.length_eq_zero_iff.mp (by omega)
    cases g <;> simp [chunksAux, next]
  | succ f ih =>
    cases g with
    | zero =>
      obtain rfl : s = [] := List.length_eq_zero_iff.mp (by omega)
      simp [chunksAux, next]
    | succ g =>
      simp only [chunksAux]
      cases h : next s with
      | none => rfl
      | some p =>
        have := next_shorter h
        simp only [List.cons.injEq, true_and]
        exact ih (by omega) (by omega)

@[simp] theorem chunks_nil : chunks [] = [] := rfl

theorem chunks_of_next (h : next s = some (c, t)) : chunks s = c :: chunks t := by
  have hlt := next_shorter h
  obtain ⟨n, hn⟩ : ∃ n, s.length = n + 1 := ⟨s.length - 1, by omega⟩
  unfold chunks
  rw [hn]
  simp only [chunksAux, h, List.cons.injEq, true_and]
  exact chunksAux_fuel (by omega) le_rfl

/-- Induction over the chunks of a text. -/
theorem chunks_induction {P : Bytes → Prop} (nil : P [])
    (cons : ∀ s c t, next s = some (c, t) → P t → P s) (s : Bytes) : P s := by
  induction hn : s.length using Nat.strong_induction_on generalizing s with
  | _ n ih =>
    cases s with
    | nil => exact nil
    | cons b rest =>
      obtain ⟨c, t, h⟩ := next_some b rest
      exact cons _ _ _ h (ih _ (hn ▸ next_shorter h) t rfl)

theorem chunks_bytes (s : Bytes) : (chunks s).flatMap Chunk.bytes = s := by
  induction s using chunks_induction with
  | nil => rfl
  | cons s c t h ih => rw [chunks_of_next h, List.flatMap_cons, ih, ← (next_bytes h).1]

theorem next_of_mem_chunks (h : c ∈ chunks s) : ∃ s t, next s = some (c, t) := by
  induction s using chunks_induction with
  | nil => simp at h
  | cons s d t hd ih =>
    rw [chunks_of_next hd, List.mem_cons] at h
    rcases h with rfl | h
    · exact ⟨s, t, hd⟩
    · exact ih h

theorem reads_of_mem_chunks (h : c ∈ chunks s) (hr : c.isRune = true) : c.Reads := by
  obtain ⟨s, t, hnext⟩ := next_of_mem_chunks h
  cases c with
  | rune r bs => exact reads_of_next hnext
  | stray b => cases hr

/-! ## Valid text -/

def validString (s : Bytes) : Bool := (chunks s).all Chunk.isRune

theorem validString_append_of_reads (hc : c.Reads) (hr : c.isRune = true)
    (ht : validString t = true) : validString (c.bytes ++ t) = true := by
  simp only [validString, chunks_of_next (hc t), List.all_cons, hr, Bool.true_and]
  exact ht

/-! ## Encoding a rune -/

/-- The bytes of a rune; a surrogate, or a number past the last rune, becomes the
replacement character. -/
def encodeRune (r : Nat) : Bytes :=
  if r < 0x80 then [UInt8.ofNat r]
  else if r < 0x800 then [UInt8.ofNat (0xC0 + r / 64), UInt8.ofNat (0x80 + r % 64)]
  else if r < 0x10000 ∧ ¬ (0xD800 ≤ r ∧ r ≤ 0xDFFF) then
    [UInt8.ofNat (0xE0 + r / 4096), UInt8.ofNat (0x80 + r / 64 % 64), UInt8.ofNat (0x80 + r % 64)]
  else if 0x10000 ≤ r ∧ r ≤ 0x10FFFF then
    [UInt8.ofNat (0xF0 + r / 262144), UInt8.ofNat (0x80 + r / 4096 % 64),
      UInt8.ofNat (0x80 + r / 64 % 64), UInt8.ofNat (0x80 + r % 64)]
  else [0xEF, 0xBF, 0xBD]

theorem ofNat_eq (h : b.toNat = n) : UInt8.ofNat n = b := by
  subst h; simp

theorem lead_two (h : lead n = some .two) : 0xC2 ≤ n ∧ n ≤ 0xDF := by
  unfold lead at h
  split_ifs at h <;> simp_all

theorem lead_three {lo hi : Nat} (h : lead n = some (.three lo hi)) :
    (n = 0xE0 ∧ lo = 0xA0 ∧ hi = 0xBF) ∨ (n = 0xED ∧ lo = 0x80 ∧ hi = 0x9F) ∨
      (0xE1 ≤ n ∧ n ≤ 0xEF ∧ n ≠ 0xED ∧ lo = 0x80 ∧ hi = 0xBF) := by
  unfold lead at h
  split_ifs at h <;> simp_all

theorem lead_four {lo hi : Nat} (h : lead n = some (.four lo hi)) :
    (n = 0xF0 ∧ lo = 0x90 ∧ hi = 0xBF) ∨ (n = 0xF4 ∧ lo = 0x80 ∧ hi = 0x8F) ∨
      (0xF1 ≤ n ∧ n ≤ 0xF3 ∧ lo = 0x80 ∧ hi = 0xBF) := by
  unfold lead at h
  split_ifs at h <;> simp_all

/-- A rune that was read is encoded back to the bytes it was read from. -/
theorem encodeRune_of_next (h : next s = some (.rune r bs, t)) : encodeRune r = bs := by
  -- the ranges of the first two bytes fix which arm of the encoder is taken
  cases spells_of_next h with
  | one hb => simp [encodeRune, hb]
  | two hb hc =>
    have := lead_two hb
    simp only [tail, within, Bool.and_eq_true, decide_eq_true_eq] at hc
    rw [encodeRune, if_neg (by omega), if_pos (by omega)]
    simp only [List.cons.injEq, and_true]
    refine ⟨ofNat_eq ?_, ofNat_eq ?_⟩ <;> omega
  | three hb hc =>
    have := lead_three hb
    simp only [tail, within, Bool.and_eq_true, decide_eq_true_eq] at hc
    rw [encodeRune, if_neg (by omega), if_neg (by omega), if_pos (by omega)]
    simp only [List.cons.injEq, and_true]
    refine ⟨ofNat_eq ?_, ofNat_eq ?_, ofNat_eq ?_⟩ <;> omega
  | four hb hc =>
    have := lead_four hb
    simp only [tail, within, Bool.and_eq_true, decide_eq_true_eq] at hc
    rw [encodeRune, if_neg (by omega), if_neg (by omega), if_neg (by omega), if_pos (by omega)]
    simp only [List.cons.injEq, and_true]
    refine ⟨ofNat_eq ?_, ofNat_eq ?_, ofNat_eq ?_, ofNat_eq ?_⟩ <;> omega

end Loomcycle.Lib.Utf8
