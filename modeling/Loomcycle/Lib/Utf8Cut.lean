import Loomcycle.Lib.Utf8

/-! Valid text can be cut where a rune begins and joined anywhere valid: a rune's first byte is
never a continuation byte and its other bytes all are, so a valid text inside another one leaves
valid text on both sides. -/

namespace Loomcycle.Lib.Utf8
open Lib.Encoding

variable {a s t w : Bytes}

theorem validString_of_next {c : Chunk} (h : next s = some (c, t)) :
    validString s = (c.isRune && validString t) := by
  rw [validString, chunks_of_next h, List.all_cons, validString]

/-- Behind valid text, a text is as valid as it is alone. -/
theorem validString_append_left (hs : validString s = true) :
    validString (s ++ t) = validString t := by
  induction s using chunks_induction with
  | nil => rfl
  | cons s c s' h ih =>
    rw [validString_of_next h, Bool.and_eq_true] at hs
    obtain ⟨hrune, hs'⟩ := hs
    cases c with
    | stray b => cases hrune
    | rune r bs =>
      rw [(next_bytes h).1, List.append_assoc, validString_of_next (reads_of_next h (s' ++ t)),
        ih hs', Chunk.isRune, Bool.true_and]

theorem validString_append (hs : validString s = true) (ht : validString t = true) :
    validString (s ++ t) = true :=
  (validString_append_left hs).trans ht

variable {r hi lo : Nat} {b c : UInt8}

/-- Only the first byte of a rune is not a continuation byte. -/
theorem rune_bytes {bs : Bytes} (h : next s = some (.rune r bs, t)) :
    ∃ b rest, bs = b :: rest ∧ tail b = false ∧ ∀ c ∈ rest, tail c = true := by
  have hrest : ∀ {c : UInt8}, 0x80 ≤ c.toNat ∧ c.toNat ≤ 0xBF → tail c = true := by
    intro c hc
    rwa [tail, within, Bool.and_eq_true, decide_eq_true_eq, decide_eq_true_eq]
  have hhead : ∀ {b : UInt8}, b.toNat < 0x80 ∨ 0xC2 ≤ b.toNat → tail b = false := by
    intro b hb
    rw [tail, within, Bool.and_eq_false_iff, decide_eq_false_iff_not, decide_eq_false_iff_not]
    omega
  cases spells_of_next h with
  | one hb => exact ⟨_, [], rfl, hhead (.inl hb), List.forall_mem_nil _⟩
  | two hb hc =>
    have hlead := lead_two hb
    exact ⟨_, _, rfl, hhead (by omega), List.forall_mem_cons.mpr ⟨hc, List.forall_mem_nil _⟩⟩
  | three hb hc =>
    have hlead := lead_three hb
    simp only [tail, within, Bool.and_eq_true, decide_eq_true_eq] at hc
    refine ⟨_, _, rfl, hhead (by omega), List.forall_mem_cons.mpr ⟨hrest (by omega), ?_⟩⟩
    exact List.forall_mem_cons.mpr ⟨hrest (by omega), List.forall_mem_nil _⟩
  | four hb hc =>
    have hlead := lead_four hb
    simp only [tail, within, Bool.and_eq_true, decide_eq_true_eq] at hc
    refine ⟨_, _, rfl, hhead (by omega), List.forall_mem_cons.mpr ⟨hrest (by omega), ?_⟩⟩
    refine List.forall_mem_cons.mpr ⟨hrest (by omega), ?_⟩
    exact List.forall_mem_cons.mpr ⟨hrest (by omega), List.forall_mem_nil _⟩

/-- An ASCII byte is in the bytes of no other rune. -/
theorem rune_of_mem_ascii {bs : Bytes} (h : Chunk.Reads (.rune r bs)) (hb : b ∈ bs)
    (hlt : b.toNat < 0x80) : r = b.toNat := by
  have hnext := h []
  obtain ⟨x, rest, rfl, -, hrest⟩ := rune_bytes hnext
  rcases List.mem_cons.mp hb with rfl | hb
  · rw [Chunk.bytes, List.cons_append, next_ascii hlt] at hnext
    cases hnext
    rfl
  · have htail := hrest b hb
    simp only [tail, within, Bool.and_eq_true, decide_eq_true_eq] at htail
    omega

/-- A chunk that ends inside a text is read whether or not more text follows. -/
theorem next_of_next_append {x : UInt8} {c : Chunk}
    (h : next (x :: a ++ s) = some (c, t ++ s)) : next (x :: a) = some (c, t) := by
  have hbytes : x :: a = c.bytes ++ t := by
    have heq := (next_bytes h).1
    rw [← List.append_assoc] at heq
    exact List.append_cancel_right heq
  cases c with
  | rune r bs =>
    rw [hbytes]
    exact reads_of_next h t
  | stray y =>
    obtain ⟨d, t', hd⟩ := next_some x a
    have hd' := (next_bytes hd).1
    cases d with
    | rune r bs =>
      -- a rune would have been read in the longer text too
      rw [hd', List.append_assoc, reads_of_next hd] at h
      cases h
    | stray z =>
      obtain ⟨rfl, rfl⟩ := List.cons.inj hbytes
      obtain ⟨rfl, rfl⟩ := List.cons.inj hd'
      exact hd

/-- A text cut where no continuation byte stands: nothing is read across the cut. -/
theorem chunks_append {rest : Bytes} (hb : tail b = false) (a : Bytes) :
    chunks (a ++ b :: rest) = chunks a ++ chunks (b :: rest) := by
  induction hn : a.length using Nat.strong_induction_on generalizing a with
  | _ n ih =>
    cases a with
    | nil => rfl
    | cons x a =>
      obtain ⟨c, t, hnext⟩ := next_some x (a ++ b :: rest)
      have hfits : ∃ d, t = d ++ b :: rest := by
        obtain ⟨hbytes, -⟩ := next_bytes hnext
        cases c with
        | stray y =>
          obtain ⟨-, rfl⟩ := List.cons.inj hbytes
          exact ⟨a, rfl⟩
        | rune r bs =>
          obtain ⟨y, ys, rfl, -, htail⟩ := rune_bytes hnext
          obtain ⟨-, hrest⟩ := List.cons.inj hbytes
          obtain ⟨a', hys, hcut⟩ | ⟨d, -, ht⟩ := List.append_eq_append_iff.mp hrest
          · cases a' with
            | nil => exact ⟨[], hcut.symm⟩
            | cons z a' =>
              -- the rune would run on over the cut
              obtain ⟨rfl, -⟩ := List.cons.inj hcut
              have hz := htail b (hys ▸ List.mem_append_right a List.mem_cons_self)
              rw [hb] at hz
              cases hz
          · exact ⟨d, ht⟩
      obtain ⟨d, rfl⟩ := hfits
      have hfirst := next_of_next_append hnext
      have hd := next_shorter hfirst
      rw [List.cons_append, chunks_of_next hnext, chunks_of_next hfirst,
        ih _ (hn ▸ hd) d rfl, List.cons_append]

theorem validString_of_spells {bs : Bytes} (h : Spells r bs) : validString bs = true := by
  have hvalid := validString_append_of_reads h.reads rfl (t := []) rfl
  rwa [List.append_nil] at hvalid

theorem within_ofNat {n : Nat} (h : n < 64) (hlo : lo ≤ 0x80 + n) (hhi : 0x80 + n ≤ hi) :
    within lo hi (UInt8.ofNat (0x80 + n)) = true := by
  simp only [within, UInt8.toNat_ofNat', Bool.and_eq_true, decide_eq_true_eq]
  omega

theorem tail_ofNat (n : Nat) : tail (UInt8.ofNat (0x80 + n % 64)) = true :=
  within_ofNat (Nat.mod_lt n (by omega)) (by omega) (by omega)

theorem lead_of_three (h : 0x800 ≤ r) (hr : r < 0x10000) (hs : ¬ (0xD800 ≤ r ∧ r ≤ 0xDFFF)) :
    ∃ lo hi, lead (0xE0 + r / 4096) = some (.three lo hi) ∧
      within lo hi (UInt8.ofNat (0x80 + r / 64 % 64)) = true := by
  by_cases h0 : r / 4096 = 0
  · refine ⟨0xA0, 0xBF, by rw [h0]; rfl, within_ofNat ?_ ?_ ?_⟩ <;> omega
  · by_cases h13 : r / 4096 = 13
    · refine ⟨0x80, 0x9F, by rw [h13]; rfl, within_ofNat ?_ ?_ ?_⟩ <;> omega
    · refine ⟨0x80, 0xBF, ?_, within_ofNat ?_ ?_ ?_⟩
      · rw [lead, if_neg (by omega), if_neg (by omega), if_neg (by omega), if_pos (by omega)]
      all_goals omega

theorem lead_of_four (h : 0x10000 ≤ r) (hr : r ≤ 0x10FFFF) :
    ∃ lo hi, lead (0xF0 + r / 262144) = some (.four lo hi) ∧
      within lo hi (UInt8.ofNat (0x80 + r / 4096 % 64)) = true := by
  by_cases h0 : r / 262144 = 0
  · refine ⟨0x90, 0xBF, by rw [h0]; rfl, within_ofNat ?_ ?_ ?_⟩ <;> omega
  · by_cases h4 : r / 262144 = 4
    · refine ⟨0x80, 0x8F, by rw [h4]; rfl, within_ofNat ?_ ?_ ?_⟩ <;> omega
    · refine ⟨0x80, 0xBF, ?_, within_ofNat ?_ ?_ ?_⟩
      · rw [lead, if_neg (by omega), if_neg (by omega), if_neg (by omega), if_neg (by omega),
          if_neg (by omega), if_neg (by omega), if_pos (by omega)]
      all_goals omega

/-- Whatever number is encoded, the result is valid. -/
theorem validString_encodeRune (r : Nat) : validString (encodeRune r) = true := by
  have hnat : ∀ {n}, n < 256 → (UInt8.ofNat n).toNat = n := by
    intro n hn
    rw [UInt8.toNat_ofNat']
    omega
  unfold encodeRune
  split
  · exact validString_of_spells (.one (by rw [hnat] <;> omega))
  split
  · have hlead : lead (UInt8.ofNat (0xC0 + r / 64)).toNat = some .two := by
      rw [hnat (by omega)]
      exact if_pos (by omega)
    exact validString_of_spells (.two hlead (tail_ofNat r))
  split
  · rename_i hr
    obtain ⟨lo, hi, hlead, hwithin⟩ := lead_of_three (by omega) hr.1 hr.2
    rw [← hnat (n := 0xE0 + r / 4096) (by omega)] at hlead
    exact validString_of_spells (.three hlead (by rw [hwithin, tail_ofNat]; rfl))
  split
  · rename_i hr
    obtain ⟨lo, hi, hlead, hwithin⟩ := lead_of_four hr.1 hr.2
    rw [← hnat (n := 0xF0 + r / 262144) (by omega)] at hlead
    exact validString_of_spells (.four hlead (by rw [hwithin, tail_ofNat, tail_ofNat]; rfl))
  · rfl

/-! ## Text made valid -/

def Chunk.repaired : Chunk → Bytes
  | .rune _ bs => bs
  | .stray _ => encodeRune 0xFFFD

/-- A text with the replacement character in place of each stray byte. -/
def repair (s : Bytes) : Bytes := (chunks s).flatMap Chunk.repaired

theorem validString_repair (s : Bytes) : validString (repair s) = true := by
  unfold repair
  induction s using chunks_induction with
  | nil => rfl
  | cons s c t h ih =>
    rw [chunks_of_next h, List.flatMap_cons]
    refine validString_append ?_ ih
    cases c with
    | rune r bs => exact validString_of_spells (spells_of_next h)
    | stray b => exact validString_encodeRune _

theorem repair_eq_self (h : validString s = true) : repair s = s := by
  have hrunes : ∀ c ∈ chunks s, c.repaired = c.bytes := by
    intro c hc
    cases c with
    | rune r bs => rfl
    | stray b => cases List.all_eq_true.mp h _ hc
  calc repair s = (chunks s).flatMap Chunk.bytes := List.flatMap_congr hrunes
    _ = s := chunks_bytes s

end Loomcycle.Lib.Utf8
