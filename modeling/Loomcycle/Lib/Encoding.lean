import Mathlib.Tactic

/-! Byte encodings that can be read back: base-128 lengths, length-prefixed
fields, decimal integers and hexadecimal digests. Each is injective, the first
two also with arbitrary text behind them, so that a concatenation of fields
determines every field. -/

namespace Loomcycle.Lib.Encoding

abbrev Bytes := List UInt8

/-- The bytes of an ASCII literal. -/
def ascii (s : String) : Bytes := s.toList.map fun c => UInt8.ofNat c.toNat

/-! ## Base-128 lengths -/

/-- Little-endian groups of seven bits, the high bit set on all but the last.
The fuel is the number itself, which the quotient stays below. -/
def uvarintAux : Nat → Nat → Bytes
  | 0, x => [UInt8.ofNat x]
  | fuel + 1, x =>
    if x < 128 then [UInt8.ofNat x]
    else UInt8.ofNat (x % 128 + 128) :: uvarintAux fuel (x / 128)

def uvarint (x : Nat) : Bytes := uvarintAux x x

variable {s t : Bytes} {n : Nat} {c : Char}

/-- Reads the groups back, up to the first without the high bit. -/
def readUvarint : Bytes → Nat × Bytes
  | [] => (0, [])
  | b :: s =>
    if b.toNat < 128 then (b.toNat, s)
    else (b.toNat - 128 + 128 * (readUvarint s).1, (readUvarint s).2)

theorem readUvarint_uvarintAux {fuel x : Nat} (hx : x ≤ fuel) (s : Bytes) :
    readUvarint (uvarintAux fuel x ++ s) = (x, s) := by
  have hbyte : ∀ n, n < 256 → (UInt8.ofNat n).toNat = n := fun n hn => by
    simp only [UInt8.toNat_ofNat']
    omega
  induction fuel generalizing x with
  | zero =>
    obtain rfl : x = 0 := by omega
    rfl
  | succ fuel ih =>
    rw [uvarintAux]
    split
    · next hlt =>
      rw [List.singleton_append, readUvarint, hbyte x (by omega), if_pos hlt]
    · rw [List.cons_append, readUvarint, hbyte _ (by omega), if_neg (by omega), ih (by omega)]
      congr 1
      omega

theorem uvarint_append_inj {x y : Nat} (h : uvarint x ++ s = uvarint y ++ t) : x = y ∧ s = t := by
  have hread := congrArg readUvarint h
  rwa [uvarint, uvarint, readUvarint_uvarintAux (Nat.le_refl x),
    readUvarint_uvarintAux (Nat.le_refl y), Prod.mk.injEq] at hread

theorem uvarint_ne_nil (x : Nat) : uvarint x ≠ [] := by
  cases x with
  | zero => simp [uvarint, uvarintAux]
  | succ x => simp only [uvarint, uvarintAux]; split <;> simp

/-! ## Length-prefixed fields -/

def lpField (f : Bytes) : Bytes := uvarint f.length ++ f

/-- The concatenation of the fields, each behind its length. -/
def lp (fields : List Bytes) : Bytes := fields.flatMap lpField

theorem lpField_append_inj {f g : Bytes} (h : lpField f ++ s = lpField g ++ t) : f = g ∧ s = t := by
  simp only [lpField, List.append_assoc] at h
  obtain ⟨hlen, hrest⟩ := uvarint_append_inj h
  exact List.append_inj hrest hlen

theorem lp_injective {fs gs : List Bytes} (h : lp fs = lp gs) : fs = gs := by
  induction fs generalizing gs with
  | nil =>
    cases gs with
    | nil => rfl
    | cons g gs => simp [lp, lpField, uvarint_ne_nil] at h
  | cons f fs ih =>
    cases gs with
    | nil => simp [lp, lpField, uvarint_ne_nil] at h
    | cons g gs =>
      obtain ⟨hf, hr⟩ := lpField_append_inj (by simpa only [lp, List.flatMap_cons] using h)
      rw [hf, ih hr]

/-! ## Decimal integers -/

def digitByte (c : Char) : UInt8 := UInt8.ofNat c.toNat

def formatNat (n : Nat) : Bytes := (Nat.toDigits 10 n).map digitByte

/-- Base-10 text of a signed integer. -/
def formatInt : Int → Bytes
  | .ofNat n => formatNat n
  | .negSucc n => 45 :: formatNat (n + 1)

theorem isDigit_toDigits (h : c ∈ Nat.toDigits 10 n) : c.isDigit = true :=
  Nat.isDigit_of_mem_toDigits (by omega) (by omega) h

theorem digit_range (h : c.isDigit = true) : 48 ≤ c.toNat ∧ c.toNat ≤ 57 := by
  simp only [Char.isDigit, Bool.and_eq_true, decide_eq_true_eq] at h
  exact ⟨UInt32.le_iff_toNat_le.mp h.1, UInt32.le_iff_toNat_le.mp h.2⟩

theorem toNat_digitByte (h : c.isDigit = true) : (digitByte c).toNat = c.toNat := by
  have hrange := digit_range h
  simp only [digitByte, UInt8.toNat_ofNat']
  omega

/-! ## Hexadecimal -/

def hexDigit (n : Nat) : UInt8 := if n < 10 then UInt8.ofNat (48 + n) else UInt8.ofNat (87 + n)

/-- Lower-case hexadecimal text, two digits a byte. -/
def hexEncode (bs : Bytes) : Bytes :=
  bs.flatMap fun b => [hexDigit (b.toNat / 16), hexDigit (b.toNat % 16)]

def isHexDigit (b : UInt8) : Bool :=
  (48 ≤ b.toNat && b.toNat ≤ 57) || (97 ≤ b.toNat && b.toNat ≤ 102)

theorem isHexDigit_hexDigit (h : n < 16) : isHexDigit (hexDigit n) = true := by
  simp only [hexDigit, isHexDigit]
  split <;> simp only [UInt8.toNat_ofNat', Bool.or_eq_true, Bool.and_eq_true, decide_eq_true_eq] <;>
    omega

theorem hexDigit_inj {m : Nat} (hm : m < 16) (hn : n < 16) (h : hexDigit m = hexDigit n) :
    m = n := by
  have h' := congrArg UInt8.toNat h
  simp only [hexDigit] at h'
  split at h' <;> split at h' <;> simp only [UInt8.toNat_ofNat'] at h' <;> omega

theorem hexEncode_injective (h : hexEncode s = hexEncode t) : s = t := by
  induction s generalizing t with
  | nil => cases t <;> simp_all [hexEncode]
  | cons b s ih =>
    cases t with
    | nil => simp [hexEncode] at h
    | cons c t =>
      simp only [hexEncode, List.flatMap_cons, List.cons_append, List.nil_append,
        List.cons.injEq] at h
      have hb := UInt8.toNat_lt b
      have hc := UInt8.toNat_lt c
      have hhi := hexDigit_inj (by omega) (by omega) h.1
      have hlo := hexDigit_inj (by omega) (by omega) h.2.1
      rw [UInt8.toNat_inj.mp (by omega : b.toNat = c.toNat), ih h.2.2]

/-- Only hexadecimal digits; the empty text is one. -/
def IsHex (s : Bytes) : Prop := ∀ b ∈ s, isHexDigit b = true

theorem isHex_hexEncode (s : Bytes) : IsHex (hexEncode s) := by
  intro b hb
  obtain ⟨c, _, hc⟩ := List.mem_flatMap.mp hb
  have := UInt8.toNat_lt c
  simp only [List.mem_cons, List.not_mem_nil, or_false] at hc
  rcases hc with rfl | rfl <;> exact isHexDigit_hexDigit (by omega)

/-- Hexadecimal text before a byte that is not a hexadecimal digit is determined
by the concatenation. -/
theorem isHex_append_inj {u v : Bytes} {b c : UInt8} (hs : IsHex s) (ht : IsHex t)
    (hb : isHexDigit b = false) (hc : isHexDigit c = false) (h : s ++ b :: u = t ++ c :: v) :
    s = t ∧ b :: u = c :: v := by
  have hread : ∀ {s b u}, IsHex s → isHexDigit b = false →
      (s ++ b :: u).takeWhile isHexDigit = s := by
    intro s b u hs hb
    rw [List.takeWhile_append_of_pos hs, List.takeWhile_cons_of_neg (by simp [hb]),
      List.append_nil]
  obtain rfl : s = t := by rw [← hread (u := u) hs hb, h, hread ht hc]
  exact ⟨rfl, List.append_cancel_left h⟩

end Loomcycle.Lib.Encoding
