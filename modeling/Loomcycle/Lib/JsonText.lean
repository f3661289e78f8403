import Mathlib.Data.List.TakeWhile
import Loomcycle.Lib.Utf8

/-! JSON text over bytes: how a string is quoted and read back, and a reader for
whole values. Quoting escapes what HTML would read (`<`, `>`, `&`, U+2028 and
U+2029) and writes a stray byte as the replacement character; reading a string
replaces stray bytes and lone surrogates the same way. A valid string read back
from its quotation is the string. -/

namespace Loomcycle.Lib.JsonText
open Lib.Encoding Lib.Utf8

inductive Json
  | null
  | bool (b : Bool)
  | num (text : Bytes)
  | str (s : Bytes)
  | arr (items : List Json)
  | obj (members : List (Bytes × Json))

/-! ## Strings -/

/-- `\uXXXX`. -/
def escapeU (r : Nat) : Bytes :=
  [92, 117, hexDigit (r / 4096 % 16), hexDigit (r / 256 % 16), hexDigit (r / 16 % 16),
    hexDigit (r % 16)]

def quoteRune (r : Nat) (bs : Bytes) : Bytes :=
  if r = 34 then [92, 34]
  else if r = 92 then [92, 92]
  else if r = 8 then [92, 98]
  else if r = 12 then [92, 102]
  else if r = 10 then [92, 110]
  else if r = 13 then [92, 114]
  else if r = 9 then [92, 116]
  else if r < 32 ∨ r = 60 ∨ r = 62 ∨ r = 38 ∨ r = 0x2028 ∨ r = 0x2029 then escapeU r
  else bs

def quoteChunk : Chunk → Bytes
  | .rune r bs => quoteRune r bs
  | .stray _ => escapeU 0xFFFD

def quote (s : Bytes) : Bytes := 34 :: (chunks s).flatMap quoteChunk ++ [34]

def hexVal (b : UInt8) : Option Nat :=
  let n := b.toNat
  if 48 ≤ n ∧ n ≤ 57 then some (n - 48)
  else if 97 ≤ n ∧ n ≤ 102 then some (n - 87)
  else if 65 ≤ n ∧ n ≤ 70 then some (n - 55)
  else none

/-- Four hexadecimal digits. -/
def getU4 : Bytes → Option (Nat × Bytes)
  | a :: b :: c :: d :: t => do
    let a ← hexVal a
    let b ← hexVal b
    let c ← hexVal c
    let d ← hexVal d
    return (a * 4096 + b * 256 + c * 16 + d, t)
  | _ => none

def isSurrogate (r : Nat) : Bool := 0xD800 ≤ r && r ≤ 0xDFFF

/-- What an escape stands for, read after its backslash. A high surrogate takes
the low one escaped right behind it; alone, either is the replacement character. -/
def readEscape : Bytes → Option (Bytes × Bytes)
  | [] => none
  | b :: t =>
    if b = 34 ∨ b = 92 ∨ b = 47 then some ([b], t)
    else if b = 98 then some ([8], t)
    else if b = 102 then some ([12], t)
    else if b = 110 then some ([10], t)
    else if b = 114 then some ([13], t)
    else if b = 116 then some ([9], t)
    else if b = 117 then do
      let (r, t) ← getU4 t
      if isSurrogate r then
        match t with
        | 92 :: 117 :: u => match getU4 u with
          | some (r', u') =>
            if r < 0xDC00 ∧ 0xDC00 ≤ r' ∧ r' ≤ 0xDFFF then
              return (encodeRune ((r - 0xD800) * 1024 + (r' - 0xDC00) + 0x10000), u')
            else return (encodeRune 0xFFFD, t)
          | none => return (encodeRune 0xFFFD, t)
        | _ => return (encodeRune 0xFFFD, t)
      else return (encodeRune r, t)
    else none

/-- The rest of a string literal, after its opening quote: its text and what
follows the closing quote. -/
def readString : Nat → Bytes → Option (Bytes × Bytes)
  | 0, _ => none
  | fuel + 1, s => match next s with
    | none => none
    | some (.stray _, t) => do
      let (rest, u) ← readString fuel t
      return (encodeRune 0xFFFD ++ rest, u)
    | some (.rune r bs, t) =>
      if r = 34 then some ([], t)
      else if r = 92 then do
        let (e, u) ← readEscape t
        let (rest, v) ← readString fuel u
        return (e ++ rest, v)
      else if r < 32 then none
      else do
        let (rest, u) ← readString fuel t
        return (bs ++ rest, u)

theorem hexVal_hexDigit {n : Nat} (h : n < 16) : hexVal (hexDigit n) = some n := by
  simp only [hexVal, hexDigit]
  split <;> simp only [UInt8.toNat_ofNat']
  · rw [if_pos (by omega)]; congr 1; omega
  · rw [if_neg (by omega), if_pos (by omega)]; congr 1; omega

variable {r : Nat} {t bs s : Bytes} {l : List Chunk} {b : UInt8}

theorem readEscape_escapeU (hr : r < 0x10000) (hs : isSurrogate r = false) (t : Bytes) :
    readEscape ((escapeU r).tail ++ t) = some (encodeRune r, t) := by
  simp only [escapeU, List.tail_cons, List.cons_append, List.nil_append, readEscape, getU4]
  rw [hexVal_hexDigit (by omega), hexVal_hexDigit (by omega), hexVal_hexDigit (by omega),
    hexVal_hexDigit (by omega)]
  have hval : r / 4096 % 16 * 4096 + r / 256 % 16 * 256 + r / 16 % 16 * 16 + r % 16 = r := by omega
  simp [hval, hs]

theorem readString_copied (h : Chunk.Reads (.rune r bs)) (hq : r ≠ 34) (hb : r ≠ 92) (hc : ¬ r < 32)
    (fuel : Nat) :
    readString (fuel + 1) (bs ++ t) = (readString fuel t).map fun p => (bs ++ p.1, p.2) := by
  have hn : next (bs ++ t) = some (.rune r bs, t) := h t
  simp only [readString, hn, hq, hb, hc, if_false]
  cases readString fuel t <;> rfl

theorem readString_escaped {e : Bytes} (h : readEscape (e ++ t) = some (s, t)) (fuel : Nat) :
    readString (fuel + 1) (92 :: e ++ t) = (readString fuel t).map fun p => (s ++ p.1, p.2) := by
  have hn : next (92 :: (e ++ t)) = some (.rune 92 [92], e ++ t) := next_ascii (by decide) _
  simp only [List.cons_append, readString, hn, if_true, if_neg (by decide : ¬ (92 : Nat) = 34), h,
    Option.bind_eq_bind, Option.bind_some]
  cases readString fuel t <;> rfl

/-- One quoted rune is read back as its bytes. -/
theorem readString_quoteRune (h : Chunk.Reads (.rune r bs)) (t : Bytes) (fuel : Nat) :
    readString (fuel + 1) (quoteRune r bs ++ t) =
      (readString fuel t).map fun p => (bs ++ p.1, p.2) := by
  have hbs := encodeRune_of_next (h [])
  have hshort : ∀ e : UInt8, ∀ b : UInt8, readEscape (e :: t) = some ([b], t) →
      encodeRune r = [b] → readString (fuel + 1) ([92, e] ++ t) =
        (readString fuel t).map fun p => (bs ++ p.1, p.2) := by
    intro e b he hr
    rw [← hbs, hr]
    exact readString_escaped (e := [e]) he fuel
  unfold quoteRune
  split_ifs with h1 h2 h3 h4 h5 h6 h7 h8
  · exact hshort 34 34 rfl (by subst h1; rfl)
  · exact hshort 92 92 rfl (by subst h2; rfl)
  · exact hshort 98 8 rfl (by subst h3; rfl)
  · exact hshort 102 12 rfl (by subst h4; rfl)
  · exact hshort 110 10 rfl (by subst h5; rfl)
  · exact hshort 114 13 rfl (by subst h6; rfl)
  · exact hshort 116 9 rfl (by subst h7; rfl)
  · have hu := readEscape_escapeU (r := r) (by omega)
      (by simp only [isSurrogate, Bool.and_eq_false_iff, decide_eq_false_iff_not]; omega) t
    rw [hbs] at hu
    exact readString_escaped hu fuel
  · exact readString_copied h h1 h2 (by omega) fuel

theorem readString_flatMap (h : ∀ c ∈ l, c.Reads ∧ c.isRune = true) (t : Bytes) {fuel : Nat}
    (hf : l.length < fuel) :
    readString fuel (l.flatMap quoteChunk ++ 34 :: t) = some (l.flatMap Chunk.bytes, t) := by
  induction l generalizing fuel with
  | nil =>
    obtain ⟨n, rfl⟩ : ∃ n, fuel = n + 1 := ⟨fuel - 1, by omega⟩
    have hn : next (34 :: t) = some (.rune 34 [34], t) := next_ascii (by decide) _
    simp [readString, hn]
  | cons c l ih =>
    obtain ⟨n, rfl⟩ : ∃ n, fuel = n + 1 := ⟨fuel - 1, by omega⟩
    obtain ⟨hc, hr⟩ := h c List.mem_cons_self
    cases c with
    | stray b => cases hr
    | rune r bs =>
      simp only [List.flatMap_cons, quoteChunk, List.append_assoc, Chunk.bytes]
      rw [readString_quoteRune hc, ih (fun d hd => h d (List.mem_cons_of_mem _ hd))
        (by simp at hf; omega)]
      rfl

/-- The quotation of a valid string reads back as the string. -/
theorem readString_quote (hs : validString s = true) (t : Bytes) {fuel : Nat}
    (hf : (chunks s).length < fuel) :
    readString fuel ((chunks s).flatMap quoteChunk ++ 34 :: t) = some (s, t) := by
  have hall : ∀ c ∈ chunks s, c.Reads ∧ c.isRune = true := by
    intro c hc
    have hr := List.all_eq_true.mp hs c hc
    exact ⟨reads_of_mem_chunks hc hr, hr⟩
  rw [readString_flatMap hall t hf, chunks_bytes]

/-! ## Numbers -/

def isDigitByte (b : UInt8) : Bool := 48 ≤ b.toNat && b.toNat ≤ 57

/-- A byte that can stand in a number: a digit, a sign, a point or an exponent. -/
def isNumByte (b : UInt8) : Bool :=
  isDigitByte b || b == 43 || b == 45 || b == 46 || b == 69 || b == 101

/-- What may follow a number's integer part: a fraction, then an exponent. -/
def validExp : Bytes → Bool
  | [] => true
  | b :: t =>
    if b = 69 ∨ b = 101 then
      let ds := match t with
        | c :: u => if c = 43 ∨ c = 45 then u else t
        | [] => []
      ds != [] && ds.all isDigitByte
    else false

def validFrac : Bytes → Bool
  | 46 :: t => t.head?.any isDigitByte && validExp (t.dropWhile isDigitByte)
  | t => validExp t

def stripMinus : Bytes → Bytes
  | [] => []
  | b :: t => if b = 45 then t else b :: t

def validUnsigned : Bytes → Bool
  | [] => false
  | b :: t =>
    if b = 48 then validFrac t
    else isDigitByte b && validFrac (t.dropWhile isDigitByte)

def validNumber (text : Bytes) : Bool := validUnsigned (stripMinus text)

/-- The longest run of number bytes, if it is a number. -/
def readNumber (s : Bytes) : Option (Json × Bytes) :=
  let text := s.takeWhile isNumByte
  if validNumber text then some (.num text, s.dropWhile isNumByte) else none

/-! ## Values -/

def isBlank (b : UInt8) : Bool := b == 32 || b == 9 || b == 10 || b == 13

def skipBlanks (s : Bytes) : Bytes := s.dropWhile isBlank

/-- A literal name, if the text starts with it. -/
def readName (name : Bytes) (v : Json) (s : Bytes) : Option (Json × Bytes) :=
  if name.isPrefixOf s then some (v, s.drop name.length) else none

mutual
def readValue : Nat → Bytes → Option (Json × Bytes)
  | 0, _ => none
  | fuel + 1, s => match skipBlanks s with
    | [] => none
    | b :: t =>
      if b = 123 then match skipBlanks t with
        | 125 :: u => some (.obj [], u)
        | u => (readMembers fuel u).map fun p => (.obj p.1, p.2)
      else if b = 91 then match skipBlanks t with
        | 93 :: u => some (.arr [], u)
        | u => (readItems fuel u).map fun p => (.arr p.1, p.2)
      else if b = 34 then (readString (t.length + 1) t).map fun p => (.str p.1, p.2)
      else if b = 116 then readName [116, 114, 117, 101] (.bool true) (b :: t)
      else if b = 102 then readName [102, 97, 108, 115, 101] (.bool false) (b :: t)
      else if b = 110 then readName [110, 117, 108, 108] .null (b :: t)
      else readNumber (b :: t)

/-- The members of an object up to its closing brace, at least one. -/
def readMembers : Nat → Bytes → Option (List (Bytes × Json) × Bytes)
  | 0, _ => none
  | fuel + 1, s => match skipBlanks s with
    | 34 :: t => match readString (t.length + 1) t with
      | none => none
      | some (k, u) => match skipBlanks u with
        | 58 :: v => match readValue fuel v with
          | none => none
          | some (x, w) => match skipBlanks w with
            | 44 :: z => (readMembers fuel z).map fun p => ((k, x) :: p.1, p.2)
            | 125 :: z => some ([(k, x)], z)
            | _ => none
        | _ => none
    | _ => none

/-- The items of an array up to its closing bracket, at least one. -/
def readItems : Nat → Bytes → Option (List Json × Bytes)
  | 0, _ => none
  | fuel + 1, s => match readValue fuel s with
    | none => none
    | some (x, w) => match skipBlanks w with
      | 44 :: z => (readItems fuel z).map fun p => (x :: p.1, p.2)
      | 93 :: z => some ([x], z)
      | _ => none
end

/-- A text that is one value and blanks around it. -/
def parse (s : Bytes) : Option Json :=
  match readValue (s.length + 1) s with
  | some (v, t) => if skipBlanks t = [] then some v else none
  | none => none

/-! ## Writing -/

mutual
/-- The compact text of a value. -/
def render : Json → Bytes
  | .null => [110, 117, 108, 108]
  | .bool true => [116, 114, 117, 101]
  | .bool false => [102, 97, 108, 115, 101]
  | .num text => text
  | .str s => quote s
  | .arr [] => [91, 93]
  | .arr (x :: xs) => 91 :: (render x ++ renderItems xs)
  | .obj [] => [123, 125]
  | .obj ((k, x) :: ms) => 123 :: (quote k ++ 58 :: (render x ++ renderMembers ms))

/-- The items after the first, and the closing bracket. -/
def renderItems : List Json → Bytes
  | [] => [93]
  | x :: xs => 44 :: (render x ++ renderItems xs)

/-- The members after the first, and the closing brace. -/
def renderMembers : List (Bytes × Json) → Bytes
  | [] => [125]
  | (k, x) :: ms => 44 :: (quote k ++ 58 :: (render x ++ renderMembers ms))
end

/-- The text of a value as an encoder copies it: no blanks between its signs, and in its strings
what HTML would read escaped. `quoted` says that a string is being copied. -/
def compact : Bool → Bytes → Bytes
  | _, [] => []
  | false, b :: t => if isBlank b then compact false t else b :: compact (b == 34) t
  | true, 92 :: b :: t => 92 :: b :: compact true t
  | true, 0xE2 :: 0x80 :: 0xA8 :: t => escapeU 0x2028 ++ compact true t
  | true, 0xE2 :: 0x80 :: 0xA9 :: t => escapeU 0x2029 ++ compact true t
  | true, b :: t =>
    if b = 60 ∨ b = 62 ∨ b = 38 then escapeU b.toNat ++ compact true t
    else b :: compact (b != 34) t

mutual
/-- Strings are valid text and numbers are numbers. -/
def Json.Wf : Json → Prop
  | .null => True
  | .bool _ => True
  | .num text => validNumber text = true ∧ text.all isNumByte = true
  | .str s => validString s = true
  | .arr xs => WfItems xs
  | .obj ms => WfMembers ms

def WfItems : List Json → Prop
  | [] => True
  | x :: xs => x.Wf ∧ WfItems xs

def WfMembers : List (Bytes × Json) → Prop
  | [] => True
  | (k, x) :: ms => validString k = true ∧ x.Wf ∧ WfMembers ms
end

/-! ## Copying -/

/-- In a string, what is written without an escape stood there. -/
theorem of_compact_cons {u : Bytes} (h : compact true t = b :: u) (hb : b ≠ 92) :
    ∃ t', t = b :: t' ∧ u = compact (b != 34) t' := by
  have hescape : ∀ {r : Nat} {w : Bytes}, escapeU r ++ w ≠ b :: u := fun h => hb (List.cons.inj h).1.symm
  unfold compact at h
  split at h
  · cases h
  · next heq => cases heq
  · exact absurd (List.cons.inj h).1.symm hb
  · exact absurd h hescape
  · exact absurd h hescape
  · split at h
    · exact absurd h hescape
    · obtain ⟨rfl, rfl⟩ := List.cons.inj h
      exact ⟨_, rfl, rfl⟩

theorem compact_escapeU {r : Nat} (h : r = 60 ∨ r = 62 ∨ r = 38 ∨ r = 0x2028 ∨ r = 0x2029) (t : Bytes) :
    compact true (escapeU r ++ t) = escapeU r ++ compact true t := by
  rcases h with rfl | rfl | rfl | rfl | rfl <;> rfl

theorem compact_compact (quoted : Bool) (s : Bytes) :
    compact quoted (compact quoted s) = compact quoted s := by
  fun_induction compact quoted s with
  | case1 => rfl
  | case2 b t hspace ih => exact ih
  | case3 b t hspace ih => rw [compact, if_neg hspace, ih]
  | case4 b t ih => rw [compact, ih]
  | case5 t ih => rw [compact_escapeU (by simp), ih]
  | case6 t ih => rw [compact_escapeU (by simp), ih]
  | case7 b t _ _ _ hsign ih =>
    rw [compact_escapeU ?_, ih]
    rcases hsign with rfl | rfl | rfl <;> simp
  | case8 b t hesc hls hps hsign ih =>
    have hnext : ∀ {c d : UInt8} {w : Bytes}, c ≠ 92 ∧ c ≠ 34 ∧ d ≠ 92 → b = 226 →
        compact (b != 34) t = c :: d :: w → ∃ w', t = c :: d :: w' := by
      rintro c d w ⟨hc, hquote, hd⟩ rfl hw
      obtain ⟨t', rfl, ht⟩ := of_compact_cons hw hc
      rw [bne_iff_ne.mpr hquote] at ht
      obtain ⟨w', rfl, -⟩ := of_compact_cons ht.symm hd
      exact ⟨w', rfl⟩
    rw [compact, if_neg hsign, ih]
    · rintro c w rfl hw
      cases t with
      | nil => cases hw
      | cons d t => exact hesc d t rfl rfl
    · intro w hb hw
      obtain ⟨w', ht⟩ := hnext (by decide) hb hw
      exact hls w' hb ht
    · intro w hb hw
      obtain ⟨w', ht⟩ := hnext (by decide) hb hw
      exact hps w' hb ht

/-! ## Reading what was written -/

theorem skipBlanks_cons (h : isBlank b = false) (t : Bytes) :
    skipBlanks (b :: t) = b :: t := by simp [skipBlanks, h]

/-- No sign a value is written with is a space. -/
theorem isBlank_sign : isBlank 34 = false ∧ isBlank 44 = false ∧ isBlank 58 = false ∧
    isBlank 91 = false ∧ isBlank 93 = false ∧ isBlank 102 = false ∧ isBlank 110 = false ∧
    isBlank 116 = false ∧ isBlank 123 = false ∧ isBlank 125 = false := by decide

theorem quoteRune_ne_nil (h : bs ≠ []) : quoteRune r bs ≠ [] := by
  unfold quoteRune escapeU
  split_ifs <;> simp [h]

theorem length_le_flatMap (h : ∀ c ∈ l, quoteChunk c ≠ []) :
    l.length ≤ (l.flatMap quoteChunk).length := by
  induction l with
  | nil => simp
  | cons c l ih =>
    have hc := List.length_pos_iff.mpr (h c List.mem_cons_self)
    have := ih fun d hd => h d (List.mem_cons_of_mem _ hd)
    simp only [List.flatMap_cons, List.length_cons, List.length_append]
    omega

theorem quoteChunk_ne_nil {c : Chunk} (h : c ∈ chunks s) : quoteChunk c ≠ [] := by
  obtain ⟨s, t, hnext⟩ := next_of_mem_chunks h
  cases c with
  | rune r bs => exact quoteRune_ne_nil (next_bytes hnext).2
  | stray b => simp [quoteChunk, escapeU]

/-- A quoted string, with the fuel the readers give it. -/
theorem readString_quoted (hs : validString s = true) (t : Bytes) :
    let body := (chunks s).flatMap quoteChunk ++ 34 :: t
    readString (body.length + 1) body = some (s, t) := by
  refine readString_quote hs t ?_
  have := length_le_flatMap (l := chunks s) fun c hc => quoteChunk_ne_nil hc
  simp only [List.length_append, List.length_cons]
  omega

/-- No number goes on into the text. -/
def NumEnd (t : Bytes) : Prop := t.takeWhile isNumByte = []

theorem numEnd_cons (h : isNumByte b = false) (t : Bytes) : NumEnd (b :: t) := by
  simp [NumEnd, h]

theorem numEnd_renderItems (xs : List Json) (t : Bytes) : NumEnd (renderItems xs ++ t) := by
  cases xs <;> exact numEnd_cons (by decide) _

theorem numEnd_renderMembers (ms : List (Bytes × Json)) (t : Bytes) :
    NumEnd (renderMembers ms ++ t) := by
  rcases ms with _ | ⟨⟨k, x⟩, ms⟩ <;> exact numEnd_cons (by decide) _

theorem readNumber_append {text : Bytes} (hv : validNumber text = true)
    (hn : text.all isNumByte = true) (ht : NumEnd t) :
    readNumber (text ++ t) = some (.num text, t) := by
  have hall : ∀ b ∈ text, isNumByte b = true := List.all_eq_true.mp hn
  have htake : (text ++ t).takeWhile isNumByte = text := by
    rw [List.takeWhile_append_of_pos hall, ht, List.append_nil]
  have hdrop : (text ++ t).dropWhile isNumByte = t := by
    rw [List.dropWhile_append_of_pos hall]
    have := List.takeWhile_append_dropWhile (p := isNumByte) (l := t)
    rw [ht] at this
    simpa using this
  simp only [readNumber, htake, hv, hdrop, if_true]

/-- A number starts with a sign or a digit, as no other value does. -/
theorem num_head {text : Bytes} (hv : validNumber text = true) :
    ∃ b t, text = b :: t ∧ (b = 45 ∨ isDigitByte b = true) := by
  cases text with
  | nil => simp [validNumber, stripMinus, validUnsigned] at hv
  | cons b t =>
    refine ⟨b, t, rfl, ?_⟩
    by_cases hb : b = 45
    · exact .inl hb
    · right
      simp only [validNumber, stripMinus, if_neg hb, validUnsigned] at hv
      split at hv
      · rename_i h0; subst h0; rfl
      · exact (Bool.and_eq_true_iff.mp hv).1

theorem num_head_ne (h : b = 45 ∨ isDigitByte b = true) :
    isBlank b = false ∧ b ≠ 93 ∧ b ≠ 123 ∧ b ≠ 91 ∧ b ≠ 34 ∧ b ≠ 116 ∧ b ≠ 102 ∧ b ≠ 110 := by
  have hne : ∀ c : UInt8, c ≠ 45 → isDigitByte c = false → b ≠ c := by
    rintro c hc hd rfl
    rcases h with h | h
    · exact hc h
    · rw [hd] at h; cases h
  refine ⟨?_, hne 93 (by decide) rfl, hne 123 (by decide) rfl, hne 91 (by decide) rfl,
    hne 34 (by decide) rfl, hne 116 (by decide) rfl, hne 102 (by decide) rfl,
    hne 110 (by decide) rfl⟩
  simp only [isBlank, Bool.or_eq_false_iff, beq_eq_false_iff_ne]
  exact ⟨⟨⟨hne 32 (by decide) rfl, hne 9 (by decide) rfl⟩, hne 10 (by decide) rfl⟩,
    hne 13 (by decide) rfl⟩

theorem quote_append (s t : Bytes) :
    quote s ++ t = 34 :: ((chunks s).flatMap quoteChunk ++ 34 :: t) := by
  simp [quote]

/-- The text of a value starts with no blank and no closing bracket. -/
theorem render_head {v : Json} (h : v.Wf) :
    ∃ b t, render v = b :: t ∧ isBlank b = false ∧ b ≠ 93 := by
  cases v with
  | null | str s => exact ⟨_, _, rfl, by decide, by decide⟩
  | bool b | arr b => cases b <;> exact ⟨_, _, rfl, by decide, by decide⟩
  | num text =>
    obtain ⟨b, t, ht, hb⟩ := num_head h.1
    exact ⟨b, t, by simp only [render, ht], (num_head_ne hb).1, (num_head_ne hb).2.1⟩
  | obj ms => rcases ms with _ | ⟨⟨k, x⟩, ms⟩ <;> exact ⟨_, _, rfl, by decide, by decide⟩

mutual
/-- A written value is read back, whatever text that no number runs into follows. -/
theorem readValue_render : ∀ (v : Json) (fuel : Nat) (t : Bytes), v.Wf →
    (render v).length < fuel → NumEnd t → readValue fuel (render v ++ t) = some (v, t)
  | _, 0, _, _, h, _ => by omega
  | .null, fuel + 1, t, _, _, _ => by
    simp [render, readValue, skipBlanks_cons, isBlank_sign, readName]
  | .bool true, fuel + 1, t, _, _, _ => by
    simp [render, readValue, skipBlanks_cons, isBlank_sign, readName]
  | .bool false, fuel + 1, t, _, _, _ => by
    simp [render, readValue, skipBlanks_cons, isBlank_sign, readName]
  | .num text, fuel + 1, t, hw, _, ht => by
    obtain ⟨b, u, hbu, hb⟩ := num_head hw.1
    obtain ⟨hsp, _, h1, h2, h3, h4, h5, h6⟩ := num_head_ne hb
    have hread := readNumber_append hw.1 hw.2 ht
    simp only [render]
    rw [hbu] at hread ⊢
    simp only [List.cons_append] at hread ⊢
    simp only [readValue, skipBlanks_cons hsp, h1, h2, h3, h4, h5, h6, if_false]
    exact hread
  | .str s, fuel + 1, t, hw, _, _ => by
    simp only [render, quote_append, readValue, skipBlanks_cons, isBlank_sign]
    rw [readString_quoted hw t]
    rfl
  | .arr [], fuel + 1, t, _, _, _ => by
    simp [render, readValue, skipBlanks_cons, isBlank_sign]
  | .arr (x :: xs), fuel + 1, t, hw, hf, _ => by
    simp only [render, List.length_cons] at hf
    have ih := readItems_render x xs fuel t hw.1 hw.2 (by omega)
    obtain ⟨b, u, hb, hsp, h93⟩ := render_head hw.1
    simp only [render, List.cons_append, List.append_assoc, readValue,
      skipBlanks_cons, isBlank_sign, if_true, if_neg (show ¬ (91 : UInt8) = 123 by decide)]
    rw [hb] at ih ⊢
    simp only [List.cons_append, List.append_assoc] at ih ⊢
    rw [skipBlanks_cons hsp]
    split
    · rename_i heq; simp only [List.cons.injEq] at heq; exact absurd heq.1 h93
    · rw [ih]; rfl
  | .obj [], fuel + 1, t, _, _, _ => by
    simp [render, readValue, skipBlanks_cons, isBlank_sign]
  | .obj ((k, x) :: ms), fuel + 1, t, hw, hf, _ => by
    simp only [render, List.length_cons] at hf
    have ih := readMembers_render k x ms fuel t hw.1 hw.2.1 hw.2.2 (by omega)
    simp only [render, List.cons_append, List.append_assoc, readValue, skipBlanks_cons, isBlank_sign, if_true]
    rw [quote_append] at ih ⊢
    rw [skipBlanks_cons rfl]
    split
    · rename_i heq; simp at heq
    · simp only [List.append_assoc, List.cons_append] at ih ⊢
      rw [ih]; rfl

theorem readItems_render : ∀ (x : Json) (xs : List Json) (fuel : Nat) (t : Bytes), x.Wf →
    WfItems xs → (render x ++ renderItems xs).length < fuel →
    readItems fuel (render x ++ renderItems xs ++ t) = some (x :: xs, t)
  | _, _, 0, _, _, _, h => by omega
  | x, xs, fuel + 1, t, hx, hxs, hf => by
    have hlen : (render x).length < fuel := by
      cases xs <;> simp only [renderItems, List.length_append, List.length_cons] at hf <;> omega
    have hv := readValue_render x fuel (renderItems xs ++ t) hx hlen (numEnd_renderItems _ _)
    simp only [readItems, List.append_assoc, hv]
    cases xs with
    | nil => simp only [renderItems, List.cons_append, List.nil_append, skipBlanks_cons, isBlank_sign]
    | cons y ys =>
      simp only [renderItems, List.length_append, List.length_cons] at hf
      have ih := readItems_render y ys fuel t hxs.1 hxs.2 (by simp only [List.length_append]; omega)
      simp only [renderItems, List.cons_append, List.append_assoc, skipBlanks_cons, isBlank_sign]
      rw [← List.append_assoc, ih]
      rfl

theorem readMembers_render : ∀ (k : Bytes) (x : Json) (ms : List (Bytes × Json)) (fuel : Nat)
    (t : Bytes), validString k = true → x.Wf → WfMembers ms →
    (quote k ++ 58 :: (render x ++ renderMembers ms)).length < fuel →
    readMembers fuel (quote k ++ 58 :: (render x ++ renderMembers ms) ++ t) =
      some ((k, x) :: ms, t)
  | _, _, _, 0, _, _, _, _, h => by omega
  | k, x, ms, fuel + 1, t, hk, hx, hms, hf => by
    simp only [List.length_append, List.length_cons] at hf
    have hv := readValue_render x fuel (renderMembers ms ++ t) hx (by omega)
      (numEnd_renderMembers _ _)
    rw [List.append_assoc, quote_append]
    simp only [readMembers, skipBlanks_cons, isBlank_sign]
    rw [readString_quoted hk]
    simp only [List.cons_append, List.append_assoc, skipBlanks_cons, isBlank_sign, hv]
    cases ms with
    | nil =>
      simp only [renderMembers, List.cons_append, List.nil_append, skipBlanks_cons, isBlank_sign]
    | cons m ms =>
      simp only [renderMembers, List.length_append, List.length_cons] at hf
      have ih := readMembers_render m.1 m.2 ms fuel t hms.1 hms.2.1 hms.2.2
        (by simp only [List.length_append, List.length_cons]; omega)
      simp only [renderMembers, List.cons_append, skipBlanks_cons, isBlank_sign]
      rw [ih]
      rfl
end

/-- A written value parses to itself. -/
theorem parse_render {v : Json} (h : v.Wf) : parse (render v) = some v := by
  have hr := readValue_render v ((render v).length + 1) [] h (by omega) rfl
  rw [List.append_nil] at hr
  simp [parse, hr, skipBlanks]

/-! ## Integers -/

/-- The integer a number's text denotes, if it has no fraction and no exponent. -/
def numInt (text : Bytes) : Option Int :=
  let ds := stripMinus text
  if ds != [] && ds.all isDigitByte then
    let n : Nat := ds.foldl (fun acc b => 10 * acc + (b.toNat - 48)) 0
    some (if text.head? = some 45 then -(n : Int) else n)
  else none

theorem formatNat_digits (n : Nat) : ∀ b ∈ formatNat n, isDigitByte b = true := by
  intro b hb
  obtain ⟨c, hc, rfl⟩ := List.mem_map.mp hb
  have hdigit := isDigit_toDigits hc
  have hrange := digit_range hdigit
  rw [isDigitByte, toNat_digitByte hdigit]
  simpa using hrange

theorem formatNat_value (n : Nat) :
    (formatNat n).foldl (fun acc b => 10 * acc + (b.toNat - 48)) 0 = n := by
  have hchars : (formatNat n).foldl (fun acc b => 10 * acc + (b.toNat - 48)) 0 =
      Nat.ofDigitChars 10 (Nat.toDigits 10 n) 0 := by
    rw [formatNat, List.foldl_map]
    refine List.foldl_ext _ _ _ fun acc c hc => ?_
    rw [toNat_digitByte (isDigit_toDigits hc)]
    rfl
  rw [hchars]
  simp

theorem formatNat_ne_nil (n : Nat) : formatNat n ≠ [] := by
  rw [formatNat, Nat.toDigits_eq_if (by omega)]
  split <;> simp

theorem formatNat_head {n : Nat} (hn : 0 < n) : (formatNat n).head? ≠ some 48 := by
  induction n using Nat.strong_induction_on with
  | _ n ih =>
    rw [formatNat, Nat.toDigits_eq_if (by omega)]
    split
    · next h10 => interval_cases n <;> decide
    · rw [List.map_append]
      change (formatNat (n / 10) ++ _).head? ≠ some 48
      rw [List.head?_append_of_ne_nil _ (formatNat_ne_nil _)]
      exact ih (n / 10) (by omega) (by omega)

theorem validUnsigned_formatNat (n : Nat) : validUnsigned (formatNat n) = true := by
  rcases Nat.eq_zero_or_pos n with rfl | hn
  · decide
  have hds := formatNat_digits n
  have hhead := formatNat_head hn
  obtain ⟨b, t, hbt⟩ := List.exists_cons_of_ne_nil (formatNat_ne_nil n)
  rw [hbt] at hds hhead ⊢
  have hne : b ≠ 48 := fun h => hhead (congrArg some h)
  have hnil : t.dropWhile isDigitByte = [] :=
    List.dropWhile_eq_nil_iff.mpr fun c hc => hds c (List.mem_cons_of_mem _ hc)
  rw [validUnsigned, if_neg hne, hds b List.mem_cons_self, hnil]
  rfl

theorem stripMinus_of_validUnsigned (h : validUnsigned t = true) : stripMinus t = t := by
  cases t with
  | nil => rfl
  | cons b t =>
    rw [stripMinus, if_neg]
    rintro rfl
    cases h

theorem stripMinus_formatNat (n : Nat) : stripMinus (formatNat n) = formatNat n :=
  stripMinus_of_validUnsigned (validUnsigned_formatNat n)

theorem validNumber_formatInt (i : Int) : validNumber (formatInt i) = true := by
  cases i with
  | ofNat n => simp only [formatInt, validNumber, stripMinus_formatNat, validUnsigned_formatNat]
  | negSucc n =>
    simp only [formatInt, validNumber, stripMinus, if_true, validUnsigned_formatNat]

theorem isNumByte_of_digit (h : isDigitByte b = true) : isNumByte b = true := by
  simp [isNumByte, h]

theorem formatInt_numBytes (i : Int) : (formatInt i).all isNumByte = true := by
  have hnat : ∀ n, (formatNat n).all isNumByte = true := fun n =>
    List.all_eq_true.mpr fun b hb => isNumByte_of_digit (formatNat_digits n b hb)
  cases i with
  | ofNat n => exact hnat n
  | negSucc n => simp only [formatInt, List.all_cons, hnat, Bool.and_true]; decide

theorem numInt_formatInt (i : Int) : numInt (formatInt i) = some i := by
  have hok : ∀ n, (formatNat n != [] && (formatNat n).all isDigitByte) = true := fun n => by
    simp only [Bool.and_eq_true, bne_iff_ne, ne_eq, formatNat_ne_nil, not_false_eq_true, true_and]
    exact List.all_eq_true.mpr (formatNat_digits n)
  cases i with
  | ofNat n =>
    simp only [numInt, formatInt, stripMinus_formatNat, hok, if_true, formatNat_value]
    rw [if_neg]
    · rfl
    · intro h
      exact absurd (formatNat_digits n 45 (List.mem_of_mem_head? h)) (by decide)
  | negSucc n =>
    simp only [numInt, formatInt, stripMinus, if_true, hok, formatNat_value, List.head?_cons]
    rfl

theorem formatInt_injective {i j : Int} (h : formatInt i = formatInt j) : i = j := by
  have hread := congrArg numInt h
  rwa [numInt_formatInt, numInt_formatInt, Option.some.injEq] at hread

end Loomcycle.Lib.JsonText
