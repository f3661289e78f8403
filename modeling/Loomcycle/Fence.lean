import Loomcycle.Lib.Regex
import Mathlib.Algebra.GroupWithZero.Nat

/-! Untrusted text before it is fenced in a block (`fence/fence.go`): invisible characters are
dropped, then every spelling of `<` becomes one look-alike. A string is its runes; an invalid byte
is read as U+FFFD, and is that afterwards. In code the invisible characters are shown instead, as
markers; there the size of an invalid byte matters, and it is kept apart. A code block ends once:
its boundary and its closing tag are not in the code. -/

namespace Loomcycle.Fence
open Lib Lib.Regex

def lt : Char := '\u2039'

def charIn (cs : List Char) : Regex := .cls fun c => cs.contains c

def ltPattern : Regex :=
  let zeros := star false (lit "0")
  .alt (charIn ['<', '\uff1c', '\ufe64', '\u2039', '\u276c', '\u276e', '\u2770', '\u2329',
      '\u27e8', '\u29fc', '\u3008', '\u02c2', '\u1438', '\u16b2', '\u226e'])
    (oneOf [cat [charIn ['&', '\uff06', '\ufe60'], oneOf [lit "lt", cat [lit "#", zeros, lit "60"],
        cat [lit "#x", zeros, lit "3c"]], opt (lit ";")],
      cat [lit "\\u", opt (lit "\x7b"), zeros, lit "3c", opt (lit "\x7d")],
      cat [lit "\\x", zeros, lit "3c"], lit "%3c"])

def ltSpellings : Regex := ltPattern.ci

/-- The format characters (Cf). -/
def formatChars : List (Nat × Nat) :=
  [(0xad, 0xad), (0x600, 0x605), (0x61c, 0x61c), (0x6dd, 0x6dd), (0x70f, 0x70f), (0x890, 0x891),
    (0x8e2, 0x8e2), (0x180e, 0x180e), (0x200b, 0x200f), (0x202a, 0x202e), (0x2060, 0x2064),
    (0x2066, 0x206f), (0xfeff, 0xfeff), (0xfff9, 0xfffb), (0x110bd, 0x110bd), (0x110cd, 0x110cd),
    (0x13430, 0x1343f), (0x1bca0, 0x1bca3), (0x1d173, 0x1d17a), (0xe0001, 0xe0001),
    (0xe0020, 0xe007f)]

def variationSelectors : List (Nat × Nat) :=
  [(0x180b, 0x180d), (0x180f, 0x180f), (0xfe00, 0xfe0f), (0xe0100, 0xe01ef)]

def otherDefaultIgnorables : List (Nat × Nat) :=
  [(0x34f, 0x34f), (0x115f, 0x1160), (0x17b4, 0x17b5), (0x2065, 0x2065), (0x3164, 0x3164),
    (0xffa0, 0xffa0), (0xfff0, 0xfff8), (0xe0000, 0xe0000), (0xe0002, 0xe001f),
    (0xe0080, 0xe00ff), (0xe01f0, 0xe0fff)]

def isInvisible (r : Char) : Bool :=
  (formatChars ++ variationSelectors ++ otherDefaultIgnorables).any fun range =>
    range.1 ≤ r.toNat && r.toNat ≤ range.2

def escapeUntrusted (s : Text) : Text :=
  ltSpellings.replaceAll (fun _ => [lt]) (s.filter fun r => !isInvisible r)

/-- A spelling is the replacement alone, or has nothing of it. -/
theorem text_of_ltSpellings {t : Text} (h : ltSpellings.Matches t) :
    t ≠ [] ∧ (lt ∈ t → t = [lt]) := by
  refine ⟨h.ne_nil (by decide), fun hmem => ?_⟩
  cases h with
  | inl hcls =>
    cases hcls
    rw [List.mem_singleton.mp hmem]
  | inr hrest => exact absurd hmem (hrest.not_mem (by decide))

theorem only_lt (s t : Text) (h : t <:+: escapeUntrusted s) (ht : ltSpellings.Matches t) :
    t = [lt] := by
  obtain ⟨hne, hlt⟩ := text_of_ltSpellings ht
  by_cases hmem : lt ∈ t
  · exact hlt hmem
  obtain ⟨c, w, rfl⟩ := List.exists_cons_of_ne_nil hne
  obtain ⟨hc, hw⟩ := not_or.mp fun h => hmem (List.mem_cons.mpr h)
  refine absurd ?_ ((cut_pieces ltSpellings (s.filter fun r => !isInvisible r)).gone
    (f := fun _ => [lt]) (g := id) (c := c) (w := w) (fun u hu => ?_)
    (fun u hu => (text_of_ltSpellings hu).1) fun m _ => ⟨?_, lt, [], rfl, hw⟩)
  · rw [List.map_id]
    exact h
  · rwa [← (List.map_id u).symm.trans hu] at ht
  · simpa using Ne.symm hc

theorem visible (s : Text) : ∀ c ∈ escapeUntrusted s, isInvisible c = false := by
  intro c hc
  obtain ⟨p, hp, hc⟩ := List.mem_flatMap.mp hc
  cases p with
  | char d =>
    obtain rfl := List.mem_singleton.mp hc
    have hmem : c ∈ (ltSpellings.pieces _).flatMap Piece.text :=
      List.mem_flatMap.mpr ⟨_, hp, List.mem_singleton.mpr rfl⟩
    rw [pieces_text] at hmem
    simpa using (List.mem_filter.mp hmem).2
  | hit m =>
    rw [List.mem_singleton.mp hc]
    decide

/-- No spelling of `<` but the replacement is left, nor is anything invisible, so that escaping
again changes nothing. -/
theorem escaped_text_writes_no_tag (s : Text) :
    (∀ t, t <:+: escapeUntrusted s → ltSpellings.Matches t → t = [lt]) ∧
      (∀ c ∈ escapeUntrusted s, isInvisible c = false) ∧
      escapeUntrusted (escapeUntrusted s) = escapeUntrusted s := by
  refine ⟨only_lt s, visible s, ?_⟩
  have hfilter : (escapeUntrusted s).filter (fun r => !isInvisible r) = escapeUntrusted s :=
    List.filter_eq_self.mpr fun c hc => by simp [visible s c hc]
  rw [escapeUntrusted, hfilter]
  exact replaceAll_eq_self fun m hinfix hm => (only_lt s m.text hinfix hm).symm

/-! ## Showing what cannot be seen -/

/-- What `range` reads of a string at a time. -/
inductive Rune
  | valid (c : Char)
  | stray (b : UInt8)
  deriving DecidableEq, Repr

def Rune.value : Rune → Char
  | .valid c => c
  | .stray _ => '\ufffd'

/-- The bytes it takes in the string: one for a stray byte, though `RuneLen` says three. -/
def Rune.size : Rune → Nat
  | .valid c => c.utf8Size
  | .stray _ => 1

def isControl (r : Char) : Bool := r.toNat < 0x20 || 0x7f ≤ r.toNat && r.toNat < 0xa0

def hidden (r : Char) : Bool :=
  if r ∈ ['\t', '\n', '\r'] then false
  else if r ∈ ['\u2028', '\u2029', '\u2800'] then true
  else isControl r || isInvisible r

def upperHex (d : Nat) : Char := if d < 10 then Char.ofNat (48 + d) else Char.ofNat (55 + d)

def hexDigits : Nat → Nat → Text
  | 0, _ => []
  | k + 1, n => upperHex (n / 16 ^ k % 16) :: hexDigits k n

def markerOpen : Text := ['⟨', 'U', '+']

/-- `⟨U+%04X⟩`. -/
def marker (r : Char) : Text :=
  let width := if r.toNat < 0x10000 then 4 else if r.toNat < 0x100000 then 5 else 6
  markerOpen ++ hexDigits width r.toNat ++ ['⟩']

def shows (r : Char) (rest : List Rune) : Bool :=
  hidden r || r == '\r' && rest.head? != some (.valid '\n') ||
    r == '⟨' && [.valid 'U', .valid '+'].isPrefixOf rest

/-- The loop of `ShowInvisible`; none when the slice for `rest` is out of range. -/
def showRunes : List Rune → Option Text
  | [] => some []
  | r :: rest =>
    if ((r :: rest).map Rune.size).sum < r.value.utf8Size then none
    else (showRunes rest).map ((if shows r.value rest then marker r.value else [r.value]) ++ ·)

/-- The early return: there is nothing to show. -/
def plain (s : List Rune) : Bool :=
  s.all (fun r => !hidden r.value) ∧ .valid '\r' ∉ s ∧ ¬ markerOpen.map .valid <:+: s

def showInvisible (s : List Rune) : Option (List Rune) :=
  if plain s then some s
  else (showRunes s).map fun out => out.map .valid

/-- A carriage return is shown, so the loop runs; its slice at the last byte ends two past it. -/
theorem showInvisible_stray : showInvisible [.valid '\r', .stray 0xff] = none := by decide

/-- What the loop writes for a valid string. -/
def showText : Text → Text
  | [] => []
  | c :: rest => (if shows c (rest.map .valid) then marker c else [c]) ++ showText rest

def hexValue (c : Char) : Nat := if c.isDigit then c.toNat - 48 else c.toNat - 55

/-- Reads shown text back: outside a marker, or inside one with the number read so far. -/
def unshow : Option Nat → Text → Text
  | _, [] => []
  | none, '⟨' :: 'U' :: '+' :: t => unshow (some 0) t
  | none, c :: t => c :: unshow none t
  | some n, '⟩' :: t => Char.ofNat n :: unshow none t
  | some n, c :: t => unshow (some (n * 16 + hexValue c)) t

theorem unshow_hexDigits (k n a : Nat) (t : Text) :
    unshow (some a) (hexDigits k n ++ t) = unshow (some (a * 16 ^ k + n % 16 ^ k)) t := by
  induction k generalizing a with
  | zero => simp [hexDigits, Nat.mod_one]
  | succ k ih =>
    have hdigit : ∀ d : Fin 16, upperHex d ≠ '⟩' ∧ hexValue (upperHex d) = d := by decide
    obtain ⟨hne, hval⟩ := hdigit ⟨n / 16 ^ k % 16, Nat.mod_lt _ (by decide)⟩
    rw [hexDigits, List.cons_append, unshow.eq_5 _ _ _ hne, hval, ih, Nat.mod_pow_succ]
    congr 2
    rw [Nat.add_mul, Nat.mul_assoc, ← Nat.pow_succ', Nat.add_assoc, Nat.add_comm (n % _),
      Nat.mul_comm (16 ^ k)]

theorem unshow_marker (c : Char) (t : Text) : unshow none (marker c ++ t) = c :: unshow none t := by
  have hread : ∀ k, c.toNat < 16 ^ k →
      unshow none (markerOpen ++ hexDigits k c.toNat ++ ['⟩'] ++ t) = c :: unshow none t := by
    intro k hk
    simp only [markerOpen, List.cons_append, List.nil_append, List.append_assoc, unshow,
      unshow_hexDigits, Nat.zero_mul, Nat.zero_add, Nat.mod_eq_of_lt hk, Char.ofNat_toNat]
  have hlt : c.toNat < 0x110000 := by
    rcases c.valid with h | h
    · exact Nat.lt_trans h (by decide)
    · exact h.2
  unfold marker
  split_ifs with h4 h5
  · exact hread 4 h4
  · exact hread 5 h5
  · exact hread 6 (Nat.lt_trans hlt (by decide))

/-- A marker opens once. -/
theorem marker_eq (c : Char) : ∃ w, marker c = '⟨' :: w ∧ '⟨' ∉ w := by
  have hdigit : ∀ k n, '⟨' ∉ hexDigits k n := by
    intro k n
    induction k with
    | zero => simp [hexDigits]
    | succ k ih =>
      have hne : ∀ d : Fin 16, '⟨' ≠ upperHex d := by decide
      simp [hexDigits, hne ⟨n / 16 ^ k % 16, Nat.mod_lt _ (by decide)⟩, ih]
  exact ⟨_, rfl, by simp [hdigit]⟩

theorem showText_cons {s t : Text} {d : Char} (h : d :: t <+: showText s) (hd : d ≠ '⟨') :
    ∃ s', s = d :: s' ∧ t <+: showText s' := by
  cases s with
  | nil => simp [showText] at h
  | cons c rest =>
    rw [showText] at h
    split at h
    · obtain ⟨w, hw, -⟩ := marker_eq c
      rw [hw, List.cons_append, List.cons_prefix_cons] at h
      exact absurd h.1 hd
    · rw [List.singleton_append, List.cons_prefix_cons] at h
      exact ⟨rest, by rw [h.1], h.2⟩

/-- A character that is not shown opens no marker with what is written after it. -/
theorem not_opens {c : Char} {rest t : Text} (h : ¬ shows c (rest.map .valid) = true)
    (ht : t <+: showText rest) : ¬ markerOpen <+: c :: t := by
  intro hopen
  obtain ⟨rfl, hU⟩ := List.cons_prefix_cons.mp hopen
  obtain ⟨rest, rfl, hplus⟩ := showText_cons (hU.trans ht) (by decide)
  obtain ⟨rest, rfl, -⟩ := showText_cons hplus (by decide)
  exact h rfl

theorem unshow_copied {c : Char} {t : Text} (h : ¬ markerOpen <+: c :: t) :
    unshow none (c :: t) = c :: unshow none t := by
  rw [unshow.eq_3]
  rintro t' rfl rfl
  exact h ⟨t', rfl⟩

theorem unshow_showText (s : Text) : unshow none (showText s) = s := by
  induction s with
  | nil => rfl
  | cons c rest ih =>
    rw [showText]
    split
    · rw [unshow_marker, ih]
    · next h => rw [List.singleton_append, unshow_copied (not_opens h List.prefix_rfl), ih]

/-- Where the shown text opens a marker, the marker is of one character of the text. -/
theorem marker_of_showText (s a b : Text) (h : showText s = a ++ (markerOpen ++ b)) :
    ∃ c t, markerOpen ++ b = marker c ++ t ∧ s = unshow none a ++ c :: unshow none t := by
  induction s generalizing a with
  | nil => simp [showText, markerOpen] at h
  | cons c rest ih =>
    rw [showText] at h
    split at h
    · cases a with
      | nil => exact ⟨c, _, h.symm, by rw [unshow_showText]; rfl⟩
      | cons x a =>
        -- The marker ends before the next one opens.
        obtain ⟨w, hw, hnot⟩ := marker_eq c
        have hsplit : ∃ a', x :: a = marker c ++ a' ∧ showText rest = a' ++ (markerOpen ++ b) := by
          rw [hw, List.cons_append, List.cons_append] at h
          obtain ⟨rfl, htail⟩ := List.cons_eq_cons.mp h
          rw [hw]
          rcases List.append_eq_append_iff.mp htail with ⟨a', rfl, hrest⟩ | ⟨d, rfl, hrest⟩
          · exact ⟨a', rfl, hrest⟩
          · cases d with
            | nil => exact ⟨[], by simp, hrest.symm⟩
            | cons y d =>
              obtain ⟨rfl, -⟩ := List.cons_eq_cons.mp hrest
              simp at hnot
        obtain ⟨a', ha, hrest⟩ := hsplit
        obtain ⟨d, t, hm, rfl⟩ := ih a' hrest
        exact ⟨d, t, hm, by rw [ha, unshow_marker, List.cons_append]⟩
    · next hc =>
      cases a with
      | nil => exact absurd ⟨b, h.symm⟩ (not_opens hc List.prefix_rfl)
      | cons x a =>
        obtain ⟨rfl, hrest⟩ := List.cons_eq_cons.mp h
        obtain ⟨d, t, hm, rfl⟩ := ih a hrest
        refine ⟨d, t, hm, ?_⟩
        rw [unshow_copied (not_opens hc ⟨_, hrest.symm⟩), List.cons_append]

theorem showRunes_valid (s : Text) : showRunes (s.map .valid) = some (showText s) := by
  induction s with
  | nil => rfl
  | cons c rest ih =>
    rw [List.map_cons, showRunes, if_neg (by simp [Rune.size, Rune.value]), ih]
    rfl

theorem showText_eq_self {s : Text} (h : ∀ c ∈ s, hidden c = false ∧ c ≠ '\r')
    (hopen : ¬ markerOpen.map .valid <:+: s.map Rune.valid) : showText s = s := by
  induction s with
  | nil => rfl
  | cons c rest ih =>
    obtain ⟨⟨hhidden, hcr⟩, h⟩ := List.forall_mem_cons.mp h
    have hself := ih h (mt List.infix_cons hopen)
    rw [showText, if_neg, hself, List.singleton_append]
    intro hshow
    simp only [shows, hhidden, Bool.false_or, Bool.or_eq_true, Bool.and_eq_true, beq_iff_eq, hcr,
      false_and, false_or, List.isPrefixOf_iff_prefix] at hshow
    obtain ⟨rfl, hU⟩ := hshow
    exact hopen (List.cons_prefix_cons.mpr ⟨rfl, hU⟩).isInfix

/-- Every stray byte has two bytes after it, as many as its U+FFFD takes beyond it. -/
def Padded (s : List Rune) : Prop :=
  ∀ b rest, .stray b :: rest <:+ s → 2 ≤ (rest.map Rune.size).sum

theorem isSome_showRunes_iff (s : List Rune) : (showRunes s).isSome ↔ Padded s := by
  induction s with
  | nil => exact iff_of_true rfl fun b rest h => nomatch List.suffix_nil.mp h
  | cons r s ih =>
    have hcons : Padded (r :: s) ↔ (∀ b, r = .stray b → 2 ≤ (s.map Rune.size).sum) ∧ Padded s := by
      constructor
      · intro h
        exact ⟨fun b hb => h b s (hb ▸ List.suffix_rfl),
          fun b rest hrest => h b rest (hrest.trans (List.suffix_cons r s))⟩
      · rintro ⟨hfirst, hrest⟩ b rest h
        obtain heq | h := List.suffix_cons_iff.mp h
        · obtain ⟨rfl, rfl⟩ := List.cons_eq_cons.mp heq
          exact hfirst b rfl
        · exact hrest b rest h
    have hslice : ((r :: s).map Rune.size).sum < r.value.utf8Size ↔
        ¬ ∀ b, r = .stray b → 2 ≤ (s.map Rune.size).sum := by
      cases r with
      | valid c => simp [Rune.size, Rune.value]
      | stray b =>
        have hthree : Char.utf8Size '\ufffd' = 3 := by decide
        simp only [List.map_cons, List.sum_cons, Rune.size, Rune.value, hthree, Rune.stray.injEq,
          forall_eq', not_le]
        omega
    rw [hcons, showRunes]
    split
    · next h => exact iff_of_false Bool.false_ne_true fun hpad => hslice.mp h hpad.1
    · next h =>
      rw [Option.isSome_map, ih]
      exact (and_iff_right (not_not.mp (mt hslice.mpr h))).symm

/-- The slices are in range if and only if there is nothing to show or no stray byte is too near
the end. A valid string is always shown, and what is shown can be read back: each marker is one
character of the string, and the rest stands for itself. -/
theorem showInvisible_recoverable (s : List Rune) (t : Text) :
    ((showInvisible s).isSome ↔ plain s ∨ Padded s) ∧
    ∃ out, showInvisible (t.map .valid) = some (out.map .valid) ∧ unshow none out = t ∧
      ∀ a b, out = a ++ (markerOpen ++ b) → ∃ c rest, markerOpen ++ b = marker c ++ rest ∧
        t = unshow none a ++ c :: unshow none rest := by
  refine ⟨?_, showText t, ?_, unshow_showText t, marker_of_showText t⟩
  · rw [showInvisible]
    split
    · next h => exact iff_of_true rfl (.inl h)
    · next h => rw [Option.isSome_map, isSome_showRunes_iff, or_iff_right h]
  unfold showInvisible
  split
  · next h =>
    obtain ⟨hhidden, hcr, hopen⟩ := of_decide_eq_true h
    rw [showText_eq_self (fun c hc => ⟨?_, ?_⟩) hopen]
    · simpa [Rune.value] using List.all_eq_true.mp hhidden _ (List.mem_map_of_mem hc)
    · exact fun heq => hcr (heq ▸ List.mem_map_of_mem hc)
  · rw [showRunes_valid]
    rfl

/-! ## Code blocks -/

def ownTag : Regex :=
  let space := star false (charIn ['\t', '\n', '\x0c', '\r', ' '])
  (cat [ltPattern, .group 1 (cat [space, opt (lit "/"), space, lit "untrusted-code"])]).ci

/-- `ReplaceAllString` with `lt+"$1"`; the pieces are those of the runes' values. -/
def rewriteOwn : List Piece → List Rune → List Rune
  | .char _ :: ps, r :: rs => r :: rewriteOwn ps rs
  | .hit m :: ps, rs => (lt :: m.group 1).map .valid ++ rewriteOwn ps (rs.drop m.text.length)
  | _, _ => []

def len (s : List Rune) : Int := (s.map Rune.size).sum

def codeMaxGrowth : Int := 4096

def lowerHex (d : Nat) : Char := if d < 10 then Char.ofNat (48 + d) else Char.ofNat (87 + d)

/-- The first 32 hex characters of a hash. -/
def boundary (h : Vector UInt8 32) : Text :=
  (h.toList.flatMap fun b => [lowerHex (b.toNat / 16), lowerHex (b.toNat % 16)]).take 32

/-- The boundaries that are tried, the later ones salted. -/
def boundaries (sum : List Rune → Vector UInt8 32) (shown : List Rune) : List Text :=
  (List.range 8).map fun i =>
    boundary (sum ((if i > 0 then ((toString i).toList ++ ['\n']).map .valid else []) ++ shown))

def codeTag : Text := "untrusted-code".toList

def closer : Text := '<' :: '/' :: codeTag

/-- What follows the name in both tags. -/
def bound (b : Text) : Text := [' ', 'b', '=', '"'] ++ b ++ ['"', '>']

def fenced (b : Text) (shown : List Rune) : List Rune :=
  ('<' :: codeTag ++ bound b).map .valid ++ .valid '\n' :: (shown ++ .valid '\n' ::
    (closer ++ bound b).map .valid)

def escapedBlock (text : List Rune) : List Rune :=
  ("<untrusted>\n".toList ++ escapeUntrusted (text.map Rune.value) ++
    "\n</untrusted>".toList).map .valid

/-- None where `ShowInvisible` panics. Only A to F have a hex digit for their lower case. -/
def codeBlock (sum : List Rune → Vector UInt8 32) (text : List Rune) : Option (List Rune) :=
  (showInvisible text).map fun s =>
    let shown := rewriteOwn (ownTag.pieces (s.map Rune.value)) s
    if len shown - len text > len text / 4 + codeMaxGrowth then escapedBlock text
    else
      match (boundaries sum shown).find? fun b => ¬ b <:+: shown.map fun r => r.value.toLower with
      | some b => fenced b shown
      | none => escapedBlock text

theorem value_rewriteOwn {s : List Rune} {ps : List Piece}
    (h : ps.flatMap Piece.text = s.map Rune.value) :
    (rewriteOwn ps s).map Rune.value = ps.flatMap (Piece.replaced fun m => lt :: m.group 1) := by
  induction ps generalizing s with
  | nil => cases s <;> rfl
  | cons p ps ih =>
    cases p with
    | char c =>
      cases s with
      | nil => cases h
      | cons r s =>
        obtain ⟨hc, hrest⟩ := List.cons_eq_cons.mp h
        rw [rewriteOwn, List.map_cons, ih hrest, ← hc]
        rfl
    | hit m =>
      have hrest : ps.flatMap Piece.text = (s.drop m.text.length).map Rune.value := by
        rw [List.map_drop, ← h, List.flatMap_cons]
        exact List.drop_left.symm
      rw [rewriteOwn, List.map_append, ih hrest, List.map_map]
      simp [Piece.replaced, Function.comp_def, Rune.value]

/-- The closing tag is not left in the code. -/
theorem not_infix_own (s : List Rune) :
    ¬ closer.map .valid <:+: rewriteOwn (ownTag.pieces (s.map Rune.value)) s := by
  intro h
  have hvalues := h.map Rune.value
  rw [value_rewriteOwn (pieces_text ..), List.map_map] at hvalues
  refine (cut_pieces ownTag (s.map Rune.value)).gone (f := fun m => lt :: m.group 1) (g := id)
    (c := '<') (w := '/' :: codeTag) (fun t ht => ?_) (fun t ht => ht.ne_nil (by decide))
    (fun m hm => ?_) (by rwa [List.map_id])
  · rw [List.map_id] at ht
    subst ht
    have hfirst : ownTag.first? closer = some (⟨closer, [(1, '/' :: codeTag)]⟩, []) := by decide
    exact (matches_of_first hfirst).2
  · obtain ⟨s', rest, hfirst⟩ := first_of_hit hm
    have hgroup : '<' ∉ m.group 1 := not_mem_group_of_first (by decide) hfirst
    exact ⟨by simp [hgroup, lt], lt, _, rfl, by decide⟩

theorem mem_boundary {v : Vector UInt8 32} {c : Char} (hc : c ∈ boundary v) :
    ∃ d : Fin 16, c = lowerHex d := by
  obtain ⟨b, -, hc⟩ := List.mem_flatMap.mp (List.mem_of_mem_take hc)
  rcases List.mem_cons.mp hc with rfl | hc
  · exact ⟨⟨_, Nat.div_lt_of_lt_mul b.toNat_lt⟩, rfl⟩
  · exact ⟨⟨_, Nat.mod_lt _ (by decide)⟩, List.mem_singleton.mp hc⟩

section

variable {h : Text} {shown a b : List Rune} (hhex : ∀ c ∈ h, ∃ d : Fin 16, c = lowerHex d)
include hhex

/-- Nothing of the tags' marks is in a boundary. -/
theorem not_mem_hex {x : Char} (hx : ∀ d : Fin 16, x ≠ lowerHex d) : x ∉ h := by
  intro hmem
  obtain ⟨d, rfl⟩ := hhex x hmem
  exact hx d rfl

/-- The boundary is in the two tags alone. -/
theorem boundary_in_tags (hlen : h.length = 32) (hshown : ¬ h.map .valid <:+: shown)
    (hab : fenced h shown = a ++ h.map .valid ++ b) :
    a = ('<' :: codeTag ++ [' ', 'b', '=', '"']).map .valid ∨ b = ['"', '>'].map .valid := by
  have hshort : ∀ l : List Rune, l.length < 32 → ¬ h.map .valid <:+: l := by
    intro l hl hinfix
    have := hinfix.length_le
    rw [List.length_map] at this
    omega
  have hne : h.map Rune.valid ≠ [] := fun hnil => hshort [] (by decide) (by simp [hnil])
  have hquote : .valid '"' ∉ h.map Rune.valid := by
    simpa using not_mem_hex hhex (x := '"') (by decide)
  have hline : .valid '\n' ∉ h.map Rune.valid := by
    simpa using not_mem_hex hhex (x := '\n') (by decide)
  have hform : fenced h shown = ('<' :: codeTag ++ [' ', 'b', '=']).map .valid ++ .valid '"' ::
      (h.map .valid ++ .valid '"' :: ([.valid '>'] ++ .valid '\n' :: (shown ++ .valid '\n' ::
        ((closer ++ [' ', 'b', '=']).map .valid ++ .valid '"' ::
          (h.map .valid ++ .valid '"' :: [.valid '>']))))) := by
    simp [fenced, bound]
  rw [hform] at hab
  obtain ⟨rfl, -⟩ | ⟨a₁, h₁⟩ := split_quoted hquote hne (hshort _ (by decide)) hab
  · exact .inl (by simp)
  obtain ⟨a₂, h₂⟩ := split_of_cons hline hne (hshort _ (by decide)) h₁
  obtain ⟨a₃, h₃⟩ := split_of_cons hline hne hshown h₂
  obtain ⟨-, hb⟩ | ⟨a₄, h₄⟩ := split_quoted hquote hne (hshort _ (by decide)) h₃
  · exact .inr hb
  · exact absurd ⟨a₄, b, h₄.symm⟩ (hshort _ (by decide))

/-- The tag is closed at the end alone. -/
theorem closer_at_end (hshown : ¬ closer.map .valid <:+: shown)
    (hab : fenced h shown = a ++ closer.map .valid ++ b) : b = (bound h).map .valid := by
  have hslash : '/' ∉ bound h := by simpa [bound] using not_mem_hex hhex (x := '/') (by decide)
  have hlt : '<' ∉ bound h := by simpa [bound] using not_mem_hex hhex (x := '<') (by decide)
  have hline : Rune.valid '\n' ∉ closer.map .valid := by decide
  have hopen : ¬ closer.map .valid <:+: ('<' :: codeTag ++ bound h).map Rune.valid := by
    intro hinfix
    have hmem := hinfix.subset (show Rune.valid '/' ∈ closer.map .valid by decide)
    have hname : '/' ∉ codeTag := by decide
    simp [hslash, hname] at hmem
  obtain ⟨a₁, h₁⟩ := split_of_cons hline (by decide) hopen hab
  obtain ⟨a₂, h₂⟩ := split_of_cons hline (by decide) hshown h₁
  rw [List.map_append] at h₂
  exact rest_of_cons (by decide) (by simpa using hlt) h₂

end

/-- For any hash: either `ShowInvisible` panics; or the block is the escaped one; or it is the shown
text, its own tags rewritten, between two tags of one boundary, which is in these alone, and the
closing tag is at the end alone. -/
theorem codeBlock_ends_once (sum : List Rune → Vector UInt8 32) (text : List Rune) :
    showInvisible text = none ∧ codeBlock sum text = none ∨ ∃ s, showInvisible text = some s ∧
      let shown := rewriteOwn (ownTag.pieces (s.map Rune.value)) s
      codeBlock sum text = some (escapedBlock text) ∨ ∃ h : Text, h.length = 32 ∧
        codeBlock sum text = some (fenced h shown) ∧
        (∀ a b, fenced h shown = a ++ h.map .valid ++ b →
          a = ('<' :: codeTag ++ [' ', 'b', '=', '"']).map .valid ∨ b = ['"', '>'].map .valid) ∧
        ∀ a b, fenced h shown = a ++ closer.map .valid ++ b → b = (bound h).map .valid := by
  unfold codeBlock
  cases hs : showInvisible text with
  | none => exact .inl ⟨rfl, rfl⟩
  | some s =>
    refine .inr ⟨s, rfl, ?_⟩
    dsimp only [Option.map_some]
    split
    · exact .inl rfl
    split
    · next h hfind =>
      have hnot := List.find?_some hfind
      rw [decide_eq_true_eq] at hnot
      obtain ⟨hlen, hhex⟩ : h.length = 32 ∧ ∀ c ∈ h, ∃ d : Fin 16, c = lowerHex d := by
        obtain ⟨i, -, rfl⟩ := List.mem_map.mp (List.mem_of_find?_eq_some hfind)
        exact ⟨by simp [boundary, List.length_flatMap], fun c => mem_boundary⟩
      refine .inr ⟨h, hlen, rfl, fun a b => boundary_in_tags hhex hlen fun hinfix => hnot ?_,
        fun a b => closer_at_end hhex (not_infix_own s)⟩
      have hdigit : ∀ d : Fin 16, (lowerHex d).toLower = lowerHex d := by decide
      have hlower : (h.map Rune.valid).map (fun r => r.value.toLower) = h := by
        rw [List.map_map]
        refine (List.map_congr_left fun c hc => ?_).trans (List.map_id h)
        obtain ⟨d, rfl⟩ := hhex c hc
        exact hdigit d
      exact hlower ▸ hinfix.map fun r => r.value.toLower
    · exact .inl rfl

/-- The panic of `showInvisible_stray`. -/
theorem codeBlock_stray :
    (fun sum => codeBlock sum [.valid '\r', .stray 0xff]) = fun _ => none := rfl

end Loomcycle.Fence
