import Mathlib.Data.List.Basic

/-! White space of a text, and a text trimmed of it: Go's `unicode.IsSpace` and
`strings.TrimSpace`. -/

namespace Loomcycle.Lib

/-- `unicode.IsSpace` -/
def isSpace (c : Char) : Bool :=
  c ∈ ['\t', '\n', '\x0b', '\x0c', '\r', ' ', '\u0085', '\u00a0', '\u1680', '\u2028', '\u2029',
    '\u202f', '\u205f', '\u3000'] ∨ ('\u2000' ≤ c ∧ c ≤ '\u200a')

/-- `strings.TrimSpace` -/
def trimSpace (t : List Char) : List Char :=
  ((t.dropWhile isSpace).reverse.dropWhile isSpace).reverse

theorem mem_dropWhile_of_not {p : α → Bool} {a : α} (hp : p a = false) {l : List α} (ha : a ∈ l) :
    a ∈ l.dropWhile p := by
  rw [← List.takeWhile_append_dropWhile (p := p) (l := l)] at ha
  refine (List.mem_append.mp ha).resolve_left fun h => ?_
  rw [List.all_eq_true.mp List.all_takeWhile a h] at hp
  cases hp

/-- Trimming only drops white space. -/
theorem mem_trimSpace {c : Char} (hc : isSpace c = false) {t : List Char} (ht : c ∈ t) :
    c ∈ trimSpace t :=
  List.mem_reverse.mpr (mem_dropWhile_of_not hc
    (List.mem_reverse.mpr (mem_dropWhile_of_not hc ht)))

end Loomcycle.Lib
