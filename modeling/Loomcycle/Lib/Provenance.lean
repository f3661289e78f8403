import Loomcycle.Lib.Regex

/-! Text that remembers where its characters come from: each has its place in a template, or was
put in. A pass over a text is a pass over its marks. Filling the marked text replaces a word only
where it stands in one piece of the template; replacing the word in the plain text does the same
for every content if and only if the word stands nowhere else. -/

namespace Loomcycle.Lib

/-- A character with its place in the template; none when it was put in. -/
structure Mark where
  char : Char
  place : Option Nat
deriving DecidableEq

abbrev Marked := List Mark

namespace Provenance
open Regex

def text (ms : Marked) : Text := ms.map Mark.char

/-- The text of a template from its place `i` on. -/
def template (i : Nat) : Text → Marked
  | [] => []
  | c :: t => ⟨c, some i⟩ :: template (i + 1) t

def put (t : Text) : Marked := t.map fun c => ⟨c, none⟩

/-- What is left of the template. -/
def written (ms : Marked) : Marked := ms.filter fun m => m.place.isSome

variable {ms ms' : Marked} {t w content : Text} {i : Nat}

@[simp] theorem text_append (ms ms' : Marked) : text (ms ++ ms') = text ms ++ text ms' :=
  List.map_append

@[simp] theorem text_put (t : Text) : text (put t) = t := by
  rw [text, put, List.map_map]
  exact List.map_id t

@[simp] theorem text_template (i : Nat) (t : Text) : text (template i t) = t := by
  induction t generalizing i with
  | nil => rfl
  | cons c t ih => rw [template, text, List.map_cons, ← text, ih]

theorem text_take (n : Nat) (ms : Marked) : text (ms.take n) = (text ms).take n := List.map_take

theorem text_drop (n : Nat) (ms : Marked) : text (ms.drop n) = (text ms).drop n := List.map_drop

@[simp] theorem length_text (ms : Marked) : (text ms).length = ms.length := List.length_map _

@[simp] theorem written_append (ms ms' : Marked) :
    written (ms ++ ms') = written ms ++ written ms' :=
  List.filter_append ..

@[simp] theorem written_put (t : Text) : written (put t) = [] := by
  refine List.filter_eq_nil_iff.mpr fun m hm => ?_
  obtain ⟨c, -, rfl⟩ := List.mem_map.mp hm
  exact Bool.false_ne_true

theorem written_sublist (h : ms.Sublist ms') : (written ms).Sublist (written ms') := h.filter _

/-! ### A pass over marked text -/

section Pass

variable {σ : Type*}

/-- `replaceWith` over marks: what replaces a match sees the marks of the match. -/
def remark (f : Match → Marked → σ → Marked × σ) : List Piece → Marked → σ → Marked × σ
  | [], _, st => ([], st)
  | .char _ :: ps, ms, st =>
    let rest := remark f ps (ms.drop 1) st
    (ms.take 1 ++ rest.1, rest.2)
  | .hit m :: ps, ms, st =>
    let new := f m (ms.take m.text.length) st
    let rest := remark f ps (ms.drop m.text.length) new.2
    (new.1 ++ rest.1, rest.2)

variable {ps : List Piece} {f : Match → Marked → σ → Marked × σ}

/-- The marks of the pieces of a text, one after the other. -/
theorem text_split {p : Piece} (h : text ms = (p :: ps).flatMap Piece.text) :
    text (ms.take p.text.length) = p.text ∧
      text (ms.drop p.text.length) = ps.flatMap Piece.text := by
  rw [text_take, text_drop, h, List.flatMap_cons]
  exact ⟨List.take_left, List.drop_left⟩

/-- The pass over the marks is the pass over the text. -/
theorem text_remark {g : Match → σ → Text × σ}
    (hf : ∀ m ms st, text ms = m.text → text (f m ms st).1 = (g m st).1 ∧ (f m ms st).2 = (g m
      st).2) (hms : text ms = ps.flatMap Piece.text) (st : σ) :
    text (remark f ps ms st).1 = (replaceWith g ps st).1 := by
  induction ps generalizing ms st with
  | nil => rfl
  | cons p ps ih =>
    obtain ⟨hhead, htail⟩ := text_split hms
    cases p with
    | char c =>
      have hchar : text (ms.take 1) = [c] := hhead
      rw [remark, replaceWith, text_append, hchar]
      exact congrArg (c :: ·) (ih htail st)
    | hit m =>
      obtain ⟨htext, hst⟩ := hf m (ms.take m.text.length) st hhead
      rw [remark, replaceWith, text_append, htext, ← hst]
      exact congrArg ((g m st).1 ++ ·) (ih htail _)

theorem written_put_sublist (t : Text) (ms : Marked) : (written (put t)).Sublist (written ms) := by
  rw [written_put]
  exact List.nil_sublist _

theorem written_split (n : Nat) (ms : Marked) :
    written ms = written (ms.take n) ++ written (ms.drop n) := by
  rw [← written_append, List.take_append_drop]

/-- What is left of the template after a pass was there before it. -/
theorem written_remark (hf : ∀ m ms st, (written (f m ms st).1).Sublist (written ms))
    (ps : List Piece) (ms : Marked) (st : σ) :
    (written (remark f ps ms st).1).Sublist (written ms) := by
  induction ps generalizing ms st with
  | nil => exact List.nil_sublist _
  | cons p ps ih =>
    cases p with
    | char c =>
      rw [remark, written_append, written_split 1 ms]
      exact (List.Sublist.refl _).append (ih _ _)
    | hit m =>
      rw [remark, written_append, written_split m.text.length ms]
      exact (hf m _ st).append (ih _ _)

end Pass

/-! ### Filling -/

/-- The word stands here in one piece of the template. -/
def writtenHere (w : Text) : Marked → Bool
  | ⟨c, some i⟩ :: ms => template i w <+: ⟨c, some i⟩ :: ms
  | _ => false

/-- The word's length of text is replaced where the test says so, from the left. -/
def fillLoop (here : Marked → Bool) (w content : Text) : Nat → Marked → Marked
  | _, [] => []
  | 0, ms => ms
  | n + 1, m :: ms =>
    if here (m :: ms) then
      put content ++ fillLoop here w content n ((m :: ms).drop w.length)
    else m :: fillLoop here w content n ms

/-- Every `w` that is written in the template is replaced. -/
def fill (w content : Text) (ms : Marked) : Marked :=
  fillLoop (writtenHere w) w content ms.length ms

/-- `strings.ReplaceAll` of a word. -/
def replaceWord (w content t : Text) : Text := (word w).replaceAll (fun _ => content) t

theorem prefix_of_writtenHere (h : writtenHere w ms = true) : w <+: text ms := by
  unfold writtenHere at h
  split at h
  · have hmap := (of_decide_eq_true h).map Mark.char
    rwa [← text, text_template] at hmap
  · cases h

theorem le_of_mem_template {m : Mark} (h : m ∈ template i t) : ∃ j, m.place = some j ∧ i ≤ j := by
  induction t generalizing i with
  | nil => cases h
  | cons c t ih =>
    obtain rfl | h := List.mem_cons.mp h
    · exact ⟨i, rfl, Nat.le_refl i⟩
    · obtain ⟨j, hj, hle⟩ := ih h
      exact ⟨j, hj, Nat.le_of_succ_le hle⟩

theorem prefix_of_template_sublist (h : (template i w).Sublist (template i t)) : w <+: t := by
  induction w generalizing i t with
  | nil => exact List.nil_prefix
  | cons c w ih =>
    cases t with
    | nil => cases h
    | cons d t =>
      cases h with
      | cons _ hskip =>
        -- the places after the first are all greater
        obtain ⟨j, hj, hle⟩ := le_of_mem_template (hskip.subset List.mem_cons_self)
        exact absurd (Option.some.inj hj) (Nat.ne_of_lt hle)
      | cons_cons _ htail => exact List.cons_prefix_cons.mpr ⟨rfl, ih htail⟩

theorem infix_of_template_sublist {j : Nat} (hw : w ≠ [])
    (h : (template i w).Sublist (template j t)) : w <:+: t := by
  obtain ⟨c, w, rfl⟩ := List.exists_cons_of_ne_nil hw
  induction t generalizing j with
  | nil => cases h
  | cons d t ih =>
    cases h with
    | cons _ hskip => exact List.infix_cons_iff.mpr (.inr (ih hskip))
    | cons_cons _ htail =>
      exact (List.cons_prefix_cons.mpr ⟨rfl, prefix_of_template_sublist htail⟩).isInfix

theorem written_template (i : Nat) (t : Text) : written (template i t) = template i t := by
  refine List.filter_eq_self.mpr fun m hm => ?_
  obtain ⟨j, hj, -⟩ := le_of_mem_template hm
  rw [hj]
  rfl

/-- A word written in the marks is a word of the template. -/
theorem infix_of_writtenHere (hw : w ≠ []) (hms : (written ms).Sublist (template 0 t))
    {s : Marked} (hs : s <:+ ms) (h : writtenHere w s = true) : w <:+: t := by
  unfold writtenHere at h
  split at h
  · next c i rest =>
    have hsub : (template i w).Sublist ms := (of_decide_eq_true h).sublist.trans hs.sublist
    have hkept := written_sublist hsub
    rw [written_template] at hkept
    exact infix_of_template_sublist hw (hkept.trans hms)
  · cases h

/-! ### Replacing in the plain text -/

/-- The word stands here, of whatever it is made up. -/
def standsHere (w : Text) (ms : Marked) : Bool := w <+: text ms

variable {here : Marked → Bool}

theorem fillLoop_congr {other : Marked → Bool} (h : ∀ s, s <:+ ms → here s = other s) (n : Nat) :
    fillLoop here w content n ms = fillLoop other w content n ms := by
  induction n generalizing ms with
  | zero => cases ms <;> rfl
  | succ n ih =>
    cases ms with
    | nil => rfl
    | cons m ms =>
      have hrest := fun k => ih fun s hs => h s (hs.trans (List.drop_suffix k (m :: ms)))
      have hnext : fillLoop here w content n ms = fillLoop other w content n ms := hrest 1
      rw [fillLoop, fillLoop, h _ (List.suffix_refl _), hrest w.length, hnext]

/-- Replacing in the text replaces the word wherever it stands. -/
theorem text_fillLoop (hw : w ≠ []) (n : Nat) (ms : Marked) :
    text (fillLoop (standsHere w) w content n ms) =
      ((word w).piecesLoop n (text ms)).flatMap (Piece.replaced fun _ => content) := by
  induction n generalizing ms with
  | zero =>
    cases ms with
    | nil => rfl
    | cons m ms =>
      change text (m :: ms) = ((text (m :: ms)).map Piece.char).flatMap (Piece.replaced _)
      rw [List.flatMap_map]
      exact (List.flatMap_singleton' _).symm
  | succ n ih =>
    cases ms with
    | nil => rfl
    | cons m ms =>
      change text (fillLoop _ w content (n + 1) (m :: ms)) =
        ((word w).piecesLoop (n + 1) (m.char :: text ms)).flatMap (Piece.replaced fun _ => content)
      rw [fillLoop, piecesLoop, first_word]
      by_cases hhere : w <+: m.char :: text ms
      · have hstands : standsHere w (m :: ms) = true := decide_eq_true hhere
        rw [if_pos hstands, if_pos hhere, text_append, text_put, ih, text_drop]
        change _ = List.flatMap _ (if w = [] then _ else _)
        rw [if_neg hw]
        rfl
      · have hnext : text (fillLoop _ w content n ms) = _ := ih ms
        have hstands : ¬standsHere w (m :: ms) = true := fun h => hhere (of_decide_eq_true h)
        rw [if_neg hstands, if_neg hhere, List.flatMap_cons, ← hnext]
        rfl

theorem replaceWord_eq (hw : w ≠ []) (content : Text) (ms : Marked) :
    replaceWord w content (text ms) =
      text (fillLoop (standsHere w) w content ms.length ms) := by
  rw [text_fillLoop hw, replaceWord, replaceAll, pieces, length_text]

/-! ### Where the word may stand -/

/-- No end of the word is a beginning of it, so it never overlaps itself. -/
def Borderless (w : Text) : Prop := ∀ k < w.length, k ≠ 0 → ¬ w.drop k <+: w

instance : Decidable (Borderless w) :=
  inferInstanceAs (Decidable (∀ k < w.length, k ≠ 0 → ¬ w.drop k <+: w))

theorem Borderless.apart (h : Borderless w) (hms : w <+: text ms) {k : Nat} (hk : k < w.length)
    (h0 : k ≠ 0) : ¬ w <+: text (ms.drop k) := by
  intro hlater
  refine h k hk h0 ?_
  rw [text_drop] at hlater
  refine List.prefix_of_prefix_length_le (hms.drop k) hlater ?_
  rw [List.length_drop]
  exact Nat.sub_le _ _

/-- How often the test says so. -/
def count (here : Marked → Bool) (ms : Marked) : Nat := (ms.tails.filter here).length

theorem count_cons (m : Mark) :
    count here (m :: ms) = (if here (m :: ms) then 1 else 0) + count here ms := by
  rw [count, List.tails_cons, List.filter_cons]
  split
  · rw [List.length_cons, Nat.add_comm, count]
  · rw [Nat.zero_add, count]

theorem count_drop {k : Nat} (hk : k ≤ ms.length) (h : ∀ i < k, here (ms.drop i) = false) :
    count here ms = count here (ms.drop k) := by
  induction k generalizing ms with
  | zero => rfl
  | succ k ih =>
    cases ms with
    | nil => cases hk
    | cons m ms =>
      have hhead : here (m :: ms) = false := h 0 (Nat.succ_pos k)
      rw [count_cons, hhead, if_neg Bool.false_ne_true, Nat.zero_add, List.drop_succ_cons]
      exact ih (Nat.le_of_succ_le_succ hk) fun i hi => h (i + 1) (Nat.succ_lt_succ hi)

/-- Emptied where the test says so, a text is shorter by as many words. -/
theorem length_fillLoop (hw : w ≠ []) (hword : Borderless w)
    (hhere : ∀ s, here s = true → w <+: text s) {n : Nat} (hn : ms.length ≤ n) :
    (fillLoop here w [] n ms).length + count here ms * w.length = ms.length := by
  have hnil : here [] = false := Bool.eq_false_iff.mpr fun h =>
    hw (List.prefix_nil.mp (hhere [] h))
  induction n generalizing ms with
  | zero =>
    obtain rfl := List.eq_nil_of_length_eq_zero (Nat.le_zero.mp hn)
    simp [fillLoop, count, hnil]
  | succ n ih =>
    cases ms with
    | nil => simp [fillLoop, count, hnil]
    | cons m ms =>
      have hn : ms.length ≤ n := Nat.le_of_succ_le_succ hn
      have hpos := List.length_pos_iff.mpr hw
      rw [fillLoop, count_cons]
      split
      · next h =>
        have hstands := hhere _ h
        have hlen : w.length ≤ ms.length + 1 := by simpa using hstands.length_le
        -- the word does not begin again before it ends
        have hskip : count here ms = count here (ms.drop (w.length - 1)) := by
          refine count_drop (by omega) fun i hi => Bool.eq_false_iff.mpr fun hi' => ?_
          exact hword.apart hstands (Nat.add_lt_of_lt_sub hi) (Nat.succ_ne_zero i) (hhere _ hi')
        have hdrop : (m :: ms).drop w.length = ms.drop (w.length - 1) := by
          obtain ⟨k, hk⟩ := Nat.exists_eq_succ_of_ne_zero hpos.ne'
          rw [hk, List.drop_succ_cons, Nat.succ_sub_one]
        have hrest := @ih (ms.drop (w.length - 1)) (by rw [List.length_drop]; omega)
        rw [List.length_drop] at hrest
        rw [hdrop, hskip, put, List.map_nil, List.nil_append, List.length_cons, Nat.add_mul]
        omega
      · rw [Nat.zero_add, List.length_cons, List.length_cons, ← ih hn]
        omega

/-- The word stands only where it is written in the template. -/
def OnlyWritten (w : Text) (ms : Marked) : Prop :=
  ∀ s ∈ ms.tails, standsHere w s = true → writtenHere w s = true

/-- Replacing the word in the text fills it where it is written, whatever the content, if and only
if it stands only there. -/
theorem replaceWord_iff (hw : w ≠ []) (hword : Borderless w) :
    (∀ content, replaceWord w content (text ms) = text (fill w content ms)) ↔ OnlyWritten w ms := by
  have hstands : ∀ s, writtenHere w s = true → standsHere w s = true := fun s h =>
    decide_eq_true (prefix_of_writtenHere h)
  constructor
  · intro h
    have hlen := congrArg List.length (h [])
    rw [replaceWord_eq hw, length_text, length_text] at hlen
    have hall := length_fillLoop hw hword (fun s (h : standsHere w s = true) => of_decide_eq_true h)
      ms.length.le_refl
    have hwritten := length_fillLoop hw hword
      (fun s (h : writtenHere w s = true) => prefix_of_writtenHere h) ms.length.le_refl
    rw [hlen, fill] at hall
    have hcount : count (writtenHere w) ms = count (standsHere w) ms :=
      Nat.eq_of_mul_eq_mul_right (List.length_pos_iff.mpr hw) (by omega)
    have hsame := (List.monotone_filter_right ms.tails hstands).eq_of_length hcount
    intro s hs hhere
    have hmem : s ∈ ms.tails.filter (standsHere w) := List.mem_filter.mpr ⟨hs, hhere⟩
    rw [← hsame] at hmem
    exact (List.mem_filter.mp hmem).2
  · intro h content
    have hsame : ∀ s, s <:+ ms → standsHere w s = writtenHere w s := fun s hs =>
      Bool.eq_iff_iff.mpr ⟨h s ((List.mem_tails _ _).mpr hs), hstands s⟩
    rw [replaceWord_eq hw, fillLoop_congr hsame, fill]

/-! ### Several words in turn -/

def fillAll (slots : List (Text × Text)) (ms : Marked) : Marked :=
  slots.foldl (fun ms slot => fill slot.1 slot.2 ms) ms

/-- Replacing each word fills it where it is written, whatever its content, in the text that the
words before it have left. -/
def FillsWritten : List (Text × Text) → Marked → Prop
  | [], _ => True
  | slot :: slots, ms =>
    (∀ content, replaceWord slot.1 content (text ms) = text (fill slot.1 content ms)) ∧
      FillsWritten slots (fill slot.1 slot.2 ms)

/-- Each word stands only where it is written, what was filled before it included. -/
def AllWritten : List (Text × Text) → Marked → Prop
  | [], _ => True
  | slot :: slots, ms => OnlyWritten slot.1 ms ∧ AllWritten slots (fill slot.1 slot.2 ms)

variable {slots : List (Text × Text)}

theorem fillsWritten_iff (hw : ∀ slot ∈ slots, slot.1 ≠ [] ∧ Borderless slot.1) :
    FillsWritten slots ms ↔ AllWritten slots ms := by
  induction slots generalizing ms with
  | nil => exact Iff.rfl
  | cons slot slots ih =>
    obtain ⟨hne, hword⟩ := hw slot List.mem_cons_self
    exact and_congr (replaceWord_iff hne hword) (ih fun s hs => hw s (List.mem_cons_of_mem _ hs))

theorem text_fillAll (h : FillsWritten slots ms) :
    text (fillAll slots ms) =
      slots.foldl (fun t slot => replaceWord slot.1 slot.2 t) (text ms) := by
  induction slots generalizing ms with
  | nil => rfl
  | cons slot slots ih =>
    obtain ⟨hslot, hrest⟩ := h
    rw [fillAll, List.foldl_cons, ← fillAll, List.foldl_cons, ih hrest, hslot]

end Provenance

end Loomcycle.Lib
