import Loomcycle.TeamRun.Compose

/-! Data slots are filled where the template has their markers. The passes over a template are
followed on its marks: a character of the result has its place in the template, or was put in by
a value, a body or a slot's content. Filling then means to replace the markers that stand in one
piece of the template. Replacement in the plain text does just that when no other marker arises,
and not otherwise: values that each pass the check make up a marker together. -/

namespace Loomcycle.TeamRun
open Lib Lib.Regex Lib.Provenance PromptInject

/-! ### The marks of the passes -/

/-- What replaces a match is put in, but for an escaped one, which stays without its escape. -/
def markMatch (inp : ExpandInput) (m : Match) (ms : Marked) (st : Pass) : Marked × Pass :=
  let new := expandMatch inp m.text st
  (if m.text.head? = some '\\' ∧ new.1 = m.text.tail then ms.tail else put new.1, new.2)

/-- The marks of an expanded segment. -/
def Caller.markSegment (c : Caller) (srv : Server) (segment : Text) (operatorAuthored : Bool) :
    Marked :=
  let inp := c.input srv operatorAuthored
  if c.isPlain then template 0 segment
  else (remark (markMatch inp) (inp.re.pieces segment) (template 0 segment) inp.start).1

/-- A fallback is text of the template, right before the closing brace. -/
def markFallback (t : Text) (ms : Marked) : Marked :=
  let own := ms.dropLast.drop (ms.length - 1 - t.length)
  if text own = t then own else put t

def Env.markVariable (env : Env) (m : Match) (ms : Marked) (refused : List Text) :
    Marked × List Text :=
  (match (env.variable m.text).1 with
    | .value t => put t
    | .fallback t => markFallback t ms,
   refused ++ (env.variable m.text).2)

def Env.markToken (env : Env) (m : Match) (_ : Marked) (_ : Unit) : Marked × Unit :=
  (put (env.token m.text), ())

/-- The marks of an expanded string. -/
def markExpand (s : Text) (env : Env) : Marked :=
  let ms := (remark env.markVariable (varRe.pieces s) (template 0 s) []).1
  if !contains s "$\x7b".toList then template 0 s
  else (remark env.markToken (tokenRe.pieces (text ms)) ms ()).1

theorem text_tail {ms : Marked} : text ms.tail = (text ms).tail := List.map_tail ..

section Passes

variable {c : Caller} {srv : Server} {inp : ExpandInput} {env : Env}

theorem text_markMatch {m : Match} {ms : Marked} (h : text ms = m.text) (st : Pass) :
    text (markMatch inp m ms st).1 = (expandMatch inp m.text st).1 ∧
      (markMatch inp m ms st).2 = (expandMatch inp m.text st).2 := by
  refine ⟨?_, rfl⟩
  rw [markMatch]
  split
  · next hescaped => rw [text_tail, h, hescaped.2]
  · exact text_put _

theorem written_markMatch (m : Match) (ms : Marked) (st : Pass) :
    (written (markMatch inp m ms st).1).Sublist (written ms) := by
  rw [markMatch]
  split
  · exact written_sublist (List.tail_sublist ms)
  · exact written_put_sublist _ _

theorem text_markSegment (segment : Text) (authored : Bool) :
    text (c.markSegment srv segment authored) = c.expandSegment srv segment authored := by
  rw [Caller.markSegment, Caller.expandSegment]
  split
  · exact text_template 0 segment
  · have hpass := text_remark (f := markMatch (c.input srv authored))
      (fun m ms st h => text_markMatch h st)
      ((text_template 0 segment).trans (pieces_text (c.input srv authored).re segment).symm)
      (c.input srv authored).start
    rw [hpass]
    -- a segment has no sections, so nothing is appended to it
    exact (if_pos (.inr (.inl rfl))).symm

theorem written_markSegment (segment : Text) (authored : Bool) :
    (written (c.markSegment srv segment authored)).Sublist (template 0 segment) := by
  rw [Caller.markSegment]
  split
  · exact List.filter_sublist
  · exact (written_remark written_markMatch _ _ _).trans List.filter_sublist

theorem text_markFallback (t : Text) (ms : Marked) : text (markFallback t ms) = t := by
  rw [markFallback]
  split
  · next h => exact h
  · exact text_put t

theorem written_markFallback (t : Text) (ms : Marked) :
    (written (markFallback t ms)).Sublist (written ms) := by
  rw [markFallback]
  split
  · exact written_sublist ((List.drop_sublist _ _).trans (List.dropLast_sublist ms))
  · exact written_put_sublist _ _

theorem text_markVariable (m : Match) (ms : Marked) (refused : List Text) :
    text (env.markVariable m ms refused).1 = (env.variable m.text).1.text := by
  rw [Env.markVariable]
  cases (env.variable m.text).1 with
  | value t => exact text_put t
  | fallback t => exact text_markFallback t ms

theorem written_markVariable (m : Match) (ms : Marked) (refused : List Text) :
    (written (env.markVariable m ms refused).1).Sublist (written ms) := by
  rw [Env.markVariable]
  cases (env.variable m.text).1 with
  | value t => exact written_put_sublist _ _
  | fallback t => exact written_markFallback t ms

theorem text_markTokens (ms : Marked) :
    text (remark env.markToken (tokenRe.pieces (text ms)) ms ()).1 =
      tokenRe.replaceAll (fun m => env.token m.text) (text ms) := by
  have hpass := text_remark (f := env.markToken) (g := fun m _ => (env.token m.text, ()))
    (fun m ms st _ => ⟨text_put _, rfl⟩) (pieces_text tokenRe (text ms)).symm ()
  rw [hpass]
  exact replaceWith_eq (g := fun m => env.token m.text) (I := fun _ : Unit => True)
    (fun _ _ _ => ⟨rfl, trivial⟩) _ trivial

theorem text_markExpand (s : Text) (env : Env) : text (markExpand s env) = (expand s env).1 := by
  rw [markExpand, expand]
  split
  · exact text_template 0 s
  · rw [text_markTokens]
    refine congrArg (tokenRe.replaceAll _) (text_remark (fun m ms refused _ => ?_) ?_ [])
    · exact ⟨text_markVariable m ms refused, rfl⟩
    · rw [text_template, pieces_text]

theorem written_markExpand (s : Text) (env : Env) :
    (written (markExpand s env)).Sublist (template 0 s) := by
  rw [markExpand]
  split
  · exact List.filter_sublist
  · have htokens := written_remark (f := env.markToken) fun _ _ _ => written_put_sublist _ _
    exact ((htokens _ _ _).trans (written_remark written_markVariable _ _ _)).trans
      List.filter_sublist

end Passes

/-! ### Slots -/

def DataSlots.words (slots : DataSlots) : List (Text × Text) :=
  slots.map fun slot => (slot.1.marker, slot.2)

theorem Slot.marker_ne_nil (slot : Slot) : slot.marker ≠ [] := by cases slot <;> decide

theorem Slot.borderless_marker (slot : Slot) : Borderless slot.marker := by
  cases slot <;> decide +kernel

theorem applyDataSlots_eq (text : Text) (slots : DataSlots) :
    applyDataSlots text slots =
      slots.words.foldl (fun t slot => replaceWord slot.1 slot.2 t) text := by
  have hfold : slots.foldl (fun text slot => replaceWord slot.1.marker slot.2 text) text =
      slots.words.foldl (fun t slot => replaceWord slot.1 slot.2 t) text := by
    rw [DataSlots.words, List.foldl_map]
  rw [applyDataSlots, ← hfold]
  split
  · next h =>
    obtain rfl | rfl := h
    · -- nothing is replaced in the empty text
      clear hfold
      induction slots with
      | nil => rfl
      | cons slot slots ih => exact ih
    · rfl
  · rfl

/-- The marks are those of the expanded template: each character is put in or has its place in the
template, and a marker written in them is one the template has. -/
structure MarksOf (segment expanded : Text) (ms : Marked) : Prop where
  text_eq : text ms = expanded
  written_sublist : (written ms).Sublist (template 0 segment)
  marker_in_template : ∀ (slot : Slot) (s : Marked), s <:+ ms → writtenHere slot.marker s = true →
    slot.marker <:+: segment

theorem marksOf {segment expanded : Text} {ms : Marked} (htext : text ms = expanded)
    (hwritten : (written ms).Sublist (template 0 segment)) : MarksOf segment expanded ms where
  text_eq := htext
  written_sublist := hwritten
  marker_in_template slot _ hs hhere := infix_of_writtenHere slot.marker_ne_nil hwritten hs hhere

/-- Each slot is filled in just the markers the template has in one piece, whatever its content, if
and only if its marker stands nowhere else in the text it is filled in; `out` is then the text of
the marks so filled. -/
structure FilledWhereWritten (segment expanded : Text) (slots : DataSlots) (ms : Marked)
    (out : Text) : Prop extends MarksOf segment expanded ms where
  filled_iff : FillsWritten slots.words ms ↔ AllWritten slots.words ms
  out_eq : AllWritten slots.words ms → out = text (fillAll slots.words ms)

theorem filledWhereWritten {segment expanded : Text} {slots : DataSlots} {ms : Marked}
    (h : MarksOf segment expanded ms) :
    FilledWhereWritten segment expanded slots ms (applyDataSlots expanded slots) := by
  have hiff : FillsWritten slots.words ms ↔ AllWritten slots.words ms := by
    refine fillsWritten_iff fun word hword => ?_
    obtain ⟨slot, -, rfl⟩ := List.mem_map.mp hword
    exact ⟨slot.1.marker_ne_nil, slot.1.borderless_marker⟩
  exact { h with
    filled_iff := hiff
    out_eq := fun hall => by rw [applyDataSlots_eq, text_fillAll (hiff.mpr hall), h.text_eq] }

/-! ### The strings of a value -/

mutual

/-- The string values under a value. -/
def Value.texts : Value → List Text
  | .text t => [t]
  | .object fields => fieldTexts fields
  | .array items => itemTexts items
  | .other _ => []

def Value.fieldTexts : List (Text × Value) → List Text
  | [] => []
  | (_, v) :: fields => v.texts ++ fieldTexts fields

def Value.itemTexts : List Value → List Text
  | [] => []
  | v :: items => v.texts ++ itemTexts items

end

mutual

variable {g f : Text → Text}

theorem Value.mapText_congr :
    (v : Value) → (∀ t ∈ v.texts, f t = g t) →
    v.mapText f = v.mapText g
  | .text t, h => congrArg Value.text (h t List.mem_cons_self)
  | .object fields, h => congrArg Value.object (mapFields_congr fields h)
  | .array items, h => congrArg Value.array (mapItems_congr items h)
  | .other _, _ => rfl

theorem Value.mapFields_congr :
    (fields : List (Text × Value)) →
    (∀ t ∈ fieldTexts fields, f t = g t) → mapFields f fields = mapFields g fields
  | [], _ => rfl
  | (key, v) :: fields, h => by
    rw [mapFields, mapFields, v.mapText_congr fun t ht => h t (List.mem_append_left _ ht),
      mapFields_congr fields fun t ht => h t (List.mem_append_right _ ht)]

theorem Value.mapItems_congr :
    (items : List Value) →
    (∀ t ∈ itemTexts items, f t = g t) → mapItems f items = mapItems g items
  | [], _ => rfl
  | v :: items, h => by
    rw [mapItems, mapItems, v.mapText_congr fun t ht => h t (List.mem_append_left _ ht),
      mapItems_congr items fun t ht => h t (List.mem_append_right _ ht)]

end

/-- What a string of a decision's subject becomes: its markers filled where they are written. -/
def filledAbout (threaded : Text) (env : Env) (t : Text) : Text :=
  text (fill Slot.threadedOutput.marker threaded (markExpand t env))

/-! ### Filled where written -/

/-- The two segments of a caller and the strings a decision is about are their templates with
placeholders replaced, and the slots are filled just where the template has their markers if and
only if no marker arises elsewhere. -/
theorem slots_filled_where_written (c : Caller) (srv : Server) (slots : DataSlots) (about : Value)
    (env : Env) :
    FilledWhereWritten c.system (c.expandCallerSegments srv).1 (systemDataSlots slots)
      (c.markSegment srv c.system c.systemAuthored) (c.composeCallerText srv slots).1 ∧
    FilledWhereWritten c.user (c.expandCallerSegments srv).2 slots
      (c.markSegment srv c.user c.inputAuthored) (c.composeCallerText srv slots).2 ∧
    (∀ t ∈ about.texts, MarksOf t (expand t env).1 (markExpand t env) ∧
      ((∀ content, replaceWord Slot.threadedOutput.marker content (expand t env).1 =
        filledAbout content env t) ↔ OnlyWritten Slot.threadedOutput.marker (markExpand t env))) ∧
    ((∀ t ∈ about.texts, OnlyWritten Slot.threadedOutput.marker (markExpand t env)) →
      ∀ threaded, expandAbout about threaded env = about.mapText (filledAbout threaded env)) := by
  have hsegment := fun segment authored =>
    have htext : text (c.markSegment srv segment authored) = _ := text_markSegment segment authored
    marksOf htext (written_markSegment _ _)
  have habout : ∀ t, (∀ content, replaceWord Slot.threadedOutput.marker content (expand t env).1 =
      filledAbout content env t) ↔ OnlyWritten Slot.threadedOutput.marker (markExpand t env) := by
    intro t
    rw [← text_markExpand]
    exact replaceWord_iff Slot.threadedOutput.marker_ne_nil Slot.threadedOutput.borderless_marker
  refine ⟨filledWhereWritten (hsegment _ _), filledWhereWritten (hsegment _ _),
    fun t _ => ⟨?_, habout t⟩, fun h threaded => ?_⟩
  · exact marksOf (text_markExpand t env) (written_markExpand t env)
  · exact about.mapText_congr fun t ht => (habout t).mpr (h t ht) threaded

/-- Three values, none of which has two braces in a row. -/
def splitMarker : Caller where
  values := some [("var.a".toList, "\x7b".toList), ("var.b".toList, "\x7bthread.output\x7d".toList),
    ("var.c".toList, "\x7d".toList)]
  user := "\x7b\x7bthread.output\x7d\x7d $\x7bvar.a\x7d$\x7bvar.b\x7d$\x7bvar.c\x7d".toList

/-- The marker they make up is filled; the template has it once. -/
theorem adjacent_values_filled :
    (splitMarker.composeCallerText {} [(.threadedOutput, "x".toList)]).2 = "x x".toList ∧
    text (fillAll (DataSlots.words [(.threadedOutput, "x".toList)])
      (splitMarker.markSegment {} splitMarker.user false)) =
        "x \x7b\x7bthread.output\x7d\x7d".toList := by
  decide +kernel

end Loomcycle.TeamRun
