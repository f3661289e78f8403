import Loomcycle.PromptInject.Inject

/-! The frames of untrusted bodies. The closing tag of a frame is in it once, at its end: bodies of
memory and tools are neutralised, whatever their text, and no attribute can have a `<`; a
document's body is not neutralised, and closes its frame when it has the tag. -/

namespace Loomcycle.PromptInject
open Lib Lib.Regex

variable {inp : ExpandInput}

/-! ### Occurrences of a tag -/

/-- The stem of a closing tag is in the text once, and only `>` follows it. -/
def ClosesOnce (stem t : Text) : Prop :=
  (∃ l, t = l ++ stem ++ ['>']) ∧ ∀ a b, t.map base = a ++ stem ++ b → b = ['>']

def memoryStem : Text := "</memory".toList
def toolStem : Text := "</tool-result".toList
def documentStem : Text := "</document".toList

variable {c : Char} {t stem body : Text}

theorem toLower_eq_lt (h : c.toLower = '<') : c = '<' := by
  unfold Char.toLower at h
  split at h
  · have hval : c.val + ('a'.val - 'A'.val) = '<'.val := congrArg Char.val h
    grind
  · exact h

theorem base_eq_lt (h : base c = '<') : c = '<' := by
  rw [base] at h
  split_ifs at h
  · exact absurd h (by decide)
  · exact absurd h (by decide)
  · exact toLower_eq_lt h

theorem not_mem_toLower (h : '<' ∉ t) : '<' ∉ toLower t := by
  intro hmem
  obtain ⟨c, hc, hlower⟩ := List.mem_map.mp hmem
  split_ifs at hlower
  · exact absurd hlower (by decide)
  · exact h (toLower_eq_lt hlower ▸ hc)

theorem not_mem_map_base (h : '<' ∉ t) : '<' ∉ t.map base := by
  intro hmem
  obtain ⟨c, hc, hbase⟩ := List.mem_map.mp hmem
  exact h (base_eq_lt hbase ▸ hc)

/-- A text without `<` has no tag. -/
theorem not_infix_of_not_mem {w : Text} (h : '<' ∉ t) : ¬ ('<' :: w) <:+: t.map base :=
  fun hocc => not_mem_map_base h (hocc.subset List.mem_cons_self)

/-- Nor has an opening tag whose attributes have no `<`. -/
theorem not_infix_opening {w : Text} (hc : base c ≠ '/') (h : '<' ∉ c :: t) :
    ¬ ('<' :: '/' :: w) <:+: ('<' :: c :: t).map base := by
  intro hocc
  obtain hhead | hocc := List.infix_cons_iff.mp hocc
  · have hslash := (List.cons_prefix_cons.mp (List.cons_prefix_cons.mp hhead).2).1
    exact hc hslash.symm
  · exact not_infix_of_not_mem h hocc

/-- A stem that may close a frame: a word in lower case after the only `<`. -/
structure Stem (stem : Text) : Prop where
  head : ∃ w, stem = '<' :: '/' :: w ∧ '<' ∉ w
  line : '\n' ∉ stem
  lower : stem.map base = stem

theorem Stem.ne_nil (h : Stem stem) : stem ≠ [] := by
  obtain ⟨w, rfl, -⟩ := h.head
  exact List.cons_ne_nil _ _

/-- The lines of a frame, none of which but the last has the closing tag. -/
theorem closesOnce_lines (hstem : Stem stem) {lines : List Text}
    (h : ∀ l ∈ lines, ¬ stem <:+: l.map base) :
    ClosesOnce stem (lines.foldr (fun l t => l ++ '\n' :: t) (stem ++ ['>'])) := by
  induction lines with
  | nil =>
    refine ⟨⟨[], rfl⟩, fun a b heq => ?_⟩
    rw [List.foldr_nil, List.map_append, hstem.lower] at heq
    obtain ⟨w, rfl, hlt⟩ := hstem.head
    exact rest_of_cons (by simpa using hlt) (by decide) heq
  | cons l lines ih =>
    obtain ⟨⟨front, hfront⟩, honce⟩ := ih fun l' hl' => h l' (List.mem_cons_of_mem _ hl')
    refine ⟨⟨l ++ '\n' :: front, ?_⟩, fun a b heq => ?_⟩
    · rw [List.foldr_cons, hfront]
      simp
    · rw [List.foldr_cons, List.map_append, List.map_cons] at heq
      obtain ⟨a', ha'⟩ := split_of_cons hstem.line hstem.ne_nil (h l List.mem_cons_self) heq
      exact honce a' b ha'

theorem stem_memory : Stem memoryStem := ⟨⟨_, rfl, by decide⟩, by decide, by decide⟩

theorem stem_tool : Stem toolStem := ⟨⟨_, rfl, by decide⟩, by decide, by decide⟩

theorem stem_document : Stem documentStem := ⟨⟨_, rfl, by decide⟩, by decide, by decide⟩

/-! ### Neutralised bodies -/

section Neutral

variable {names : List String}

theorem matches_tagRe {name : String} (hname : name ∈ names)
    (h : t.map base = '<' :: '/' :: name.toList) : (tagRe names).Matches t := by
  obtain _ | ⟨d, _ | ⟨e, t⟩⟩ := t
  · cases h
  · cases (List.cons.inj h).2
  obtain ⟨hd, h⟩ := List.cons.inj h
  obtain ⟨he, h⟩ := List.cons.inj h
  have hword : (lit name).ci.Matches t := by
    rw [lit, ← h]
    exact matches_word t
  have hlt := matches_word [d]
  have hslash := matches_word [e]
  rw [List.map_singleton, hd] at hlt
  rw [List.map_singleton, he] at hslash
  rw [← List.append_nil t]
  exact .seq hlt (.seq (.inl hslash) (.seq (matches_oneOf (List.mem_map_of_mem hname) hword) .eps))

/-- A match is `<` and something without another `<`. -/
theorem text_of_tagRe (hnames : (oneOf (names.map lit)).ci.avoids '<' = true) {u : Text}
    (h : (tagRe names).Matches u) : ∃ d t, u = d :: t ∧ '<' ∉ t := by
  have havoids : (cat [opt (lit "/"), oneOf (names.map lit)]).ci.avoids '<' = true := by
    simp only [cat, List.foldr_cons, List.foldr_nil, ci, avoids, hnames, Bool.and_true]
    decide
  cases h with
  | seq hlt hrest =>
    obtain - | - | ⟨hc, heps⟩ := hlt
    cases hc
    cases heps
    exact ⟨_, _, rfl, hrest.not_mem havoids⟩

/-- No tag closes from inside a neutralised body. -/
theorem not_infix_neutralize (hnames : (oneOf (names.map lit)).ci.avoids '<' = true)
    {name : String} (hname : name ∈ names) (hamp : '&' ∉ '/' :: name.toList) (body : Text) :
    ¬ ('<' :: '/' :: name.toList) <:+: (neutralize names body).map base := by
  refine (cut_pieces _ body).gone (fun t ht => matches_tagRe hname ht) (fun t ht => ?_)
    fun m hm => ?_
  · obtain ⟨d, t, rfl, -⟩ := text_of_tagRe hnames ht
    exact List.cons_ne_nil d t
  · obtain ⟨s, rest, hfirst⟩ := first_of_hit hm
    obtain ⟨d, t, htext, hlt⟩ := text_of_tagRe hnames (matches_of_first hfirst).2
    refine ⟨?_, '&', _, rfl, hamp⟩
    rw [htext]
    exact not_mem_map_base (by simpa using hlt)

end Neutral

/-! ### Frames -/

/-- What the budget leaves of a body. -/
def Taken (body taken : Text) : Prop :=
  taken = body ∨ ∃ n, taken = truncateBytes n body ++ truncationMark

/-- The frame of a body of memory or of a tool, with the stem of its closing tag. -/
inductive Framing (inp : ExpandInput) : Text → Text → (Text → Text) → Prop
  | memory {v : Text} : '<' ∉ v →
      Framing inp memoryStem (trimSpace (inp.sections v)) (frame v)
  | memoryRef {ref : MemoryRef} : '<' ∉ ref.kind → '<' ∉ ref.arg →
      Framing inp memoryStem (trimSpace (inp.memoryRefs ref)) (frameMemoryRef ref)
  | toolResult {ref : ToolRef} : '<' ∉ ref.tool → '<' ∉ ref.op →
      Framing inp toolStem (trimSpace (inp.toolResults ref)) (frameToolResult ref)
  | toolCall {call : ToolCall} : '<' ∉ call.tool → '<' ∉ call.arg →
      Framing inp toolStem (trimSpace (inp.toolCalls call)) (frameToolCall call)

theorem closesOnce_framed {opening note : Text} (hstem : Stem stem)
    (hopening : ¬ stem <:+: opening.map base) (hnote : ¬ stem <:+: note.map base)
    (hbody : ¬ stem <:+: body.map base) :
    ClosesOnce stem (framed opening note body (stem ++ ['>'])) := by
  have hlines : ∀ l ∈ [opening, note, body], ¬ stem <:+: l.map base := by
    intro l hl
    rcases List.mem_cons.mp hl with rfl | hl
    · exact hopening
    rcases List.mem_cons.mp hl with rfl | hl
    · exact hnote
    · exact List.mem_singleton.mp hl ▸ hbody
  exact closesOnce_lines hstem hlines

theorem closesOnce_memory (ht : '<' ∉ t) (body : Text) : ClosesOnce memoryStem
    (framed ('<' :: 'm' :: t) memoryNote (neutralizeFrameEscape body) (memoryStem ++ ['>'])) := by
  have hname : "memory" ∈ ["memory"] := List.mem_cons_self
  have hbody := not_infix_neutralize (by decide) hname (by decide) body
  exact closesOnce_framed stem_memory (not_infix_opening (by decide) (by simp [ht]))
    (not_infix_of_not_mem (by decide)) hbody

theorem closesOnce_frame {v : Text} (hv : '<' ∉ v) (body : Text) :
    ClosesOnce memoryStem (frame v body) :=
  closesOnce_memory (t := "emory source=\"".toList ++ v ++ "\">".toList) (by simp [hv]) body

theorem closesOnce_tool {note : Text} (ht : '<' ∉ t) (hnote : '<' ∉ note) (body : Text) :
    ClosesOnce toolStem
      (framed ('<' :: 't' :: t) note (neutralizeToolFrameEscape body) (toolStem ++ ['>'])) := by
  have hname : "tool-result" ∈ ["tool-result", "memory"] := List.mem_cons_self
  have hbody := not_infix_neutralize (by decide) hname (by decide) body
  exact closesOnce_framed stem_tool (not_infix_opening (by decide) (by simp [ht]))
    (not_infix_of_not_mem hnote) hbody

/-- A frame that closes once has no other closing tag before a line break. -/
theorem ClosesOnce.not_infix {frame u v w : Text} (h : ClosesOnce stem frame)
    (heq : frame = u ++ body ++ (v ++ '\n' :: w)) : ¬ stem <:+: body.map base := by
  subst heq
  rintro ⟨a, b, hocc⟩
  have hend := h.2 (u.map base ++ a) (b ++ (v ++ '\n' :: w).map base) (by simp [← hocc])
  have hline : base '\n' ∈ ['>'] := by
    rw [← hend]
    exact List.mem_append_right _ (List.mem_map_of_mem (by simp))
  exact absurd hline (by decide)

/-- A document's frame closes once if and only if neither its ref nor its body has the tag. -/
theorem closesOnce_frameDocument {ref : DocRef} :
    ClosesOnce documentStem (frameDocument ref body) ↔
      ¬ documentStem <:+: ref.string.map base ∧ ¬ documentStem <:+: body.map base := by
  constructor
  · intro h
    have href : frameDocument ref body = "<document src=\"".toList ++ ref.string ++
      ("\">".toList ++ '\n' :: (body ++ '\n' :: "</document>".toList)) := List.append_assoc ..
    have hlines : ∀ a b c : Text, a ++ '\n' :: (b ++ c) = a ++ ['\n'] ++ b ++ c := by simp
    have hbody : frameDocument ref body = "<document src=\"".toList ++ ref.string ++
      "\">".toList ++ ['\n'] ++ body ++ ([] ++ '\n' :: "</document>".toList) := hlines _ body _
    exact ⟨ClosesOnce.not_infix h href, ClosesOnce.not_infix h hbody⟩
  · rintro ⟨href, hbody⟩
    have hlines : ∀ l ∈ ["<document src=\"".toList ++ ref.string ++ "\">".toList, body],
        ¬ documentStem <:+: l.map base := by
      intro l hl
      rcases List.mem_cons.mp hl with rfl | hl
      · -- a quote is on both sides of the ref, and in no tag
        have hopen : ("<document src=\"".toList).map base =
            ("<document src=".toList).map base ++ ['"'] := by decide
        have hclose : ("\">".toList).map base = ['"', '>'] := by decide
        rw [List.map_append, List.map_append, hopen, hclose, List.append_assoc, List.append_assoc]
        refine not_infix_cons (by decide) stem_document.ne_nil (by decide) ?_
        exact not_infix_cons (by decide) stem_document.ne_nil href (by decide)
      · exact List.mem_singleton.mp hl ▸ hbody
    exact closesOnce_lines stem_document hlines

theorem closesOnce_of_framing {taken : Text} {framing : Text → Text}
    (h : Framing inp stem body framing) : ClosesOnce stem (framing taken) := by
  cases h with
  | memory hv => exact closesOnce_frame hv taken
  | @memoryRef ref hkind harg =>
    refine closesOnce_memory
      (t := "emory ".toList ++ ref.kind ++ "=\"".toList ++ ref.arg ++ "\">".toList) ?_ taken
    simp [hkind, harg]
  | @toolResult ref htool hop =>
    refine closesOnce_tool (t := "ool-result tool=\"".toList ++ ref.tool ++ "\" op=\"".toList ++
      ref.op ++ "\">".toList) ?_ ?_ taken
    · simp [htool, hop]
    · simp [htool, hop]
  | @toolCall call htool harg =>
    refine closesOnce_tool (t := "ool-result tool=\"".toList ++ call.tool ++ "\" arg=\"".toList ++
      call.arg ++ "\">".toList) ?_ ?_ taken
    · simp [htool, harg]
    · simp [htool, harg]

end Loomcycle.PromptInject
