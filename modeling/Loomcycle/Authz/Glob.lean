import Loomcycle.Lib.Glob

/-! The glob language of selectors (`authz/selector.go`) and of the `skills:` allowlist
(`skillmatch/skillmatch.go`, which holds the same matcher a second time).

`globSeg` reads bytes and asks first whether the two bytes are equal. So a `?` stands for one byte
of a longer character, and a `*` in the pattern that meets a `*` in the name is taken as the plain
character and never remembered. Where neither is met, the matcher decides the language. -/

namespace Loomcycle.Authz

open Lib Lib.Encoding Lib.Utf8

def splitSlash (s : Bytes) : List Bytes := s.splitOn 47

def joinSlash (segs : List Bytes) : Bytes := [47].intercalate segs

/-- `strings.TrimPrefix(s, "/")`. -/
def trimSlash : Bytes → Bytes
  | [] => []
  | b :: rest => if b = 47 then rest else b :: rest

/-- `strings.ContainsAny(seg, "*?")`. -/
def hasMeta (seg : Bytes) : Bool := seg.any fun b => b == 42 || b == 63

inductive PatternError where
  | empty
  | emptySegment (pattern : Bytes)
  | climbs (pattern : Bytes)
  | control (pattern : Bytes)
deriving DecidableEq, Repr

/-- The text of an error; `quoted` is `%q`. -/
def PatternError.message (quoted : Bytes → String) : PatternError → String
  | .empty => "empty pattern"
  | .emptySegment pattern => "pattern " ++ quoted pattern ++ " has an empty segment"
  | .climbs pattern => "pattern " ++ quoted pattern ++ " climbs with .."
  | .control pattern => "pattern " ++ quoted pattern ++ " has a control or space character"

def checkSegment (pattern seg : Bytes) : Except PatternError Unit :=
  if seg = [] then .error (.emptySegment pattern)
  else if seg = [46, 46] then .error (.climbs pattern)
  else if seg.any fun c => c < 0x21 || c == 0x7f then .error (.control pattern)
  else .ok ()

/-- The segments of a pattern, and its text where it has no metacharacter. -/
def parseGlob (pattern : Bytes) : Except PatternError (List Bytes × Bytes) :=
  let pattern := trimSlash pattern
  if pattern = [] then .error .empty
  else do
    let segs := splitSlash pattern
    segs.forM (checkSegment pattern)
    .ok (segs, if segs.any hasMeta then [] else joinSlash segs)

/-- The two-index loop over one segment. Rests of the pattern and of the segment stand for the
indices `pi` and `si`, and the remembered pair for `star` and `mark`. -/
def globSeg (pat s : Bytes) : Bool := Glob.greedy Glob.byteStar Glob.byteHits pat s

def segMatch (pat seg : Bytes) : Bool :=
  if !hasMeta pat then pat == seg else globSeg pat seg

/-- A `**` segment. -/
def isDoublestar (seg : Bytes) : Bool := seg == [42, 42]

def doublestarMatch (pat path : List Bytes) : Bool := Glob.search isDoublestar segMatch pat path

def isMatchAll (pat : Bytes) : Bool := pat == [42] || pat == [42, 42]

/-- `skillmatch.matchPattern`. -/
def matchPattern (pat name : Bytes) : Bool :=
  if isMatchAll pat then true else doublestarMatch (splitSlash pat) (splitSlash name)

/-! ## The language -/

/-- The segment is the pattern with each `*` replaced by a run of characters and each `?` by one
character. -/
def SegmentOf (pat seg : Bytes) : Prop :=
  Glob.Matches Glob.charStar Glob.CharHits (chunks pat) (chunks seg)

/-- The path is the pattern with each `**` segment replaced by zero or more segments and each
other segment by one of its texts. -/
def PathOf (pat path : List Bytes) : Prop := Glob.Matches isDoublestar SegmentOf pat path

/-- A sign of the pattern and the byte it is brought to: it is not taken for a plain `*`, and not
for a character on a part of one. -/
def SignReads (sign b : UInt8) : Prop := (sign = 42 → b ≠ 42) ∧ (sign = 63 → b.toNat < 0x80)

instance (sign b : UInt8) : Decidable (SignReads sign b) := inferInstanceAs (Decidable (_ ∧ _))

/-- A pattern segment with a sign is valid text, and whatever way the part before a sign matches,
the sign reads the byte it is then brought to. -/
def Plain (pat seg : Bytes) : Prop :=
  hasMeta pat = true → validString pat = true ∧
    Glob.Brings Glob.byteStar (Glob.byteHits · · = true) SignReads pat seg

/-- It is so of each pattern segment and the segment of the name it is brought to. -/
def AllPlain (pat path : List Bytes) : Prop :=
  Glob.Brings isDoublestar (segMatch · · = true) (fun p seg => isDoublestar p = false → Plain p seg)
    pat path

theorem segmentOf_literal {pat seg : Bytes} (h : hasMeta pat = false) :
    SegmentOf pat seg ↔ pat = seg := by
  have hsign : ∀ b, b = 42 ∨ b = 63 → ∀ r, Chunk.rune r [b] ∉ chunks pat := by
    intro b hb r hmem
    have hin : b ∈ pat := by
      rw [← chunks_bytes pat]
      exact List.mem_flatMap.mpr ⟨_, hmem, List.mem_cons_self⟩
    refine Bool.eq_false_iff.mp h (List.any_eq_true.mpr ⟨b, hin, ?_⟩)
    rcases hb with rfl | rfl <;> rfl
  have hchunks : SegmentOf pat seg ↔ chunks pat = chunks seg := by
    refine Glob.matches_literal fun c hc => ⟨?_, fun a => ⟨?_, .inr⟩⟩
    · rw [Glob.charStar, beq_eq_false_iff_ne]
      rintro rfl
      exact hsign 42 (.inl rfl) _ hc
    · rintro (rfl | h)
      · exact absurd hc (hsign 63 (.inr rfl) _)
      · exact h
  rw [hchunks]
  refine ⟨fun heq => ?_, congrArg _⟩
  rw [← chunks_bytes pat, heq, chunks_bytes]

theorem segMatch_iff {pat seg : Bytes} (h : Plain pat seg) :
    segMatch pat seg = true ↔ SegmentOf pat seg := by
  unfold segMatch
  cases hmeta : hasMeta pat with
  | false =>
    rw [segmentOf_literal hmeta]
    exact beq_iff_eq
  | true =>
    obtain ⟨hvalid, hreads⟩ := h hmeta
    have hapart : Glob.StarsApart Glob.byteStar Glob.byteHits pat seg := by
      refine hreads.imp fun t a hread hstar => ?_
      obtain rfl : t = 42 := beq_iff_eq.mp hstar
      rw [Glob.byteHits, beq_eq_false_iff_ne.mpr (hread.1 rfl).symm]
      rfl
    rw [SegmentOf, ← Glob.matches_text hvalid (hreads.imp fun _ _ hread => hread.2)]
    exact Glob.greedy_iff hapart

theorem doublestarMatch_iff {pat path : List Bytes} (h : AllPlain pat path) :
    doublestarMatch pat path = true ↔ PathOf pat path := by
  rw [doublestarMatch, Glob.search_iff, PathOf]
  exact Glob.matches_congr (h.imp fun p seg hplain hstar => segMatch_iff (hplain hstar))

theorem segs_of_parseGlob {pattern literal : Bytes} {segs : List Bytes}
    (h : parseGlob pattern = .ok (segs, literal)) : segs = splitSlash (trimSlash pattern) := by
  unfold parseGlob at h
  dsimp only at h
  split at h
  · cases h
  cases hcheck : (splitSlash (trimSlash pattern)).forM (checkSegment (trimSlash pattern)) with
  | error e =>
    rw [hcheck] at h
    cases h
  | ok u =>
    rw [hcheck] at h
    cases h
    rfl

theorem allPlain_docs :
    AllPlain (splitSlash (ascii "docs/**/v?-*")) (splitSlash (ascii "docs/a/b/v2-notes")) := by
  have hall : ∀ p ∈ splitSlash (ascii "docs/**/v?-*"),
      ∀ seg ∈ splitSlash (ascii "docs/a/b/v2-notes"),
        validString p = true ∧ ∀ sign ∈ p, ∀ b ∈ seg, SignReads sign b := by
    decide +kernel
  refine Glob.brings_of_forall fun p hp seg hseg _ _ => ?_
  obtain ⟨hvalid, hreads⟩ := hall p hp seg hseg
  exact ⟨hvalid, Glob.brings_of_forall hreads⟩

end Loomcycle.Authz
