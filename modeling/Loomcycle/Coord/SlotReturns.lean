import Loomcycle.Coord.Sweeper
import Loomcycle.Lib.Partial

/-! Every slot is given back at most once, if a sweep marks only rows no process works on, counts
only rows it marked itself, a process gives its slot back after its row has ended, and a row that
says nothing of a slot and is taken for one stands for one. Each slot
that can still be given back is then in one place: with the process that has it, on the row of a
run whose process is gone, or with the sweep that marked the row. -/

namespace Loomcycle.Coord
open Lib Lib.Transition Lib.Ledger Lib.Partial

/-! ### When slots are given back once -/

/-- The row says whether it stands for a slot, or it does. -/
def Row.accounted (row : Row) : Bool := row.userSlot.isSome || row.slot.isSome

/-- A row is queued for one process, and resumed when its process is gone; what a sweep marks is in
nobody's hands, and what it counts it has marked; a process ends its row before it gives its slot
back. A row that says nothing is counted, or its slot given back by a resume, only where its run
has one. -/
def orderly (w : World) : Label → Bool
  | .enter _ (some i) _ _ _ | .claim _ i _ _ => !w.inHand i
  | .release q _ => (w.procs q).all fun p =>
      p.phase ≠ .running || (w.rows p.run).all fun row => row.status ≠ .running
  | .markRuns s o => o = .failed || (w.sweeps s).all fun sw => sw.todo.head?.all fun id =>
      (w.select (World.isMarked id)).all fun i => !w.inHand i
  | .takeUnrecorded q o => o ≠ .done || (w.procs q).all fun p =>
      !(p.topLevel && p.owned) || (w.rows p.run).all Row.accounted
  | .queryQuotas s o => o ≠ .done || (w.sweeps s).all fun sw => sw.todo.head?.all fun id =>
      (w.select (World.isLeaked id)).all fun i => i ∈ sw.marked && (w.rows i).all Row.accounted
  | _ => true

def Orderly (w : World) (l : Label) : Prop := orderly w l = true

instance (w : World) (l : Label) : Decidable (Orderly w l) := inferInstanceAs (Decidable (_ = _))

/-! ### Where slots are -/

/-- The phases in which what the process holds is not on its row. -/
def Phase.offRow : Phase → Bool
  | .admitted | .moving | .counted => true
  | .running | .claimed | .looking | .settled => false

/-- The phases in which the process is still to take the slot off its row. -/
def Phase.seeks : Phase → Bool
  | .claimed | .looking => true
  | .admitted | .running | .moving | .settled | .counted => false

/-- Whether the process has a slot, in the phases where that is known. -/
def Phase.Fits (slot : Option Nat) : Phase → Prop
  | .claimed | .looking | .settled => slot = none
  | .moving | .counted => slot.isSome = true
  | .admitted | .running => True

/-- The slot on the row is still to be given back: by the process, a resume or a sweep. -/
def Live (w : World) (i : Nat) (row : Row) : Prop :=
  row.status = .running ∨ ∃ q p, w.procs q = some p ∧ p.run = i ∧ p.phase.seeks = true

/-- The slot is with a process, or on a row that is still to give it back. -/
def Held (w : World) (t : Nat) : Prop :=
  (∃ q p, w.procs q = some p ∧ p.slot = some t) ∨
    ∃ i row, w.rows i = some row ∧ row.slot = some t ∧ Live w i row

/-- The slot was not given back, and no sweep is about to do so. -/
def Free (w : World) (due : Nat → Option Nat) (t : Nat) : Prop := t ∉ w.log ∧ due t = none

/-- No process works on the run. -/
def Untended (w : World) (i : Nat) : Prop := ∀ q p, w.procs q = some p → p.run ≠ i

/-- The row a sweep has marked, whose slot is due by it. -/
def Marked (w : World) (due : Nat → Option Nat) (s i : Nat) : Prop :=
  Untended w i ∧
    ∃ row, w.rows i = some row ∧ row.status = .failed ∧ ∀ t, row.slot = some t → due t = some s

/-- The decrements of a sweep are for slots that are due by it. -/
structure Owes (taken : List Taking) (due : Nat → Option Nat) (s : Nat) (reaps : List Reap) :
    Prop where
  nodup : (reaps.flatMap Reap.slots).Nodup
  leaked : ∀ r ∈ reaps, r.leaked = r.slots.length
  due : ∀ r ∈ reaps, ∀ t ∈ r.slots, due t = some s ∧ IsOf Taking.key taken r.key t

/-- `due` says for which slots a sweep has marked the row and not yet given the slot back. -/
structure Coherent (w : World) (due : Nat → Option Nat) : Prop where
  ledger : Balanced Taking.key w.activeCount w.taken w.log
  proc_lt : ∀ q p, w.procs q = some p → q < w.nextProc ∧ p.run < w.nextRun
  row_lt : ∀ i row, w.rows i = some row → i < w.nextRun
  one : ∀ q p q' p', w.procs q = some p → w.procs q' = some p' → p.run = p'.run → q = q'
  key : ∀ q p row, w.procs q = some p → w.rows p.run = some row → row.key = p.key
  fits : ∀ q p, w.procs q = some p → p.phase.Fits p.slot
  proc : ∀ q p t, w.procs q = some p → p.slot = some t → w.taken[t]? = some ⟨p.run, p.key⟩
  row : ∀ i row t, w.rows i = some row → row.slot = some t → w.taken[t]? = some ⟨i, row.key⟩
  free : ∀ t, Held w t → Free w due t
  honest : ∀ i row, w.rows i = some row → ∀ b, row.userSlot = some b → b = row.slot.isSome
  off : ∀ q p row t, w.procs q = some p → p.phase.offRow = true → p.slot = some t →
    w.rows p.run = some row → row.slot ≠ some t
  marked : ∀ s sw i, w.sweeps s = some sw → sw.stage = .query → i ∈ sw.marked → Marked w due s i
  reaps : ∀ s sw rs, w.sweeps s = some sw → sw.stage = .decrement rs → Owes w.taken due s rs
  due : ∀ t s, due t = some s → t < w.taken.length ∧ t ∉ w.log

/-- The runs of the user whose slot is counted and not given back. -/
def World.holders (w : World) (key : Key) : List Nat :=
  let runOf t := (w.taken[t]?.map Taking.run).getD 0
  ((outstanding Taking.key w.taken w.log key).map runOf).dedup

def Sound (w : World) : Prop := ∃ due, Coherent w due

namespace Coherent

variable {w : World} {due : Nat → Option Nat} {q s i t : Nat} {p : Proc} {row : Row}

theorem untended (h : Coherent w due) (hnot : w.inHand i = false) : Untended w i := by
  intro q p hp hrun
  rw [World.inHand, List.any_eq_false] at hnot
  refine hnot q (List.mem_range.mpr (h.proc_lt q p hp).1) ?_
  exact (Option.any_eq_true _ _).mpr ⟨p, hp, decide_eq_true hrun⟩

variable {c : Row → Bool} {new : Option Sweep} {r : String} {key : Key}

theorem of_mem_select (h : i ∈ w.select c) : ∃ row, w.rows i = some row ∧ c row = true :=
  (Option.any_eq_true _ _).mp (List.mem_filter.mp h).2

/-! ### Rows -/

/-- What a statement may change of a row without touching its slot. -/
structure SameSlot (row row' : Row) : Prop where
  key : row'.key = row.key
  slot : row'.slot = row.slot
  userSlot : row'.userSlot = row.userSlot
  running : row'.status = .running → row.status = .running
  failed : row.status = .failed → row'.status = .failed

/-- What is asked of one row. -/
structure RowHolds (w : World) (due : Nat → Option Nat) (i : Nat) (row : Row) : Prop where
  lt : i < w.nextRun
  key : ∀ q p, w.procs q = some p → p.run = i → row.key = p.key
  taken : ∀ t, row.slot = some t → w.taken[t]? = some ⟨i, row.key⟩
  live : ∀ t, row.slot = some t → Live w i row → Free w due t
  honest : ∀ b, row.userSlot = some b → b = row.slot.isSome
  off : ∀ q p t, w.procs q = some p → p.run = i → p.phase.offRow = true → p.slot = some t →
    row.slot ≠ some t

variable (h : Coherent w due)
include h

theorem rowHolds (hrow : w.rows i = some row) : RowHolds w due i row where
  lt := h.row_lt i row hrow
  key q p hp hrun := h.key q p row hp (hrun ▸ hrow)
  taken t := h.row i row t hrow
  live t ht hlive := h.free t (.inr ⟨i, row, hrow, ht, hlive⟩)
  honest := h.honest i row hrow
  off q p t hp hrun hoff ht := h.off q p row t hp hoff ht (hrun ▸ hrow)

/-- The rows change; a failed row that no process works on keeps its slot. -/
theorem putRows {rows' : Nat → Option Row}
    (hrows : ∀ i row, rows' i = some row → RowHolds w due i row)
    (hfailed : ∀ i row, w.rows i = some row → row.status = .failed →
      Untended w i → ∃ row', rows' i = some row' ∧ row'.status = .failed ∧ row'.slot = row.slot) :
    Coherent { w with rows := rows' } due :=
  { h with
    row_lt := fun i row hrow => (hrows i row hrow).lt
    key := fun q p row hp hrow => (hrows _ row hrow).key q p hp rfl
    row := fun i row t hrow => (hrows i row hrow).taken t
    free := by
      rintro t (hproc | ⟨i, row, hrow, ht, hlive⟩)
      · exact h.free t (.inl hproc)
      · exact (hrows i row hrow).live t ht hlive
    honest := fun i row hrow => (hrows i row hrow).honest
    off := fun q p row t hp hoff ht hrow => (hrows _ row hrow).off q p t hp rfl hoff ht
    marked := fun s sw i hsw hstage hi => by
      obtain ⟨hnone, row, hrow, hstatus, hdue⟩ := h.marked s sw i hsw hstage hi
      obtain ⟨row', hrow', hstatus', hslot⟩ := hfailed i row hrow hstatus hnone
      exact ⟨hnone, row', hrow', hstatus', fun t ht => hdue t (hslot ▸ ht)⟩ }

omit h in
theorem RowHolds.same {row' : Row} (h : RowHolds w due i row) (hsame : SameSlot row row') :
    RowHolds w due i row' where
  lt := h.lt
  key q p hp hrun := hsame.key.trans (h.key q p hp hrun)
  taken t ht := by
    rw [hsame.key]
    exact h.taken t (hsame.slot ▸ ht)
  live t ht hlive := h.live t (hsame.slot ▸ ht) (hlive.imp hsame.running id)
  honest := by
    rw [hsame.userSlot, hsame.slot]
    exact h.honest
  off q p t hp hrun hoff ht := by
    rw [hsame.slot]
    exact h.off q p t hp hrun hoff ht

/-- A statement fails rows, and leaves their slots on them. -/
theorem failRows (c : Row → Bool) (error : String) :
    Coherent (w.updateRows c fun row => { row with status := .failed, error }) due := by
  have hsame : ∀ row,
      SameSlot row (if c row then { row with status := .failed, error } else row) := by
    intro row
    split
    · exact ⟨rfl, rfl, rfl, nofun, fun _ => rfl⟩
    · exact ⟨rfl, rfl, rfl, id, id⟩
  refine h.putRows (fun i row' hrow' => ?_) fun i row hrow hfailed _ => ?_
  · obtain ⟨row, hrow, rfl⟩ := Option.map_eq_some_iff.mp hrow'
    exact (h.rowHolds hrow).same (hsame row)
  · exact ⟨_, congrArg _ hrow, (hsame row).failed hfailed, (hsame row).slot⟩

omit h in
theorem rows_setRow (w : World) (i : Nat) (row : Row) : (w.setRow i row).rows i = some row :=
  Function.update_self ..

/-- One row changes, which no sweep has marked. -/
theorem putRow (row' : Row) (hrow' : RowHolds w due i row')
    (hfailed : ∀ row, w.rows i = some row → row.status = .failed →
      Untended w i → row'.status = .failed ∧ row'.slot = row.slot) :
    Coherent (w.setRow i row') due := by
  refine h.putRows (fun j r hr => ?_) fun j r hr hstatus hnone => ?_
  · obtain ⟨rfl, ⟨⟩⟩ | ⟨-, hr⟩ := of_update hr
    · exact hrow'
    · exact h.rowHolds hr
  · by_cases hj : j = i
    · subst hj
      exact ⟨row', Function.update_self .., hfailed r hr hstatus hnone⟩
    · exact ⟨r, (Function.update_of_ne hj _ _).trans hr, hstatus, rfl⟩

theorem setRow (row' : Row) (hrow : w.rows i = some row)
    (hsame : SameSlot row row') : Coherent (w.setRow i row') due := by
  refine h.putRow row' ((h.rowHolds hrow).same hsame) fun r hr hstatus _ => ?_
  cases hrow.symm.trans hr
  exact ⟨hsame.failed hstatus, hsame.slot⟩

/-- A row that a process works on gets another slot. -/
theorem setRowSlot (row' : Row) (hp : w.procs q = some p) (hrun : p.run = i)
    (hkey : row'.key = p.key) (hhonest : ∀ b, row'.userSlot = some b → b = row'.slot.isSome)
    (hslot : ∀ t, row'.slot = some t → w.taken[t]? = some ⟨i, p.key⟩ ∧ Free w due t)
    (hoff : p.phase.offRow = true → ∀ t, p.slot = some t → row'.slot ≠ some t) :
    Coherent (w.setRow i row') due := by
  have hmine : ∀ {q' p'}, w.procs q' = some p' → p'.run = i → p' = p := by
    intro q' p' hp' hrun'
    obtain rfl := h.one q' p' q p hp' hp (hrun'.trans hrun.symm)
    exact Option.mem_unique hp' hp
  refine h.putRow row' ⟨hrun ▸ (h.proc_lt q p hp).2, fun q' p' hp' hrun' => ?_, fun t ht => ?_,
    fun t ht _ => (hslot t ht).2, hhonest, fun q' p' t hp' hrun' hoff' ht => ?_⟩
    fun _ _ _ hnone => absurd hrun (hnone q p hp)
  · rw [hmine hp' hrun', hkey]
  · rw [hkey]
    exact (hslot t ht).1
  · obtain rfl := hmine hp' hrun'
    exact hoff hoff' t ht

/-! ### Processes -/

/-- What is asked of one process. -/
structure ProcHolds (w : World) (due : Nat → Option Nat) (p : Proc) : Prop where
  lt : p.run < w.nextRun
  key : ∀ row, w.rows p.run = some row → row.key = p.key
  fits : p.phase.Fits p.slot
  slot : ∀ t, p.slot = some t → w.taken[t]? = some ⟨p.run, p.key⟩ ∧ Free w due t
  live : ∀ row t, p.phase.seeks = true → w.rows p.run = some row → row.slot = some t →
    Free w due t
  off : p.phase.offRow = true → ∀ row t, p.slot = some t → w.rows p.run = some row →
    row.slot ≠ some t
  unmarked : ∀ s sw i, w.sweeps s = some sw → sw.stage = .query → i ∈ sw.marked → p.run ≠ i

theorem procHolds (hp : w.procs q = some p) : ProcHolds w due p where
  lt := (h.proc_lt q p hp).2
  key row := h.key q p row hp
  fits := h.fits q p hp
  slot t ht := ⟨h.proc q p t hp ht, h.free t (.inl ⟨q, p, hp, ht⟩)⟩
  live row t hseeks hrow ht :=
    h.free t (.inr ⟨p.run, row, hrow, ht, .inr ⟨q, p, hp, rfl, hseeks⟩⟩)
  off hoff row t := h.off q p row t hp hoff
  unmarked s sw i hsw hstage hi := (h.marked s sw i hsw hstage hi).1 q p hp

theorem fits_phase {phase : Phase} (hp : w.procs q = some p) (hphase : p.phase = phase) :
    phase.Fits p.slot :=
  hphase ▸ h.fits q p hp

/-- The processes change. -/
theorem putProcs {procs' : Nat → Option Proc} {nextProc : Nat}
    (hprocs : ∀ q p, procs' q = some p → q < nextProc ∧ ProcHolds w due p)
    (hone : ∀ q p q' p', procs' q = some p → procs' q' = some p' → p.run = p'.run → q = q') :
    Coherent { w with procs := procs', nextProc } due :=
  { h with
    proc_lt := fun q p hp => ⟨(hprocs q p hp).1, (hprocs q p hp).2.lt⟩
    one := hone
    key := fun q p row hp => (hprocs q p hp).2.key row
    fits := fun q p hp => (hprocs q p hp).2.fits
    proc := fun q p t hp ht => ((hprocs q p hp).2.slot t ht).1
    free := by
      rintro t (⟨q, p, hp, ht⟩ | ⟨i, row, hrow, ht, hrunning | ⟨q, p, hp, rfl, hseeks⟩⟩)
      · exact ((hprocs q p hp).2.slot t ht).2
      · exact h.free t (.inr ⟨i, row, hrow, ht, .inl hrunning⟩)
      · exact (hprocs q p hp).2.live row t hseeks hrow ht
    off := fun q p row t hp hoff => (hprocs q p hp).2.off hoff row t
    marked := fun s sw i hsw hstage hi =>
      ⟨fun q p hp => (hprocs q p hp).2.unmarked s sw i hsw hstage hi,
        (h.marked s sw i hsw hstage hi).2⟩ }

/-- Processes end. -/
theorem dropProcs (procs' : Nat → Option Proc)
    (hsub : ∀ q p, procs' q = some p → w.procs q = some p) :
    Coherent { w with procs := procs' } due := by
  refine h.putProcs (fun q p hp => ?_) fun q p q' p' hp hp' => ?_
  · exact ⟨(h.proc_lt q p (hsub q p hp)).1, h.procHolds (hsub q p hp)⟩
  · exact h.one q p q' p' (hsub q p hp) (hsub q' p' hp')

theorem endProc (q : Nat) : Coherent (w.setProc q none) due := by
  refine h.dropProcs _ fun q' p hp => ?_
  obtain ⟨-, hnone⟩ | ⟨-, hp⟩ := of_update hp
  · cases hnone
  · exact hp

/-- A process, known or new, stands as `p`, with a slot that is its own. -/
theorem putProc {nextProc : Nat} (hq : q < nextProc) (hnext : w.nextProc ≤ nextProc)
    (hone : ∀ q' p', w.procs q' = some p' → p'.run = p.run → q' = q) (hp : ProcHolds w due p) :
    Coherent { w.setProc q (some p) with nextProc } due := by
  refine h.putProcs (fun q' p' hp' => ?_) fun q₁ p₁ q₂ p₂ h₁ h₂ heq => ?_
  · obtain ⟨rfl, ⟨⟩⟩ | ⟨-, hp'⟩ := of_update hp'
    · exact ⟨hq, hp⟩
    · exact ⟨Nat.lt_of_lt_of_le (h.proc_lt q' p' hp').1 hnext, h.procHolds hp'⟩
  · obtain ⟨rfl, ⟨⟩⟩ | ⟨-, hold₁⟩ := of_update h₁
    · obtain ⟨rfl, -⟩ | ⟨-, hold₂⟩ := of_update h₂
      · rfl
      · exact (hone q₂ p₂ hold₂ heq.symm).symm
    · obtain ⟨rfl, ⟨⟩⟩ | ⟨-, hold₂⟩ := of_update h₂
      · exact hone q₁ p₁ hold₁ heq
      · exact h.one q₁ p₁ q₂ p₂ hold₁ hold₂ heq

/-- A process goes on with its run. -/
theorem setProc {phase : Phase} {slot : Option Nat} (hp : w.procs q = some p)
    (hseeks : phase.seeks = true → p.phase.seeks = true) (hfits : phase.Fits slot)
    (hslot : ∀ t, slot = some t → w.taken[t]? = some ⟨p.run, p.key⟩ ∧ Free w due t)
    (hoff : phase.offRow = true → ∀ row t, slot = some t → w.rows p.run = some row →
      row.slot ≠ some t) : Coherent (w.setProc q (some { p with phase, slot })) due := by
  have hold := h.procHolds hp
  refine h.putProc (h.proc_lt q p hp).1 (Nat.le_refl _) (fun q' p' hp' => h.one q' p' q p hp' hp) ?_
  exact ⟨hold.lt, hold.key, hfits, hslot, fun row t hs => hold.live row t (hseeks hs), hoff,
    hold.unmarked⟩

/-- What a process keeps of its slot in another phase. -/
theorem setPhase {phase : Phase} {slot : Option Nat} (hp : w.procs q = some p)
    (hseeks : phase.seeks = true → p.phase.seeks = true) (hfits : phase.Fits slot)
    (hslot : ∀ t, slot = some t → p.slot = some t) (hoff : phase.offRow = false) :
    Coherent (w.setProc q (some { p with phase, slot })) due := by
  refine h.setProc hp hseeks hfits (fun t ht => (h.procHolds hp).slot t (hslot t ht)) fun hon => ?_
  rw [hoff] at hon
  cases hon

theorem setRunning (hp : w.procs q = some p) :
    Coherent (w.setProc q (some { p with phase := .running })) due :=
  h.setPhase hp nofun trivial (fun _ => id) rfl

theorem setSettled (hp : w.procs q = some p) (hnone : p.slot = none) :
    Coherent (w.setProc q (some { p with phase := .settled })) due :=
  h.setPhase hp nofun hnone (fun _ => id) rfl

/-! ### Counting and giving back -/

theorem count (run : Nat) (key : Key) : Coherent (w.count run key) due := by
  have hkeep : ∀ {t x}, w.taken[t]? = some x → (w.taken ++ [⟨run, key⟩])[t]? = some x :=
    fun ht => (List.getElem?_append_left (List.getElem?_eq_some_iff.mp ht).1).trans ht
  have htake := h.ledger.take (x := (⟨run, key⟩ : Taking))
  refine { h with ledger := htake, proc := ?_, row := ?_, reaps := ?_, due := ?_ }
  · intro q p t hp ht
    exact hkeep (h.proc q p t hp ht)
  · intro i row t hrow ht
    exact hkeep (h.row i row t hrow ht)
  · intro s sw rs hsw hstage
    obtain ⟨hnodup, hleaked, hdue⟩ := h.reaps s sw rs hsw hstage
    refine ⟨hnodup, hleaked, fun r hr t ht => ⟨(hdue r hr t ht).1, ?_⟩⟩
    have hof := (hdue r hr t ht).2
    exact (isOf_append_of_lt (lt_of_isOf hof)).mpr hof
  · intro t s hdue
    refine ⟨?_, (h.due t s hdue).2⟩
    rw [World.count, List.length_append]
    exact Nat.lt_add_right _ (h.due t s hdue).1

/-- Free slots that nobody holds are given back. -/
theorem subtract {slots : List Nat} {n : Nat} (hn : n = slots.length) (hnodup : slots.Nodup)
    (hof : ∀ t ∈ slots, IsOf Taking.key w.taken key t)
    (hfree : ∀ t ∈ slots, Free w due t ∧ ¬ Held w t) : Coherent (w.subtract key n slots) due := by
  have hgive := h.ledger.give hnodup hof fun t ht => (hfree t ht).1.1
  have hother : ∀ {t}, t ∉ w.log → t ∉ slots → t ∉ w.log ++ slots :=
    fun hlog hout hmem => (List.mem_append.mp hmem).elim hlog hout
  subst hn
  refine { h with ledger := hgive, free := ?_, due := ?_ }
  · intro t hheld
    obtain ⟨hlog, hdue⟩ := h.free t hheld
    exact ⟨hother hlog fun hmem => (hfree t hmem).2 hheld, hdue⟩
  · intro t s hdue
    refine ⟨(h.due t s hdue).1, hother (h.due t s hdue).2 fun hmem => ?_⟩
    rw [(hfree t hmem).1.2] at hdue
    cases hdue

/-- Slots that nobody holds become due, or are due no more; the sweep they were due by has no more
to do with them. -/
theorem setDue (slots : List Nat) (o : Option Nat)
    (hslots : ∀ t ∈ slots, (t < w.taken.length ∧ t ∉ w.log) ∧ ¬ Held w t)
    (hpast : ∀ t ∈ slots, ∀ s sw, due t = some s → w.sweeps s = some sw →
      sw.stage ≠ .query ∧ ∀ rs, sw.stage = .decrement rs → ∀ r ∈ rs, t ∉ r.slots) :
    Coherent w fun t => if t ∈ slots then o else due t := by
  refine { h with free := ?_, marked := ?_, reaps := ?_, due := ?_ }
  · intro t hheld
    obtain ⟨hlog, hdue⟩ := h.free t hheld
    exact ⟨hlog, (if_neg fun hmem => (hslots t hmem).2 hheld).trans hdue⟩
  · intro s sw i hsw hstage hi
    obtain ⟨hnone, row, hrow, hfailed, hdue⟩ := h.marked s sw i hsw hstage hi
    refine ⟨hnone, row, hrow, hfailed, fun t ht => (if_neg fun hmem => ?_).trans (hdue t ht)⟩
    exact (hpast t hmem s sw (hdue t ht) hsw).1 hstage
  · intro s sw rs hsw hstage
    obtain ⟨hnodup, hleaked, hdue⟩ := h.reaps s sw rs hsw hstage
    refine ⟨hnodup, hleaked, fun r hr t ht => ?_⟩
    obtain ⟨hdue, hof⟩ := hdue r hr t ht
    refine ⟨(if_neg fun hmem => ?_).trans hdue, hof⟩
    exact (hpast t hmem s sw hdue hsw).2 rs hstage r hr ht
  · intro t s hdue
    split at hdue
    · next hmem => exact (hslots t hmem).1
    · exact h.due t s hdue

/-- The slot of a process is on no other process, and on no row but that of its run. -/
theorem only_holder (hp : w.procs q = some p) (ht : p.slot = some t) :
    (∀ q' p', w.procs q' = some p' → p'.slot = some t → q' = q) ∧
      ∀ i row, w.rows i = some row → row.slot = some t → i = p.run := by
  have htaken := h.proc q p t hp ht
  refine ⟨fun q' p' hp' ht' => ?_, fun i row hrow ht' => ?_⟩
  · have heq := Option.mem_unique (h.proc q' p' t hp' ht') htaken
    exact h.one q' p' q p hp' hp (congrArg Taking.run heq)
  · have heq := Option.mem_unique (h.row i row t hrow ht') htaken
    exact congrArg Taking.run heq

theorem isOf_proc (hp : w.procs q = some p) (ht : p.slot = some t) :
    IsOf Taking.key w.taken p.key t := by
  rw [IsOf, h.proc q p t hp ht]
  rfl

/-! ### Sweeps -/

/-- A sweep goes on, with what its next stage asks of it. -/
theorem setSweep
    (hmarked : ∀ sw i, new = some sw → sw.stage = .query → i ∈ sw.marked → Marked w due s i)
    (hreaps : ∀ sw rs, new = some sw → sw.stage = .decrement rs → Owes w.taken due s rs) :
    Coherent (w.setSweep s new) due := by
  refine { h with marked := ?_, reaps := ?_ }
  · intro s' sw i hsw
    obtain ⟨rfl, hnew⟩ | ⟨-, hsw⟩ := of_update hsw
    · exact hmarked sw i hnew
    · exact h.marked s' sw i hsw
  · intro s' sw rs hsw
    obtain ⟨rfl, hnew⟩ | ⟨-, hsw⟩ := of_update hsw
    · exact hreaps sw rs hnew
    · exact h.reaps s' sw rs hsw

/-- A sweep in a stage that gives nothing back. -/
theorem setSweep_idle
    (hidle : ∀ sw, new = some sw → sw.stage ≠ .query ∧ ∀ rs, sw.stage ≠ .decrement rs) :
    Coherent (w.setSweep s new) due :=
  h.setSweep (fun sw _ hsw hstage => absurd hstage (hidle sw hsw).1)
    fun sw rs hsw hstage => absurd hstage ((hidle sw hsw).2 rs)

/-! ### The steps of a run -/

variable {w' : World} {o : Outcome}

theorem start {older : Bool} (he : w.start q older o = some w') : Coherent w' due := by
  obtain ⟨p, hp, -, he⟩ := of_bind_guard he
  have hstart := (h.setRunning hp).setRowSlot
    { key := p.key, replica := p.replica, status := .running, topLevel := p.topLevel,
      userSlot := if older then none else some p.slot.isSome, slot := p.slot }
    (Function.update_self ..) rfl rfl ?_ (h.procHolds hp).slot nofun
  swap
  · intro b hb
    split at hb
    · cases hb
    · exact (Option.some.inj hb).symm
  cases o with
  | failed => cases he; exact h
  | done | lost => cases he; exact hstart

theorem setPaused {paused : Bool} (he : w.setPaused i paused = some w') : Coherent w' due := by
  obtain ⟨row, hrow, he⟩ := Option.bind_eq_some_iff.mp he
  cases he
  exact h.setRow _ hrow ⟨rfl, rfl, rfl, id, id⟩

theorem finish {status : Status} {error : String}
    (he : w.finish i status error = some w') : Coherent w' due := by
  obtain ⟨row, hrow, ⟨hrunning, -⟩, he⟩ := of_bind_guard he
  split at he
  · rename_i hopen
    cases he
    refine h.setRow _ hrow ⟨rfl, rfl, rfl, fun hr => absurd hr hrunning, ?_⟩
    intro hfailed
    rw [hfailed] at hopen
    exact hopen.elim nofun nofun
  · cases he
    exact h

/-- A process gives its slot back and keeps none. -/
theorem give {new : Option Proc} (hp : w.procs q = some p) (ht : p.slot = some t)
    (hset : Coherent (w.setProc q new) due)
    (hnew : ∀ p', new = some p' → p'.slot = none ∧ p'.phase.seeks = false)
    (hrow : ∀ row, w.rows p.run = some row → row.slot = some t → row.status ≠ .running) :
    Coherent ((w.setProc q new).subtract p.key 1 p.slot.toList) due := by
  obtain ⟨hproc, hrun⟩ := h.only_holder hp ht
  have hmine : ∀ t' ∈ p.slot.toList, t' = t := fun t' ht' => by simpa [ht, eq_comm] using ht'
  refine hset.subtract (by rw [ht]; rfl) (by rw [ht]; exact List.nodup_singleton t)
    (fun t' ht' => hmine t' ht' ▸ h.isOf_proc hp ht) fun t' ht' => ?_
  obtain rfl := hmine t' ht'
  refine ⟨h.free t' (.inl ⟨q, p, hp, ht⟩), ?_⟩
  rintro (⟨q', p', hp', hslot⟩ | ⟨i, row, hi, hslot, hlive⟩)
  · obtain ⟨-, hnew'⟩ | ⟨hne, hp'⟩ := of_update hp'
    · rw [(hnew p' hnew').1] at hslot
      cases hslot
    · exact hne (hproc q' p' hp' hslot)
  · obtain rfl := hrun i row hi hslot
    obtain hrunning | ⟨q', p', hp', hi', hseeks⟩ := hlive
    · exact hrow row hi hslot hrunning
    · obtain ⟨-, hnew'⟩ | ⟨hne, hp'⟩ := of_update hp'
      · rw [(hnew p' hnew').2] at hseeks
        cases hseeks
      · exact hne (h.one q' p' q p hp' hp hi')

theorem release (ho : Orderly w (.release q o))
    (he : w.release q o = some w') : Coherent w' due := by
  obtain ⟨p, hp, ⟨hclaimed, hlooking, hmoving⟩, he⟩ := of_bind_guard he
  dsimp only at he
  split at he
  · cases he
    exact h.endProc q
  next hheld =>
  cases he
  obtain ⟨t, ht⟩ := Option.ne_none_iff_exists'.mp (mt .inl hheld)
  refine h.give hp ht (h.endProc q) nofun fun row hrow hslot => ?_
  by_cases hoff : p.phase.offRow = true
  · exact absurd hslot (h.off q p row t hp hoff ht hrow)
  have hends : p.phase ≠ .running ∨ row.status ≠ .running := by
    simpa [Orderly, orderly, hp, hrow] using ho
  refine hends.resolve_left fun hne => ?_
  cases hphase : p.phase with
  | running => exact hne hphase
  | claimed => exact hclaimed hphase
  | looking => exact hlooking hphase
  | moving => exact hmoving hphase
  | settled =>
    have hnone : p.slot = none := h.fits_phase hp hphase
    cases ht.symm.trans hnone
  | admitted | counted => exact hoff (hphase ▸ rfl)

/-! ### The steps of a resume -/

theorem claim {owned : Bool} (ho : Orderly w (.claim r i owned o))
    (he : w.claim r i owned o = some w') : Coherent w' due := by
  obtain ⟨row, hrow, ⟨-, -, hrunning⟩, he⟩ := of_bind_guard he
  have hset := h.setRow { row with paused := false } hrow ⟨rfl, rfl, rfl, id, id⟩
  cases o with
  | failed => cases he; exact h
  | lost => cases he; exact hset
  | done =>
    have hnot : w.inHand i = false := by simpa [Orderly, orderly] using ho
    cases he
    refine hset.putProc (Nat.lt_succ_self _) (Nat.le_succ _)
      (fun q' p' hp' hrun => absurd hrun (h.untended hnot q' p' hp'))
      ⟨h.row_lt i row hrow, ?_, rfl, nofun, ?_, nofun, ?_⟩
    · intro row' hrow'
      rw [← Option.mem_unique (rows_setRow ..) hrow']
    · intro row' t _ hrow' ht
      rw [← Option.mem_unique (rows_setRow ..) hrow'] at ht
      exact (h.rowHolds hrow).live t ht (.inl hrunning)
    · rintro s sw j hsw hstage hj rfl
      obtain ⟨-, row', hrow', hfailed, -⟩ := h.marked s sw _ hsw hstage hj
      rw [Option.mem_unique hrow' hrow, hrunning] at hfailed
      cases hfailed

theorem unclaim (he : w.unclaim q o = some w') : Coherent w' due := by
  obtain ⟨p, hp, -, he⟩ := of_bind_guard he
  obtain ⟨row, hrow, he⟩ := Option.bind_eq_some_iff.mp he
  have hended := h.endProc q
  split at he
  · cases he
    exact hended.setRow _ hrow ⟨rfl, rfl, rfl, id, id⟩
  · cases he
    exact hended

theorem setReplica (he : w.setReplica q = some w') : Coherent w' due := by
  obtain ⟨p, hp, -, he⟩ := of_bind_guard he
  obtain ⟨row, hrow, he⟩ := Option.bind_eq_some_iff.mp he
  cases he
  exact h.setRow _ hrow ⟨rfl, rfl, rfl, id, id⟩

/-- A statement that takes the record of a slot, where the record stands for one. -/
theorem takeRecord {found : Option Bool} {gives : Bool} {next : Phase} (hp : w.procs q = some p)
    (hseeks : p.phase.seeks = true) (hnone : p.slot = none)
    (hnext : next = .looking ∨ next = .settled)
    (hheld : ∀ row, o = .done → gives = true → w.rows p.run = some row → row.userSlot = found →
      row.slot.isSome = true)
    (he : w.takeRecord q p found gives next o = some w') : Coherent w' due := by
  obtain ⟨row, hrow, he⟩ := Option.bind_eq_some_iff.mp he
  have hkey := h.key q p row hp hrow
  have hsettled := h.setSettled hp hnone
  have htaken := h.setRowSlot { row with userSlot := some false, slot := none } hp rfl hkey
    (fun _ hb => (Option.some.inj hb).symm) nofun (fun _ _ _ => nofun)
  have htaken_settled := htaken.setSettled hp hnone
  dsimp only at he
  split at he
  · next hfound =>
    cases o with
    | failed => cases he; exact hsettled
    | lost => cases he; exact htaken_settled
    | done =>
      dsimp only at he
      split at he
      · next hgives =>
        cases he
        refine htaken.setProc hp nofun (hheld row rfl hgives hrow hfound) ?_ ?_
        · intro t ht
          exact ⟨hkey ▸ h.row p.run row t hrow ht,
            (h.procHolds hp).live row t hseeks hrow ht⟩
        · intro _ row' t _ hrow' hslot
          rw [← Option.mem_unique (rows_setRow ..) hrow'] at hslot
          cases hslot
      · cases he
        exact htaken_settled
  · split at he
    · cases he
      rcases hnext with rfl | rfl
      · exact h.setPhase hp (fun _ => hseeks) hnone (fun _ => id) rfl
      · exact hsettled
    · cases he
      exact hsettled

theorem take (he : w.take q o = some w') : Coherent w' due := by
  obtain ⟨p, hp, hphase, he⟩ := of_bind_guard he
  have hnone : p.slot = none := h.fits_phase hp hphase
  refine h.takeRecord hp (hphase ▸ rfl) hnone (.inl rfl) (fun row _ _ hrow hfound => ?_) he
  exact (h.honest p.run row hrow true hfound).symm

theorem takeUnrecorded (ho : Orderly w (.takeUnrecorded q o))
    (he : w.takeUnrecorded q o = some w') : Coherent w' due := by
  obtain ⟨p, hp, hphase, he⟩ := of_bind_guard he
  have hnone : p.slot = none := h.fits_phase hp hphase
  refine h.takeRecord hp (hphase ▸ rfl) hnone (.inr rfl) (fun row hdone hgives hrow hnull => ?_) he
  obtain ⟨htop, howned⟩ := Bool.and_eq_true_iff.mp hgives
  have hslot : row.accounted = true := by
    simpa [Orderly, orderly, hdone, hp, htop, howned, hrow] using ho
  simpa [Row.accounted, hnull] using hslot

theorem giveBack (he : w.giveBack q o = some w') : Coherent w' due := by
  obtain ⟨p, hp, hphase, he⟩ := of_bind_guard he
  have hsettled : Coherent (w.setProc q (some { p with phase := .settled, slot := none })) due :=
    h.setPhase hp nofun rfl nofun rfl
  obtain ⟨t, ht⟩ := Option.isSome_iff_exists.mp (h.fits_phase hp hphase)
  dsimp only at he
  split at he
  · cases he
    exact hsettled
  · cases he
    refine h.give hp ht hsettled ?_ fun row hrow hslot => ?_
    · rintro p' ⟨⟩
      exact ⟨rfl, rfl⟩
    · exact absurd hslot (h.off q p row t hp (hphase ▸ rfl) ht hrow)

/-- The slot counted next is nowhere yet. -/
theorem free_next : Free w due w.taken.length := by
  refine ⟨fun hlog => Nat.lt_irrefl _ (h.ledger.lt _ hlog), ?_⟩
  cases hdue : due w.taken.length with
  | none => rfl
  | some s => exact absurd (h.due _ s hdue).1 (Nat.lt_irrefl _)

theorem row_ne_next (hrow : w.rows i = some row) : row.slot ≠ some w.taken.length := by
  intro ht
  exact Nat.lt_irrefl _ (List.getElem?_eq_some_iff.mp (h.row i row _ hrow ht)).1

omit h in
theorem taken_next (w : World) (run : Nat) (key : Key) :
    (w.count run key).taken[w.taken.length]? = some ⟨run, key⟩ := by
  rw [World.count, List.getElem?_append_right (Nat.le_refl _), Nat.sub_self]
  rfl

theorem countAdmitted (he : w.countAdmitted q o = some w') : Coherent w' due := by
  obtain ⟨p, hp, -, he⟩ := of_bind_guard he
  have hcount := h.count p.run p.key
  cases o with
  | failed =>
    cases he
    exact h.setRunning hp
  | lost =>
    cases he
    exact hcount.setRunning hp
  | done =>
    cases he
    refine hcount.setProc hp nofun rfl ?_ ?_
    · rintro t ⟨⟩
      exact ⟨taken_next w p.run p.key, h.free_next⟩
    · rintro - row t ⟨⟩ hrow
      exact h.row_ne_next hrow

theorem runUncounted (he : w.runUncounted q = some w') : Coherent w' due := by
  obtain ⟨p, hp, -, he⟩ := of_bind_guard he
  cases he
  exact h.setRunning hp

theorem record (he : w.record q o = some w') : Coherent w' due := by
  obtain ⟨p, hp, hphase, he⟩ := of_bind_guard he
  obtain ⟨row, hrow, he⟩ := Option.bind_eq_some_iff.mp he
  have hsome : p.slot.isSome = true := h.fits_phase hp hphase
  have hrunning := h.setRunning hp
  have hrecord := hrunning.setRowSlot { row with userSlot := some true, slot := p.slot }
    (Function.update_self ..) rfl (h.key q p row hp hrow)
    (fun b hb => (Option.some.inj hb).symm.trans hsome.symm)
    (h.procHolds hp).slot nofun
  cases o with
  | failed => cases he; exact hrunning
  | done | lost => cases he; exact hrecord

/-! ### Admission -/

/-- Runs without a row. -/
theorem growRuns {n : Nat} (hn : w.nextRun ≤ n) : Coherent { w with nextRun := n } due :=
  { h with
    proc_lt := fun q p hp => ⟨(h.proc_lt q p hp).1, Nat.lt_of_lt_of_le (h.proc_lt q p hp).2 hn⟩
    row_lt := fun i row hrow => Nat.lt_of_lt_of_le (h.row_lt i row hrow) hn }

/-- A row comes that says nothing of a slot, and stands for none. -/
theorem newRow (row : Row) (hnull : row.userSlot = none) (hslot : row.slot = none) :
    Coherent { w.setRow w.nextRun row with nextRun := w.nextRun + 1 } due := by
  refine (h.growRuns (Nat.le_succ w.nextRun)).putRow row ⟨Nat.lt_succ_self _, fun q p hp hrun => ?_,
    ?_, ?_, ?_, ?_⟩ fun row hrow => ?_
  · exact absurd (h.proc_lt q p hp).2 (hrun ▸ Nat.lt_irrefl _)
  · simp [hslot]
  · simp [hslot]
  · simp [hnull]
  · simp [hslot]
  · exact absurd (h.row_lt _ row hrow) (Nat.lt_irrefl _)

theorem queue {topLevel : Bool} (he : w.queue r key topLevel = some w') : Coherent w' due := by
  rw [World.queue] at he
  split at he
  · cases he
    exact h.newRow _ rfl rfl
  · cases he

/-- A process is admitted for a run that no other process works on, counted or not. -/
theorem admitProc (hi : i < w.nextRun) (hnot : Untended w i)
    (hrow : ∀ row, w.rows i = some row → row.status = .queued ∧ row.key = key)
    (topLevel counted : Bool) :
    let p : Proc := { run := i, replica := r, key, topLevel, phase := .admitted }
    if counted then
      Coherent { (w.count i key).setProc w.nextProc
          (some { p with slot := some w.taken.length }) with nextProc := w.nextProc + 1 } due
    else Coherent { w.setProc w.nextProc (some p) with nextProc := w.nextProc + 1 } due := by
  have hmarked : ∀ s sw j, w.sweeps s = some sw → sw.stage = .query → j ∈ sw.marked → i ≠ j := by
    rintro s sw j hsw hstage hj rfl
    obtain ⟨-, row, hj', hfailed, -⟩ := h.marked s sw _ hsw hstage hj
    rw [(hrow row hj').1] at hfailed
    cases hfailed
  have hone : ∀ q p, w.procs q = some p → p.run = i → q = w.nextProc :=
    fun q p hp hrun => absurd hrun (hnot q p hp)
  cases counted with
  | false =>
    exact h.putProc (Nat.lt_succ_self _) (Nat.le_succ _) hone
      ⟨hi, fun row hj => (hrow row hj).2, trivial, nofun, nofun, nofun, hmarked⟩
  | true =>
    refine (h.count i key).putProc (Nat.lt_succ_self _) (Nat.le_succ _) hone
      ⟨hi, fun row hj => (hrow row hj).2, trivial, ?_, nofun, ?_, hmarked⟩
    · rintro t ⟨⟩
      exact ⟨taken_next w i key, h.free_next⟩
    · rintro - row t ⟨⟩ hj
      exact h.row_ne_next hj

theorem admitRun {queued : Option Nat} {topLevel : Bool} {cap : Option Nat}
    (ho : Orderly w (.enter r queued key topLevel cap))
    (he : w.admitRun r queued key topLevel cap = some w') : Coherent w' due := by
  obtain ⟨-, he⟩ := of_guard he
  obtain ⟨i, hi, he⟩ := Option.bind_eq_some_iff.mp he
  let n := if queued = none then w.nextRun + 1 else w.nextRun
  have hn : w.nextRun ≤ n := by
    simp only [n]
    split
    · exact Nat.le_succ _
    · exact Nat.le_refl _
  have hgrow := h.growRuns hn
  have hfacts : i < n ∧ Untended w i ∧
      ∀ row, w.rows i = some row → row.status = .queued ∧ row.key = key := by
    cases queued with
    | none =>
      cases hi
      refine ⟨Nat.lt_succ_self _, fun q p hp => Nat.ne_of_lt (h.proc_lt q p hp).2, ?_⟩
      intro row hrow
      exact absurd (h.row_lt _ row hrow) (Nat.lt_irrefl _)
    | some j =>
      obtain ⟨row, hrow, hi⟩ := Option.bind_eq_some_iff.mp hi
      split at hi
      · rename_i hqueued
        cases hi
        have hnot : w.inHand i = false := by simpa [Orderly, orderly] using ho
        refine ⟨h.row_lt i row hrow, h.untended hnot, ?_⟩
        intro row' hrow'
        rw [← Option.mem_unique hrow hrow']
        exact ⟨hqueued.1, hqueued.2.1⟩
      · cases hi
  obtain ⟨hlt, hnot, hrow⟩ := hfacts
  have hproc := hgrow.admitProc (r := r) hlt hnot hrow topLevel
  cases cap with
  | none => cases he; exact hproc false
  | some cap =>
    dsimp only at he
    split at he
    · cases he
      exact hproc true
    · cases he

/-! ### The steps of a sweep -/

omit h in
theorem stage_nextReplica {sw sw' : Sweep} (h : World.nextReplica sw = some sw') :
    sw'.stage = .mark := by
  rw [World.nextReplica] at h
  split at h
  · cases h
  · cases h; rfl

theorem setSweep_next {sw : Sweep} : Coherent (w.setSweep s (World.nextReplica sw)) due := by
  refine h.setSweep_idle fun sw' hsw' => ?_
  rw [stage_nextReplica hsw']
  exact ⟨nofun, nofun⟩

omit h in
/-- The slots on the rows of some runs. -/
def slotsOf (w : World) (runs : List Nat) : List Nat :=
  runs.filterMap fun i => (w.rows i).bind Row.slot

omit h in
theorem mem_slotsOf {runs : List Nat} :
    t ∈ slotsOf w runs ↔ ∃ i ∈ runs, ∃ row, w.rows i = some row ∧ row.slot = some t := by
  rw [slotsOf, List.mem_filterMap]
  simp only [Option.bind_eq_some_iff]

theorem markRuns (ho : Orderly w (.markRuns s o)) (he : w.markRuns s o = some w') : Sound w' := by
  obtain ⟨sw, hsw, he⟩ := Option.bind_eq_some_iff.mp he
  obtain ⟨id, hid, -, he⟩ := of_bind_guard he
  have hupdated := h.failRows (World.isMarked id) ownerDied
  cases o with
  | failed => cases he; exact ⟨due, h.setSweep_next⟩
  | lost => cases he; exact ⟨due, hupdated.setSweep_next⟩
  | done =>
    have hnot : ∀ i ∈ w.select (World.isMarked id), w.inHand i = false := by
      simpa [Orderly, orderly, hsw, hid] using ho
    have hrunning : ∀ i row, i ∈ w.select (World.isMarked id) → w.rows i = some row →
        row.status = .running ∧ World.isMarked id row = true := by
      intro i row hi hrow
      obtain ⟨row', hrow', hmarked⟩ := of_mem_select hi
      rw [Option.mem_unique hrow hrow']
      exact ⟨(of_decide_eq_true hmarked).2.1, hmarked⟩
    -- the slots on the marked rows are due by this sweep from here on
    let slots := slotsOf w (w.select (World.isMarked id))
    have hslots : ∀ t ∈ slots, Free w due t := by
      intro t ht
      obtain ⟨i, hi, row, hrow, hslot⟩ := mem_slotsOf.mp ht
      exact (h.rowHolds hrow).live t hslot (.inl (hrunning i row hi hrow).1)
    have hdue := hupdated.setDue slots (some s) ?_ ?_
    · cases he
      refine ⟨_, hdue.setSweep ?_ ?_⟩
      · rintro sw' i ⟨⟩ - hi
        refine ⟨h.untended (hnot i hi), ?_⟩
        obtain ⟨row, hrow, hmarked⟩ := of_mem_select hi
        refine ⟨{ row with status := .failed, error := ownerDied }, ?_, rfl, fun t ht => ?_⟩
        · simp only [World.updateRows, hrow, Option.map_some, hmarked, if_true]
        · exact if_pos (mem_slotsOf.mpr ⟨i, hi, row, hrow, ht⟩)
      · rintro sw' rs ⟨⟩ hstage
        split at hstage <;> cases hstage
    · intro t ht
      obtain ⟨i, hi, row, hrow, hslot⟩ := mem_slotsOf.mp ht
      have htaken := h.row i row t hrow hslot
      refine ⟨⟨(List.getElem?_eq_some_iff.mp htaken).1, (hslots t ht).1⟩, ?_⟩
      rintro (⟨q, p, hp, hslot'⟩ | ⟨j, row', hrow', hslot', hlive⟩)
      · have hrun := (h.only_holder hp hslot').2 i row hrow hslot
        exact h.untended (hnot i hi) q p hp hrun.symm
      · have heq := Option.mem_unique (hupdated.row j row' t hrow' hslot') htaken
        obtain rfl : j = i := congrArg Taking.run heq
        obtain hrun | ⟨q, p, hp, hrun, -⟩ := hlive
        · simp only [World.updateRows, hrow, Option.map_some, (hrunning j row hi hrow).2,
            if_true] at hrow'
          cases hrow'
          cases hrun
        · exact h.untended (hnot j hi) q p hp hrun
    · intro t ht s' sw' hdue
      rw [(hslots t ht).2] at hdue
      cases hdue

omit h in
theorem nodup_keys (w : World) (id : String) : ((w.quotaRows id).map Reap.key).Nodup := by
  rw [World.quotaRows, List.map_map]
  exact (List.map_id _).symm ▸ List.nodup_dedup _

/-- The rows of a query are for slots that are due, if each row it counts was marked. -/
theorem owes_quotaRows {id : String}
    (hmarked : ∀ i row, i ∈ w.select (World.isLeaked id) → w.rows i = some row →
      row.accounted = true ∧ ∀ t, row.slot = some t → due t = some s) :
    Owes w.taken due s (w.quotaRows id) := by
  have hmem : ∀ {r}, r ∈ w.quotaRows id →
      ∃ runs, runs.Sublist (w.select (World.isLeaked id)) ∧
        (∀ i ∈ runs, ∃ row, w.rows i = some row ∧ row.key = r.key ∧ row.slot.isSome = true) ∧
        r.leaked = runs.length ∧ r.slots = slotsOf w runs := by
    intro r hr
    obtain ⟨key, -, rfl⟩ := List.mem_map.mp hr
    refine ⟨_, List.filter_sublist, fun i hi => ?_, rfl, rfl⟩
    obtain ⟨hi, hkey⟩ := List.mem_filter.mp hi
    obtain ⟨row, hrow, hleaked⟩ := of_mem_select hi
    rw [hrow] at hkey
    refine ⟨row, hrow, of_decide_eq_true hkey, ?_⟩
    have hsays := (of_decide_eq_true hleaked).2.2.2.2
    cases hrecord : row.userSlot with
    | none => simpa [Row.accounted, hrecord] using (hmarked i row hi hrow).1
    | some b =>
      rw [hrecord] at hsays
      rw [← h.honest i row hrow b hrecord]
      exact hsays
  have hslot : ∀ {r}, r ∈ w.quotaRows id → ∀ t ∈ r.slots,
      due t = some s ∧ IsOf Taking.key w.taken r.key t := by
    intro r hr t ht
    obtain ⟨runs, hsub, hrows, -, hslots⟩ := hmem hr
    rw [hslots, mem_slotsOf] at ht
    obtain ⟨i, hi, row, hrow, hslot⟩ := ht
    obtain ⟨row', hrow', hkey, -⟩ := hrows i hi
    cases Option.mem_unique hrow hrow'
    refine ⟨(hmarked i row (hsub.subset hi) hrow).2 t hslot, ?_⟩
    rw [IsOf, h.row i row t hrow hslot, ← hkey]
    rfl
  refine ⟨?_, ?_, fun r hr => hslot hr⟩
  · refine List.nodup_flatMap.mpr ⟨fun r hr => ?_, ?_⟩
    · obtain ⟨runs, hsub, -, -, hslots⟩ := hmem hr
      rw [hslots]
      refine ((List.nodup_range.filter _).sublist hsub).filterMap ?_
      intro i j t hi hj
      obtain ⟨row, hrow, ht⟩ := Option.bind_eq_some_iff.mp hi
      obtain ⟨row', hrow', ht'⟩ := Option.bind_eq_some_iff.mp hj
      have htaken := (h.row i row t hrow ht).symm.trans (h.row j row' t hrow' ht')
      exact congrArg Taking.run (Option.some.inj htaken)
    · refine (List.pairwise_map.mp (nodup_keys w id)).imp_of_mem ?_
      intro r r' hr hr' hne t ht ht'
      exact hne (Option.mem_unique (hslot hr t ht).2 (hslot hr' t ht').2)
  · intro r hr
    obtain ⟨runs, -, hrows, hleaked, hslots⟩ := hmem hr
    rw [hleaked, hslots, slotsOf, eq_comm, List.filterMap_length_eq_length]
    intro i hi
    obtain ⟨row, hrow, -, hsome⟩ := hrows i hi
    rw [hrow]
    exact hsome

omit h in
theorem stage_afterReaps {reaps rs : List Reap} (h : World.afterReaps reaps = .decrement rs) :
    rs = reaps := by
  cases reaps with
  | nil => cases h
  | cons r reaps => cases h; rfl

omit h in
theorem afterReaps_ne_query (reaps : List Reap) : World.afterReaps reaps ≠ .query := by
  cases reaps <;> nofun

/-- A sweep goes on to its decrements. -/
theorem setReaps (sw : Sweep) {reaps : List Reap} (howes : Owes w.taken due s reaps) :
    Coherent (w.setSweep s (some { sw with stage := World.afterReaps reaps })) due := by
  refine h.setSweep ?_ ?_
  · rintro sw' i ⟨⟩ hquery
    exact absurd hquery (afterReaps_ne_query _)
  · rintro sw' rs ⟨⟩ hrs
    rw [stage_afterReaps hrs]
    exact howes

theorem queryQuotas (ho : Orderly w (.queryQuotas s o))
    (he : w.queryQuotas s o = some w') : Coherent w' due := by
  obtain ⟨sw, hsw, he⟩ := Option.bind_eq_some_iff.mp he
  obtain ⟨id, hid, hstage, he⟩ := of_bind_guard he
  have hskip : Coherent (w.setSweep s (some { sw with stage := .failQueued })) due :=
    h.setSweep_idle (by rintro sw' ⟨⟩; exact ⟨nofun, nofun⟩)
  cases o with
  | failed | lost => cases he; exact hskip
  | done =>
    have hmarked : ∀ i ∈ w.select (World.isLeaked id),
        i ∈ sw.marked ∧ (w.rows i).all Row.accounted = true := by
      simpa [Orderly, orderly, hsw, hid] using ho
    cases he
    refine h.setReaps sw (h.owes_quotaRows fun i row hi hrow => ?_)
    obtain ⟨hmark, haccounted⟩ := hmarked i hi
    obtain ⟨-, row', hrow', -, hdue⟩ := h.marked s sw i hsw hstage hmark
    cases Option.mem_unique hrow hrow'
    rw [hrow] at haccounted
    exact ⟨haccounted, hdue⟩

theorem decrementQuota (he : w.decrementQuota s o = some w') : Sound w' := by
  obtain ⟨sw, hsw, he⟩ := Option.bind_eq_some_iff.mp he
  split at he
  · rename_i r reaps hstage
    obtain ⟨hnodup, hleaked, hdue⟩ := h.reaps s sw _ hsw hstage
    rw [List.flatMap_cons, List.nodup_append] at hnodup
    obtain ⟨hfirst, hrest, hapart⟩ := hnodup
    have hafter := h.setReaps sw ⟨hrest, fun r' hr' => hleaked r' (List.mem_cons_of_mem _ hr'),
      fun r' hr' => hdue r' (List.mem_cons_of_mem _ hr')⟩
    have hfirstDue := hdue r List.mem_cons_self
    have hopen : ∀ t ∈ r.slots, (t < w.taken.length ∧ t ∉ w.log) ∧ ¬ Held w t := by
      refine fun t ht => ⟨h.due t s (hfirstDue t ht).1, fun hheld => ?_⟩
      have hnone := (h.free t hheld).2
      rw [(hfirstDue t ht).1] at hnone
      cases hnone
    have hclear := hafter.setDue r.slots none hopen ?_
    · have hreap := hclear.subtract (hleaked r List.mem_cons_self) hfirst
        (fun t ht => (hfirstDue t ht).2)
        fun t ht => ⟨⟨(hopen t ht).1.2, if_pos ht⟩, (hopen t ht).2⟩
      cases o with
      | failed => cases he; exact ⟨due, hafter⟩
      | done | lost => cases he; exact ⟨_, hreap⟩
    · intro t ht s' sw' hdue' hsw'
      obtain rfl := Option.mem_unique (hfirstDue t ht).1 hdue'
      obtain ⟨-, ⟨⟩⟩ | ⟨hne, -⟩ := of_update hsw'
      · refine ⟨afterReaps_ne_query _, fun rs hstage' r' hr' ht' => ?_⟩
        rw [stage_afterReaps hstage'] at hr'
        exact hapart t ht t (List.mem_flatMap.mpr ⟨r', hr', ht'⟩) rfl
      · exact absurd rfl hne
  · cases he

theorem failQueued (he : w.failQueued s o = some w') : Coherent w' due := by
  obtain ⟨sw, hsw, he⟩ := Option.bind_eq_some_iff.mp he
  obtain ⟨id, hid, -, he⟩ := of_bind_guard he
  have hupdated := h.failRows (World.isQueued id) ownerDiedQueued
  cases o with
  | failed => cases he; exact h.setSweep_next
  | lost => cases he; exact hupdated.setSweep_next
  | done =>
    cases he
    exact hupdated.setSweep_idle
      (by rintro sw' ⟨⟩; exact ⟨nofun, nofun⟩)

theorem deleteDead (he : w.deleteDead s o = some w') : Coherent w' due := by
  obtain ⟨sw, hsw, he⟩ := Option.bind_eq_some_iff.mp he
  obtain ⟨id, hid, -, he⟩ := of_bind_guard he
  have hnext : Coherent (w.setSweep s (World.nextReplica sw)) due := h.setSweep_next
  cases o with
  | failed => cases he; exact hnext
  | done | lost => cases he; exact { hnext with }

end Coherent

/-! ### Whole histories -/

theorem coherent_init : Coherent {} fun _ => none where
  ledger := balanced_nil
  proc_lt _ _ hp := nomatch hp
  row_lt _ _ hrow := nomatch hrow
  one _ _ _ _ hp := nomatch hp
  key _ _ _ hp := nomatch hp
  fits _ _ hp := nomatch hp
  proc _ _ _ hp := nomatch hp
  row _ _ _ hrow := nomatch hrow
  free := by
    rintro t (⟨_, _, hp, -⟩ | ⟨_, _, hrow, -⟩)
    · cases hp
    · cases hrow
  honest _ _ hrow := nomatch hrow
  off _ _ _ _ hp := nomatch hp
  marked _ _ _ hsw := nomatch hsw
  reaps _ _ _ hsw := nomatch hsw
  due _ _ hdue := nomatch hdue

theorem sound_step {staleAfter : Nat} {w w' : World} {l : Label} (h : Sound w) (ho : Orderly w l)
    (he : step staleAfter w l = some w') : Sound w' := by
  obtain ⟨due, h⟩ := h
  cases l with
  | tick n | boot r | deleteReplica r => cases he; exact ⟨due, { h with }⟩
  | die r =>
    have hdrop := h.dropProcs (fun q => (w.procs q).filter fun p => p.replica ≠ r)
      fun q p hp => (Option.filter_eq_some_iff.mp hp).1
    cases he
    exact ⟨due, { hdrop with }⟩
  | beat r =>
    rw [step, World.beat] at he
    split at he
    · cases he
      exact ⟨due, { h with }⟩
    · cases he
  | queue r key topLevel => exact ⟨due, h.queue he⟩
  | restore key topLevel => cases he; exact ⟨due, h.newRow _ rfl rfl⟩
  | enter r queued key topLevel cap => exact ⟨due, h.admitRun ho he⟩
  | start q older o => exact ⟨due, h.start he⟩
  | setPaused i paused => exact ⟨due, h.setPaused he⟩
  | finish i status error => exact ⟨due, h.finish he⟩
  | release q o => exact ⟨due, h.release ho he⟩
  | claim r i owned o => exact ⟨due, h.claim ho he⟩
  | unclaim q o => exact ⟨due, h.unclaim he⟩
  | setReplica q => exact ⟨due, h.setReplica he⟩
  | take q o => exact ⟨due, h.take he⟩
  | takeUnrecorded q o => exact ⟨due, h.takeUnrecorded ho he⟩
  | giveBack q o => exact ⟨due, h.giveBack he⟩
  | countAdmitted q o => exact ⟨due, h.countAdmitted he⟩
  | runUncounted q => exact ⟨due, h.runUncounted he⟩
  | record q o => exact ⟨due, h.record he⟩
  | sweepOnce ids =>
    rw [step, World.sweepOnce] at he
    split at he
    · have hsweep : Coherent (w.setSweep w.nextSweep (some { todo := ids })) due := h.setSweep_idle
        (by rintro sw' ⟨⟩; exact ⟨nofun, nofun⟩)
      cases he
      exact ⟨due, { hsweep with }⟩
    · cases he
  | markRuns s o => exact h.markRuns ho he
  | queryQuotas s o => exact ⟨due, h.queryQuotas ho he⟩
  | decrementQuota s o => exact h.decrementQuota he
  | failQueued s o => exact ⟨due, h.failQueued he⟩
  | deleteDead s o => exact ⟨due, h.deleteDead he⟩
  | abandon s => cases he; exact ⟨due, h.setSweep_idle nofun⟩

/-- Every slot is subtracted at most once, and a user's count is never below the number of the
user's runs that hold a slot, the runs of the processes that have one among them. -/
theorem slots_given_back_once {staleAfter : Nat} {w : World}
    (h : Run (step staleAfter) Orderly {} w) :
    w.log.Nodup ∧ (∀ key, (w.holders key).length ≤ w.activeCount key) ∧
      ∀ q p t, w.procs q = some p → p.slot = some t → p.run ∈ w.holders p.key := by
  obtain ⟨due, hw⟩ := h.invariant (fun _ _ _ hs ho he => sound_step hs ho he) ⟨_, coherent_init⟩
  refine ⟨hw.ledger.nodup, fun key => ?_, fun q p t hp ht => ?_⟩
  · rw [hw.ledger.count_eq key]
    exact (List.dedup_sublist _).length_le.trans_eq (List.length_map _)
  obtain ⟨htaken, hlog, -⟩ := (hw.procHolds hp).slot t ht
  refine List.mem_dedup.mpr (List.mem_map.mpr ⟨t, mem_outstanding.mpr ⟨?_, hlog⟩, ?_⟩)
  · exact hw.isOf_proc hp ht
  · rw [htaken]
    rfl

/-- A life of the replica `r`: its run ends with it, and a sweep gives the slot back. -/
def oneDeath : List Label :=
  [.boot "r", .beat "r", .enter "r" none ⟨"t", "u"⟩ true (some 2), .start 0 false .done, .die "r",
    .tick 61, .sweepOnce ["r"], .markRuns 0 .done, .queryQuotas 0 .done, .decrementQuota 0 .done,
    .failQueued 0 .done, .deleteDead 0 .done]

/-- The replica starts again under its id, with another run; a run of the user on `s` goes on. -/
def secondDeath : List Label :=
  oneDeath ++ [.boot "r", .beat "r", .enter "r" none ⟨"t", "u"⟩ true (some 2), .start 1 false .done,
    .boot "s", .beat "s", .enter "s" none ⟨"t", "u"⟩ true (some 2), .start 2 false .done, .die "r",
    .tick 61, .sweepOnce ["r"], .markRuns 1 .done, .queryQuotas 1 .done, .decrementQuota 1 .done]

theorem slots_given_back_once_oneDeath : ∃ w, Run (step 60) Orderly {} w ∧ w.log = [0] ∧
    w.log.Nodup ∧ (∀ key, (w.holders key).length ≤ w.activeCount key) ∧
      ∀ q p t, w.procs q = some p → p.slot = some t → p.run ∈ w.holders p.key := by
  obtain ⟨w, hrun, hlog⟩ :=
    exists_run_guarded (step 60) Orderly {} oneDeath (p := (·.log = [0])) (by decide +kernel)
  exact ⟨w, hrun, hlog, slots_given_back_once hrun⟩

/-- The second sweep counts the row of the first life again: the user has a run on `s`, and no
count. -/
theorem slot_given_back_twice : ∃ w, Run (step 60) Any {} w ∧ w.log = [0, 0, 1] ∧
    w.activeCount ⟨"t", "u"⟩ = 0 ∧ w.holders ⟨"t", "u"⟩ = [2] :=
  exists_run (step 60) {} secondDeath (by decide +kernel)

end Loomcycle.Coord
