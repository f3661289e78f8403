import Loomcycle.Cancel.Registry
import Loomcycle.Lib.Keyed
import Mathlib.Data.List.Perm.Subperm
import Mathlib.Data.List.Count

/-! What a cancel reaches. A cancel function is called at most once whatever the order of
the methods' sections. That a run keeps its own entry until it is cancelled or ends, and
that a cancel reaches every run below its root, needs an order of the lifecycles: an agent
id is taken again only after its last run called `Deregister`, and a run does so only after
the runs below it. -/

namespace Loomcycle.Cancel.Registry
open Lib Lib.Transition

variable {s s' : Registry} {a : Label} {e : Entry}

/-! ## What all cancels in progress hold -/

/-- The entries taken out whose cancel functions are still to be called. -/
def firing (s : Registry) : List Entry :=
  s.cancels.flatMap CancelCall.firing

/-- The ids whose children some cancel has yet to collect. -/
def pending (s : Registry) : List String :=
  s.cancels.flatMap CancelCall.pending

/-- The cancel function of `e` was called, or a cancel is about to call it. -/
def Cancelled (s : Registry) (e : Entry) : Prop :=
  e ∈ s.firing ∨ e.cancelFn ∈ s.fired

instance : Decidable (s.Cancelled e) :=
  inferInstanceAs (Decidable (_ ∨ _))

/-- No cancel is in progress. -/
def Quiet (s : Registry) : Prop :=
  ∀ c ∈ s.cancels, c.returned = true

instance : Decidable s.Quiet :=
  inferInstanceAs (Decidable (∀ c ∈ s.cancels, c.returned = true))

variable {c : CancelCall} {i : Nat} {rest : List Entry} {parent agentID : String}

section

variable (hc : s.cancels[i]? = some c)
include hc

/-- What replacing one cancel does to a list gathered from all of them. -/
theorem exists_flat {α : Type} (c' : CancelCall) (f : CancelCall → List α) :
    ∃ rest, (s.cancels.flatMap f).Perm (f c ++ rest) ∧
      ((s.cancels.set i c').flatMap f).Perm (f c' ++ rest) := by
  obtain ⟨hlt, rfl⟩ := List.getElem?_eq_some_iff.mp hc
  exact ⟨_, (List.getElem_cons_eraseIdx_perm hlt).symm.flatMap_right f,
    (List.set_perm_cons_eraseIdx hlt c').flatMap_right f⟩

theorem firing_fire (hf : c.firing = e :: rest) :
    s.firing.Perm (e :: (s.cancels.set i (c.fire e rest)).flatMap CancelCall.firing) := by
  obtain ⟨others, hs, hs'⟩ := exists_flat hc (c.fire e rest) CancelCall.firing
  rw [hf] at hs
  exact hs.trans (hs'.symm.cons e)

theorem pending_fire (hf : c.firing = e :: rest) :
    s.pending.Perm ((s.cancels.set i (c.fire e rest)).flatMap CancelCall.pending) := by
  obtain ⟨others, hs, hs'⟩ := exists_flat hc (c.fire e rest) CancelCall.pending
  have hsame : (c.fire e rest).pending = c.pending := by
    simp [CancelCall.pending, CancelCall.fire, hf]
  rw [hsame] at hs'
  exact hs.trans hs'.symm

theorem firing_walk (hf : c.firing = []) (found : List Entry)
    (rest : List String) : ((s.cancels.set i { c with firing := found, queue := rest }).flatMap
      CancelCall.firing).Perm (found ++ s.firing) := by
  obtain ⟨others, hs, hs'⟩ :=
    exists_flat hc { c with firing := found, queue := rest } CancelCall.firing
  rw [hf] at hs
  exact hs'.trans (hs.symm.append_left found)

theorem pending_walk {rest : List String} (hf : c.firing = [])
    (hq : c.queue = parent :: rest) (found : List Entry) :
    ∃ others, s.pending.Perm (parent :: others) ∧
      ((s.cancels.set i { c with firing := found, queue := rest }).flatMap
        CancelCall.pending).Perm (found.map Entry.agentID ++ others) := by
  obtain ⟨others, hs, hs'⟩ :=
    exists_flat hc { c with firing := found, queue := rest } CancelCall.pending
  simp only [CancelCall.pending, hf, hq, List.map_nil, List.append_nil, List.cons_append] at hs hs'
  refine ⟨rest ++ others, hs, hs'.trans ?_⟩
  rw [← List.append_assoc]
  exact List.perm_append_comm.append_right others

end

theorem pending_eq_nil (hquiet : s.Quiet) : s.pending = [] := by
  rw [pending, List.flatMap_eq_nil_iff]
  intro c hc
  obtain ⟨hf, hq⟩ := Bool.and_eq_true_iff.mp (hquiet c hc)
  simp [CancelCall.pending, List.isEmpty_iff.mp hf, List.isEmpty_iff.mp hq]

theorem firing_eq_nil (hquiet : s.Quiet) : s.firing = [] := by
  rw [firing, List.flatMap_eq_nil_iff]
  intro c hc
  exact List.isEmpty_iff.mp (Bool.and_eq_true_iff.mp (hquiet c hc)).1

/-! ## Each cancel function is called at most once -/

/-- The runs whose entry is in the map, or was taken out of it by a cancel. -/
def runs (s : Registry) : List Nat :=
  (s.entries ++ s.firing).map Entry.cancelFn ++ s.fired

/-- Facts that hold whatever the order of the sections. -/
structure Sound (s : Registry) : Prop where
  keys : (s.entries.map Entry.agentID).Nodup
  distinct : (s.registered.map Entry.cancelFn).Nodup
  known : ∀ e ∈ s.entries, e ∈ s.registered
  endedKnown : ∀ r ∈ s.ended, r ∈ s.registered.map Entry.cancelFn
  runsKnown : ∀ r ∈ s.runs, r ∈ s.registered.map Entry.cancelFn
  once : s.runs.Nodup

theorem mem_delete : e ∈ s.delete agentID ↔ e ∈ s.entries ∧ e.agentID ≠ agentID := by
  simp [delete]

theorem delete_perm (hkeys : (s.entries.map Entry.agentID).Nodup) (he : e ∈ s.entries) :
    s.entries.Perm (e :: s.delete e.agentID) :=
  (List.perm_cons_erase he).trans ((Keyed.filter_ne_perm hkeys he).symm.cons e)

theorem walk_perm {found : List Entry} (hfound : found.Perm (s.children parent)) :
    s.entries.Perm (s.entries.filter (·.parentAgentID ≠ parent) ++ found) := by
  refine (List.filter_append_perm (·.parentAgentID ≠ parent) s.entries).symm.trans ?_
  refine List.Perm.append_left _ (List.Perm.trans ?_ hfound.symm)
  exact .of_eq (List.filter_congr fun e _ => by simp)

/-- No run comes into play from `s` to `s'`. -/
structure Fewer (s s' : Registry) : Prop where
  registered : s'.registered = s.registered
  entries : s'.entries.Sublist s.entries
  ended : ∀ r ∈ s'.ended, r ∈ s.ended ∨ r ∈ s.registered.map Entry.cancelFn
  runs : s'.runs.Subperm s.runs

/-- Only `Register` brings a run into play. -/
theorem fewer_of_effect (hkeys : (s.entries.map Entry.agentID).Nodup) (h : Effect s a s') :
    (∃ e, e.cancelFn ∉ s.registered.map Entry.cancelFn ∧ s.get e.agentID = none ∧
      s' = { s with entries := e :: s.entries, registered := e :: s.registered }) ∨
      Fewer s s' := by
  cases h with
  | register hfresh hid => exact .inl ⟨_, hfresh, hid, rfl⟩
  | deregister hreg =>
    refine .inr ⟨rfl, List.filter_sublist, fun r hr => ?_, List.Sublist.subperm ?_⟩
    · obtain rfl | hr := List.mem_cons.mp hr
      · exact .inr (List.mem_map_of_mem hreg)
      · exact .inl hr
    · exact ((List.filter_sublist.append_right _).map _).append_right _
  | hit _ hget =>
    refine .inr ⟨rfl, List.filter_sublist, fun _ => .inl,
      (List.perm_iff_count.mpr fun r => ?_).subperm⟩
    have hdelete := ((delete_perm hkeys (List.mem_of_find?_eq_some hget)).map Entry.cancelFn).count_eq r
    simp only [runs, firing, List.flatMap_append, List.flatMap_cons, List.flatMap_nil,
      List.append_nil, List.map_append, List.map_cons, List.map_nil, List.count_append,
      List.count_cons, List.count_nil] at hdelete ⊢
    omega
  | fire hc hf =>
    refine .inr ⟨rfl, .refl _, fun _ => .inl, (List.perm_iff_count.mpr fun r => ?_).subperm⟩
    have hfire := ((firing_fire hc hf).map Entry.cancelFn).count_eq r
    simp only [runs, firing, List.map_append, List.map_cons, List.count_append, List.count_cons,
      List.count_nil] at hfire ⊢
    omega
  | @walk i c parent rest found hc hf _ hfound =>
    refine .inr ⟨rfl, List.filter_sublist, fun _ => .inl,
      (List.perm_iff_count.mpr fun r => ?_).subperm⟩
    have hwalk := ((firing_walk hc hf found rest).map Entry.cancelFn).count_eq r
    have hentries := ((walk_perm hfound).map Entry.cancelFn).count_eq r
    simp only [runs, firing, List.map_append, List.count_append] at hwalk hentries ⊢
    omega

theorem sound_step (hs : Sound s) (h : step s a = some s') : Sound s' := by
  obtain rfl | h := effect_of_step h
  · exact hs
  obtain ⟨e, hfresh, hid, rfl⟩ | hfewer := fewer_of_effect hs.keys h
  · have hkey : e.agentID ∉ s.entries.map Entry.agentID := by
      intro hmem
      obtain ⟨f, hf, hfe⟩ := List.mem_map.mp hmem
      exact absurd hfe (by simpa using List.find?_eq_none.mp hid f hf)
    exact
      { keys := List.nodup_cons.mpr ⟨hkey, hs.keys⟩
        distinct := List.nodup_cons.mpr ⟨hfresh, hs.distinct⟩
        known := List.forall_mem_cons.mpr
          ⟨List.mem_cons_self, fun f hf => List.mem_cons_of_mem _ (hs.known f hf)⟩
        endedKnown := fun r hr => List.mem_cons_of_mem _ (hs.endedKnown r hr)
        runsKnown := List.forall_mem_cons.mpr
          ⟨List.mem_cons_self, fun r hr => List.mem_cons_of_mem _ (hs.runsKnown r hr)⟩
        once := List.nodup_cons.mpr ⟨fun hr => hfresh (hs.runsKnown _ hr), hs.once⟩ }
  · obtain ⟨hreg, hentries, hended, hruns⟩ := hfewer
    refine ⟨hs.keys.sublist (hentries.map _), hreg ▸ hs.distinct, ?_, ?_, ?_, ?_⟩
    · intro f hf
      rw [hreg]
      exact hs.known f (hentries.subset hf)
    · intro r hr
      rw [hreg]
      exact (hended r hr).elim (hs.endedKnown r) id
    · intro r hr
      rw [hreg]
      exact hs.runsKnown r (hruns.subset hr)
    · obtain ⟨l, hperm, hsub⟩ := hruns
      exact hperm.nodup_iff.mp (hs.once.sublist hsub)

theorem sound_init : Sound {} :=
  ⟨List.nodup_nil, List.nodup_nil, nofun, nofun, nofun, List.nodup_nil⟩

theorem Sound.get_eq (hs : Sound s) (he : e ∈ s.entries) : s.get e.agentID = some e :=
  Keyed.find?_key hs.keys he

/-! ## Runs below a cancelled one -/

/-- The entries whose chain of parents, all of them in the map, leads to an id in `top`. -/
inductive Below (entries : List Entry) (top : String → Prop) : Entry → Prop
  | child {e : Entry} (he : e ∈ entries) (htop : top e.parentAgentID) : Below entries top e
  | deeper {m e : Entry} (hm : Below entries top m) (he : e ∈ entries)
      (hparent : e.parentAgentID = m.agentID) : Below entries top e

/-- Where the map and the ids at the top change: an entry that stays keeps a parent at the
top, and one that goes becomes a top itself, unless it has no children. -/
theorem Below.transfer {entries entries' : List Entry} {top top' : String → Prop}
    {gone : Entry → Prop}
    (hstep : ∀ e ∈ entries,
      e ∈ entries' ∧ (top e.parentAgentID → top' e.parentAgentID) ∨
      gone e ∧ (top' e.agentID ∨ ∀ f ∈ entries, f.parentAgentID ≠ e.agentID))
    (h : Below entries top e) :
    Below entries' top' e ∨
      gone e ∧ (top' e.agentID ∨ ∀ f ∈ entries, f.parentAgentID ≠ e.agentID) := by
  induction h with
  | child he htop =>
    exact (hstep _ he).imp (fun hstay => .child hstay.1 (hstay.2 htop)) id
  | deeper _ he hparent ih =>
    obtain ⟨hstay, -⟩ | hgone := hstep _ he
    · obtain hm | ⟨-, htop | hchildless⟩ := ih
      · exact .inl (.deeper hm hstay hparent)
      · exact .inl (.child hstay (by rwa [hparent]))
      · exact absurd hparent (hchildless _ he)
    · exact .inr hgone

/-- An agent id is registered again only after every run that held it called `Deregister`,
and a run calls it only when no run in the map has it as its parent. -/
def Orderly (s : Registry) : Label → Prop
  | .register e => ∀ f ∈ s.registered, f.agentID = e.agentID → f.cancelFn ∈ s.ended
  | .deregister e => ∀ f ∈ s.entries, f.parentAgentID ≠ e.agentID
  | _ => True

instance (s : Registry) : (a : Label) → Decidable (Orderly s a)
  | .register e => inferInstanceAs
      (Decidable (∀ f ∈ s.registered, f.agentID = e.agentID → f.cancelFn ∈ s.ended))
  | .deregister e => inferInstanceAs (Decidable (∀ f ∈ s.entries, f.parentAgentID ≠ e.agentID))
  | .cancel _ | .cancelLocalRun _ _ | .fire _ | .walk _ _ => .isTrue trivial

/-- `e` ended, is cancelled, or is on the way of a cancel in progress. -/
def Settled (s : Registry) (e : Entry) : Prop :=
  e.cancelFn ∈ s.ended ∨ s.Cancelled e ∨ Below s.entries (· ∈ s.pending) e

/-- Facts that hold while the lifecycles are in order. -/
structure Reaching (s : Registry) : Prop where
  sound : Sound s
  live : ∀ e ∈ s.entries, e.cancelFn ∉ s.ended
  alone : ∀ e ∈ s.registered, ∀ f ∈ s.registered, e.agentID = f.agentID →
    e.cancelFn ∉ s.ended → f.cancelFn ∉ s.ended → e = f
  present : ∀ e ∈ s.registered, e ∈ s.entries ∨ e.cancelFn ∈ s.ended ∨ s.Cancelled e
  root : ∀ c ∈ s.cancels, s.Cancelled c.root
  below : ∀ c ∈ s.cancels, ∀ e, Below c.seen (· = c.root.agentID) e → s.Settled e

theorem cancelled_of_effect (h : Effect s a s') (hc : s.Cancelled e) : s'.Cancelled e := by
  cases h with
  | register => exact hc
  | deregister => exact hc
  | hit =>
    refine hc.imp (fun hf => ?_) id
    simp only [firing, List.flatMap_append]
    exact List.mem_append_left _ hf
  | fire hget hf =>
    obtain hmem | hfired := hc
    · obtain rfl | hrest := List.mem_cons.mp ((firing_fire hget hf).subset hmem)
      · exact .inr (List.mem_append_right _ List.mem_cons_self)
      · exact .inl hrest
    · exact .inr (List.mem_append_left _ hfired)
  | @walk i c parent rest found hget hf =>
    refine hc.imp (fun hmem => ?_) id
    exact (firing_walk hget hf found rest).symm.subset (List.mem_append_right _ hmem)

theorem ended_of_effect (h : Effect s a s') {r : Nat} (hr : r ∈ s.ended) : r ∈ s'.ended := by
  cases h with
  | deregister => exact List.mem_cons_of_mem _ hr
  | _ => exact hr

/-- An entry of the map stays there, below the same pending ids, or goes because its run
ended or is cancelled; then its children are collected later, or it has none. -/
theorem stays_or_goes (hs : Reaching s) (ho : Orderly s a) (h : Effect s a s') :
    ∀ e ∈ s.entries,
      e ∈ s'.entries ∧ (e.parentAgentID ∈ s.pending → e.parentAgentID ∈ s'.pending) ∨
      (e.cancelFn ∈ s'.ended ∨ s'.Cancelled e) ∧
        (e.agentID ∈ s'.pending ∨ ∀ f ∈ s.entries, f.parentAgentID ≠ e.agentID) := by
  intro e he
  cases h with
  | register => exact .inl ⟨List.mem_cons_of_mem _ he, id⟩
  | @deregister x hreg hend =>
    by_cases hid : e.agentID = x.agentID
    · -- the entry under the id is that of the run that calls
      have heq := hs.alone e (hs.sound.known e he) x hreg hid (hs.live e he) hend
      subst heq
      exact .inr ⟨.inl List.mem_cons_self, .inr ho⟩
    · exact .inl ⟨mem_delete.mpr ⟨he, hid⟩, id⟩
  | @hit _ root _ hget =>
    by_cases hid : e.agentID = root.agentID
    · have heq : e = root := Option.mem_unique (hs.sound.get_eq he) (hid ▸ hget)
      subst heq
      refine .inr ⟨.inr (.inl ?_), .inl ?_⟩
      · simp [firing]
      · simp [pending, CancelCall.pending]
    · refine .inl ⟨mem_delete.mpr ⟨he, hid⟩, fun hp => ?_⟩
      simp only [pending, List.flatMap_append]
      exact List.mem_append_left _ hp
  | fire hc hf => exact .inl ⟨he, fun hp => (pending_fire hc hf).subset hp⟩
  | @walk i c parent rest found hc hf hq hfound =>
    obtain ⟨others, hpending, hpending'⟩ := pending_walk hc hf hq found
    by_cases hparent : e.parentAgentID = parent
    · have hmem : e ∈ found := hfound.symm.subset (List.mem_filter.mpr ⟨he, by simpa using hparent⟩)
      refine .inr ⟨.inr (.inl ?_), .inl ?_⟩
      · exact (firing_walk hc hf found rest).symm.subset (List.mem_append_left _ hmem)
      · exact hpending'.symm.subset (List.mem_append_left _ (List.mem_map_of_mem hmem))
    · refine .inl ⟨List.mem_filter.mpr ⟨he, by simpa using hparent⟩, fun hp => ?_⟩
      obtain hp | hp := List.mem_cons.mp (hpending.subset hp)
      · exact absurd hp hparent
      · exact hpending'.symm.subset (List.mem_append_right _ hp)

theorem settled_of_effect (hs : Reaching s) (ho : Orderly s a) (h : Effect s a s')
    (hset : s.Settled e) : s'.Settled e := by
  obtain hend | hcan | hbelow := hset
  · exact .inl (ended_of_effect h hend)
  · exact .inr (.inl (cancelled_of_effect h hcan))
  · obtain hbelow | ⟨hend | hcan, -⟩ := hbelow.transfer (stays_or_goes hs ho h)
    · exact .inr (.inr hbelow)
    · exact .inl hend
    · exact .inr (.inl hcan)

/-- A cancel of the new state is one of the old with the same root and the same record of
the map, or it has just hit. -/
theorem cancel_of_effect (h : Effect s a s') (hc : c ∈ s'.cancels) :
    (∃ d ∈ s.cancels, c.root = d.root ∧ c.seen = d.seen) ∨
      c.seen = s'.entries ∧ c.root ∈ s'.firing ∧ c.root.agentID ∈ s'.pending := by
  cases h with
  | register | deregister => exact .inl ⟨c, hc, rfl, rfl⟩
  | hit =>
    obtain hold | hnew := List.mem_append.mp hc
    · exact .inl ⟨c, hold, rfl, rfl⟩
    · obtain rfl := List.mem_singleton.mp hnew
      exact .inr ⟨rfl, by simp [firing], by simp [pending, CancelCall.pending]⟩
  | fire hget | walk hget =>
    obtain hold | rfl := List.mem_or_eq_of_mem_set hc
    · exact .inl ⟨c, hold, rfl, rfl⟩
    · exact .inl ⟨_, List.mem_of_getElem? hget, rfl, rfl⟩

/-- The runs that registered and have not ended hold different ids, and those in the map
have not ended. -/
theorem alone_of_effect (hs : Reaching s) (ho : Orderly s a) (h : Effect s a s') :
    (∀ e ∈ s'.entries, e.cancelFn ∉ s'.ended) ∧
      ∀ e ∈ s'.registered, ∀ f ∈ s'.registered, e.agentID = f.agentID →
        e.cancelFn ∉ s'.ended → f.cancelFn ∉ s'.ended → e = f := by
  cases h with
  | @register x hfresh =>
    have hnew : x.cancelFn ∉ s.ended := fun hx => hfresh (hs.sound.endedKnown _ hx)
    refine ⟨List.forall_mem_cons.mpr ⟨hnew, hs.live⟩, ?_⟩
    intro e he f hf hid hee hfe
    obtain rfl | he' := List.mem_cons.mp he
    · obtain rfl | hf' := List.mem_cons.mp hf
      · rfl
      · exact absurd (ho f hf' hid.symm) hfe
    · obtain rfl | hf' := List.mem_cons.mp hf
      · exact absurd (ho e he' hid) hee
      · exact hs.alone e he' f hf' hid hee hfe
  | @deregister x hreg =>
    refine ⟨fun e he hend => ?_, fun e he f hf hid hee hfe => ?_⟩
    · obtain ⟨he, hid⟩ := mem_delete.mp he
      obtain heq | hend := List.mem_cons.mp hend
      · exact hid (congrArg _ (List.inj_on_of_nodup_map hs.sound.distinct (hs.sound.known e he) hreg heq))
      · exact hs.live e he hend
    · exact hs.alone e he f hf hid (fun hx => hee (List.mem_cons_of_mem _ hx))
        (fun hx => hfe (List.mem_cons_of_mem _ hx))
  | hit => exact ⟨fun e he => hs.live e (mem_delete.mp he).1, hs.alone⟩
  | fire => exact ⟨hs.live, hs.alone⟩
  | walk => exact ⟨fun e he => hs.live e (List.mem_of_mem_filter he), hs.alone⟩

theorem present_of_effect (hs : Reaching s) (ho : Orderly s a) (h : Effect s a s') :
    ∀ e ∈ s'.registered, e ∈ s'.entries ∨ e.cancelFn ∈ s'.ended ∨ s'.Cancelled e := by
  have hold : ∀ e ∈ s.registered, e ∈ s'.entries ∨ e.cancelFn ∈ s'.ended ∨ s'.Cancelled e := by
    intro e he
    obtain hmem | hend | hcan := hs.present e he
    · exact (stays_or_goes hs ho h e hmem).imp And.left And.left
    · exact .inr (.inl (ended_of_effect h hend))
    · exact .inr (.inr (cancelled_of_effect h hcan))
  cases h with
  | register => exact List.forall_mem_cons.mpr ⟨.inl List.mem_cons_self, hold⟩
  | _ => exact hold

theorem reaching_step (hs : Reaching s) (ho : Orderly s a) (h : step s a = some s') :
    Reaching s' := by
  have hsound := sound_step hs.sound h
  obtain rfl | h := effect_of_step h
  · exact hs
  obtain ⟨hlive, halone⟩ := alone_of_effect hs ho h
  refine ⟨hsound, hlive, halone, present_of_effect hs ho h, fun c hc => ?_, fun c hc e hb => ?_⟩
  · obtain ⟨d, hd, hroot, -⟩ | ⟨-, hroot, -⟩ := cancel_of_effect h hc
    · rw [hroot]
      exact cancelled_of_effect h (hs.root d hd)
    · exact .inl hroot
  · obtain ⟨d, hd, hroot, hseen⟩ | ⟨hseen, -, hpending⟩ := cancel_of_effect h hc
    · rw [hroot, hseen] at hb
      exact settled_of_effect hs ho h (hs.below d hd e hb)
    · rw [hseen] at hb
      refine .inr (.inr ?_)
      induction hb with
      | child he htop => exact .child he (htop ▸ hpending)
      | deeper _ he hparent ih => exact .deeper ih he hparent

theorem reaching_init : Reaching {} :=
  ⟨sound_init, nofun, nofun, nofun, nofun, nofun⟩

/-! ## A cancel's loop ends -/

/-- An entry is collected and fired, and then its id is walked. -/
def work (s : Registry) : Nat :=
  3 * s.entries.length + s.firing.length + s.pending.length

theorem work_lt_of_effect (ha : a.serves = true) (h : Effect s a s') : s'.work < s.work := by
  cases h with
  | register => cases ha
  | deregister => cases ha
  | hit hb => rw [hb] at ha; cases ha
  | fire hc hf =>
    have hfiring := (firing_fire hc hf).length_eq
    have hpending := (pending_fire hc hf).length_eq
    simp only [work, List.length_cons] at hfiring ⊢
    simp only [firing, pending] at *
    omega
  | @walk i c parent rest found hc hf hq hfound =>
    obtain ⟨others, hpending, hpending'⟩ := pending_walk hc hf hq found
    have hfiring := (firing_walk hc hf found rest).length_eq
    have hentries := (walk_perm hfound).length_eq
    replace hpending := hpending.length_eq
    replace hpending' := hpending'.length_eq
    simp only [work, List.length_append, List.length_map, List.length_cons] at *
    simp only [firing, pending] at *
    omega

/-- While a cancel is in progress, one of its sections can be taken. -/
theorem exists_serve (hquiet : ¬ s.Quiet) :
    ∃ a s', a.serves = true ∧ Effect s a s' ∧ step s a = some s' := by
  simp only [Quiet, not_forall] at hquiet
  obtain ⟨c, hc, hnot⟩ := hquiet
  obtain ⟨i, hi⟩ := List.getElem?_of_mem hc
  cases hf : c.firing with
  | cons e rest =>
    refine ⟨.fire i, _, rfl, .fire hi hf, ?_⟩
    rw [step, hi]
    dsimp only
    rw [hf]
  | nil =>
    cases hq : c.queue with
    | nil => exact absurd (by rw [CancelCall.returned, hf, hq]; rfl) hnot
    | cons parent rest =>
      refine ⟨.walk i (s.children parent), _, rfl, .walk hi hf hq (.refl _), ?_⟩
      rw [step, hi]
      dsimp only
      rw [hf, hq]
      exact if_pos (.refl _)

/-- Whatever is in progress, the cancels' own sections bring them to their ends. -/
theorem exists_quiet (s : Registry) :
    ∃ t, Run step (fun _ a => a.serves = true) s t ∧ t.Quiet := by
  induction hn : s.work using Nat.strongRecOn generalizing s with
  | _ n ih =>
    by_cases hquiet : s.Quiet
    · exact ⟨s, .refl s, hquiet⟩
    · obtain ⟨a, s', ha, heffect, hstep⟩ := exists_serve hquiet
      obtain ⟨t, hrun, ht⟩ := ih _ (hn ▸ work_lt_of_effect ha heffect) s' rfl
      exact ⟨t, .trans (.tail (.refl s) ha hstep) hrun, ht⟩

/-! ## Whole runs -/

theorem count_fired_le (hs : Sound s) (r : Nat) : s.fired.count r ≤ 1 :=
  List.nodup_iff_count_le_one.mp (List.nodup_append.mp hs.once).2.1 r

theorem count_fired_of_cancelled (hs : Sound s) (hquiet : s.Quiet) (hc : s.Cancelled e) :
    s.fired.count e.cancelFn = 1 := by
  obtain hfiring | hfired := hc
  · rw [firing_eq_nil hquiet] at hfiring
    cases hfiring
  · exact Nat.le_antisymm (count_fired_le hs _) (List.count_pos_iff.mpr hfired)

theorem not_below_pending (hquiet : s.Quiet) : ¬ Below s.entries (· ∈ s.pending) e := by
  intro hb
  induction hb with
  | child _ htop =>
    rw [pending_eq_nil hquiet] at htop
    cases htop
  | deeper _ _ _ ih => exact ih

/-- While the lifecycles are in order: a run that registered and neither ended nor was
cancelled has its own entry, and a cancel of its id takes that entry as its root; no cancel
function is called twice; every cancel in progress can come to its end by its own sections;
and when none is in progress, each cancel that hit has called the cancel functions of its
root and of every run below it that did not end first. -/
theorem live_run_cancellable (h : Run step Orderly {} s) :
    (∀ e ∈ s.registered, e.cancelFn ∉ s.ended → ¬ s.Cancelled e →
      step s (.cancel e.agentID) = some { s with
        entries := s.delete e.agentID
        cancels := s.cancels ++ [⟨e, s.delete e.agentID, [e], [], []⟩] }) ∧
    (∀ r, s.fired.count r ≤ 1) ∧
    (∃ t, Run step (fun _ a => a.serves = true) s t ∧ t.Quiet) ∧
    (s.Quiet → ∀ c ∈ s.cancels, s.fired.count c.root.cancelFn = 1 ∧
      ∀ e, Below c.seen (· = c.root.agentID) e →
        s.fired.count e.cancelFn = 1 ∨ e.cancelFn ∈ s.ended) := by
  have hs : Reaching s :=
    h.invariant (fun _ _ _ hs ho he => reaching_step hs ho he) reaching_init
  refine ⟨fun e he hend hcan => ?_, count_fired_le hs.sound, exists_quiet s,
    fun hquiet c hc => ⟨count_fired_of_cancelled hs.sound hquiet (hs.root c hc), ?_⟩⟩
  · have hmem := (hs.present e he).resolve_right (not_or.mpr ⟨hend, hcan⟩)
    rw [step, cancelLocal, hs.sound.get_eq hmem]
    rfl
  · intro e hb
    obtain hend | hcan | hbelow := hs.below c hc e hb
    · exact .inr hend
    · exact .inl (count_fired_of_cancelled hs.sound hquiet hcan)
    · exact absurd hbelow (not_below_pending hquiet)

/-- A run, its child and its grandchild; each is cancelled through the first one, they end
from below, and the first one's id is taken again. -/
theorem live_run_cancellable_three_levels :
    ∃ s, Run step Orderly {} s ∧ s.Quiet ∧ s.fired = [0, 1, 2] ∧
      (∀ r, s.fired.count r ≤ 1) ∧
      ∃ s', step s (.cancel "a") = some s' ∧ s'.firing = [⟨"a", "r3", "", 3⟩] := by
  obtain ⟨s, hrun, hquiet, hfired, hfiring, hnew, hended⟩ := exists_run_guarded step Orderly {}
    [.register ⟨"a", "r0", "", 0⟩, .register ⟨"b", "r1", "a", 1⟩, .register ⟨"c", "r2", "b", 2⟩,
      .cancel "a", .fire 0, .walk 0 [⟨"b", "r1", "a", 1⟩], .fire 0,
      .walk 0 [⟨"c", "r2", "b", 2⟩], .fire 0, .walk 0 [], .deregister ⟨"c", "r2", "b", 2⟩,
      .deregister ⟨"b", "r1", "a", 1⟩, .deregister ⟨"a", "r0", "", 0⟩,
      .register ⟨"a", "r3", "", 3⟩]
    (p := fun s => s.Quiet ∧ s.fired = [0, 1, 2] ∧ s.firing = [] ∧
      s.registered.head? = some ⟨"a", "r3", "", 3⟩ ∧ s.ended = [0, 1, 2]) (by decide +kernel)
  obtain ⟨hlive, honce, -, -⟩ := live_run_cancellable hrun
  refine ⟨s, hrun, hquiet, hfired, honce, _, hlive _ (List.mem_of_head? hnew) ?_ ?_, ?_⟩
  · rw [hended]
    decide
  · rw [Cancelled, hfiring, hfired]
    decide
  · rw [firing] at hfiring ⊢
    rw [List.flatMap_append, hfiring]
    rfl

/-- A cancelled run's own `Deregister` comes after its id was taken again, and takes the new
run's entry out; and a cancel does not reach a registered run whose parent ended before it. -/
theorem live_run_not_cancellable :
    (∃ s, Run step Any {} s ∧ ∃ e ∈ s.registered, e.cancelFn ∉ s.ended ∧ ¬ s.Cancelled e ∧
      step s (.cancel e.agentID) = some s) ∧
    ∃ s, Run step Any {} s ∧ s.Quiet ∧ ∃ c ∈ s.cancels, ∃ e ∈ c.seen,
      Below s.registered (· = c.root.agentID) e ∧ e.cancelFn ∉ s.ended ∧ e.cancelFn ∉ s.fired := by
  constructor
  · exact exists_run step {} [.register ⟨"a", "r0", "", 0⟩, .cancel "a", .fire 0, .walk 0 [],
      .register ⟨"a", "r1", "", 1⟩, .deregister ⟨"a", "r0", "", 0⟩] (by decide +kernel)
  · obtain ⟨_, hrun, rfl⟩ := exists_run step {}
      [.register ⟨"a", "r0", "", 0⟩, .register ⟨"b", "r1", "a", 1⟩,
        .register ⟨"c", "r2", "b", 2⟩, .deregister ⟨"b", "r1", "a", 1⟩, .cancel "a", .fire 0,
        .walk 0 []]
      (p := (· = {
        entries := [⟨"c", "r2", "b", 2⟩]
        cancels := [⟨⟨"a", "r0", "", 0⟩, [⟨"c", "r2", "b", 2⟩], [], [], []⟩]
        registered := [⟨"c", "r2", "b", 2⟩, ⟨"b", "r1", "a", 1⟩, ⟨"a", "r0", "", 0⟩]
        ended := [1]
        fired := [0] })) (by decide +kernel)
    refine ⟨_, hrun, by decide, _, List.mem_cons_self, _, List.mem_cons_self, ?_, by decide,
      by decide⟩
    have hmiddle : Below [⟨"c", "r2", "b", 2⟩, ⟨"b", "r1", "a", 1⟩, ⟨"a", "r0", "", 0⟩] (· = "a")
        ⟨"b", "r1", "a", 1⟩ := .child (by decide) rfl
    exact .deeper hmiddle List.mem_cons_self rfl

end Loomcycle.Cancel.Registry
