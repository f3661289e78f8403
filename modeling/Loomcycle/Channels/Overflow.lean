import Loomcycle.Channels.Delivery
import Loomcycle.Lib.Replay

/-! What publishes leave of a full channel. The rows are cut to the last `maxMessages` in delivery
order, but the new message stays whether or not it is one of them. -/

namespace Loomcycle.Channels
open Lib

variable {n : Nat} {own : MsgID} {rows kept : List ChannelMessage} {m x : ChannelMessage}

/-- Rows have distinct ids, so that a row is kept for itself. -/
theorem mem_trim (hids : (rows.map ChannelMessage.id).Nodup) (hn : n ≠ 0) :
    x ∈ trim n own rows ↔ x ∈ rows ∧ (x.id = own ∨ x ∈ last n rows) := by
  rw [trim, if_neg hn, List.mem_filter, decide_eq_true_eq]
  refine and_congr_right fun hx => or_congr_right ⟨fun h => ?_, List.mem_map_of_mem⟩
  obtain ⟨y, hy, hid⟩ := List.mem_map.mp h
  rwa [← List.inj_on_of_nodup_map hids (Paging.mem_of_mem_page hy) hx hid]

theorem trim_sublist (n : Nat) (own : MsgID) (rows : List ChannelMessage) :
    (trim n own rows).Sublist rows := by
  rw [trim]
  split
  · exact List.Sublist.refl _
  · exact List.filter_sublist

/-- What is published: the arguments of a publish and its time stamp. -/
structure Publish where
  now : Nat
  rand : Nat
  payload : String
  visibleAt : Nat
  expiresAt : Option Nat

def Publish.message (p : Publish) : ChannelMessage :=
  ⟨toLex (p.now, p.rand), p.payload, max p.visibleAt p.now, p.expiresAt⟩

def Publish.run (maxMessages : Nat) (rows : List ChannelMessage) (p : Publish) :
    List ChannelMessage :=
  channelPublish p.now p.rand p.payload p.visibleAt p.expiresAt maxMessages rows

/-- What a publish does to the rows it meets: it keeps its message, drops none that comes after
another it keeps, and reports how many it dropped; it keeps no more than the cap if and only if the
new message is among the last. -/
structure Cut (n : Nat) (m : ChannelMessage) (rows kept : List ChannelMessage) : Prop where
  sublist : kept.Sublist (m :: rows)
  own : m ∈ kept
  before : ∀ x ∈ rows, x ∉ kept → ∀ y ∈ kept, y ≠ m → x.position < y.position
  reported : trimmed n m.id (m :: rows) + kept.length = (m :: rows).length
  cap : kept.length ≤ n ↔ m ∈ last n (m :: rows)

theorem length_last (n : Nat) (rows : List ChannelMessage) :
    (last n rows).length = min n rows.length := by
  rw [last, Paging.page, List.length_take, List.length_insertionSort]

theorem cut_trim (hn : n ≠ 0) (hids : ((m :: rows).map ChannelMessage.id).Nodup) :
    Cut n m rows (trim n m.id (m :: rows)) := by
  have hown : ∀ {x}, x ∈ m :: rows → x.id = m.id → x = m := fun hx =>
    List.inj_on_of_nodup_map hids hx List.mem_cons_self
  have hsub := trim_sublist n m.id (m :: rows)
  have hmem : m ∈ trim n m.id (m :: rows) := (mem_trim hids hn).mpr ⟨List.mem_cons_self, .inl rfl⟩
  refine ⟨hsub, hmem, fun x hx hdrop y hy hne => ?_, ?_, fun hcap => ?_, fun hlast => ?_⟩
  · have hx := List.mem_cons_of_mem m hx
    obtain ⟨hy, hid | hlast⟩ := (mem_trim hids hn).mp hy
    · exact absurd (hown hy hid) hne
    have hcut : x ∉ last n (m :: rows) := fun h => hdrop ((mem_trim hids hn).mpr ⟨hx, .inr h⟩)
    refine lt_of_le_of_ne (not_lt.mp fun h => hcut (Paging.mem_page_of_lt hx hlast h)) fun heq => ?_
    have hid : x.id = y.id := congrArg (fun p => (ofLex p).2) heq
    rw [List.inj_on_of_nodup_map hids hx hy hid] at hcut
    exact hcut hlast
  · rw [trimmed, trim, if_neg hn, if_neg hn, ← List.countP_eq_length_filter, Nat.add_comm]
    have hcount := List.length_eq_countP_add_countP (l := m :: rows) fun x =>
      decide (x.id = m.id ∨ x.id ∈ (last n (m :: rows)).map ChannelMessage.id)
    simp only [decide_eq_true_eq, not_or] at hcount
    exact hcount.symm
  · -- the last rows and the new message are all kept, so it is one of them if they are not more
    by_contra hnot
    have hnodup : (m :: last n (m :: rows)).Nodup := by
      refine List.nodup_cons.mpr ⟨hnot, ?_⟩
      exact ((List.perm_insertionSort _ _).nodup_iff.mpr hids.of_map).sublist (List.take_sublist ..)
    have hall : m :: last n (m :: rows) ⊆ trim n m.id (m :: rows) := by
      refine List.cons_subset.mpr ⟨hmem, fun x hx => ?_⟩
      exact (mem_trim hids hn).mpr ⟨Paging.mem_of_mem_page hx, .inr hx⟩
    have hlength := (List.subperm_of_subset hnodup hall).length_le
    have hshort := hsub.length_le
    rw [List.length_cons, length_last] at hlength
    omega
  · have hcut : trim n m.id (m :: rows) ⊆ last n (m :: rows) := by
      intro x hx
      obtain ⟨hx, hid | hin⟩ := (mem_trim hids hn).mp hx
      · rwa [hown hx hid]
      · exact hin
    have hlength := (List.subperm_of_subset (hids.of_map.sublist hsub) hcut).length_le
    rw [length_last] at hlength
    exact hlength.trans (min_le_left ..)

/-- Every publish of a sequence cuts the rows it meets. -/
theorem publish_overflow (hn : 0 < n) {ps : List Publish}
    (hids : (ps.map (·.message.id) ++ rows.map ChannelMessage.id).Nodup) :
    Replay.Along (Publish.run n) (fun rows p => Cut n p.message rows (p.run n rows)) ps rows := by
  induction ps generalizing rows with
  | nil => trivial
  | cons p ps ih =>
    have hperm : (ps.map (·.message.id) ++ (p.message :: rows).map ChannelMessage.id).Nodup :=
      List.perm_middle.nodup_iff.mpr hids
    refine ⟨cut_trim (Nat.pos_iff_ne_zero.mp hn) (List.nodup_append.mp hperm).2.1, ih ?_⟩
    exact hperm.sublist
      (List.Sublist.append_left ((trim_sublist n p.message.id (p.message :: rows)).map _) _)

theorem publish_overflow_full : (channelPublish 2 0 "c" 0 none 2
    [⟨toLex (0, 0), "a", 0, none⟩, ⟨toLex (1, 0), "b", 9, none⟩]).length ≤ 2 :=
  (@publish_overflow 2 [⟨toLex (0, 0), "a", 0, none⟩, ⟨toLex (1, 0), "b", 9, none⟩] (by decide)
    [⟨2, 0, "c", 0, none⟩] (by decide)).1.cap.mpr (by decide)

/-- Behind a deferred message, at a cap of one, a message for now leaves two. -/
theorem publish_over_cap :
    (channelPublish 1 0 "b" 0 none 1 [⟨toLex (0, 0), "a", 9, none⟩]).length = 2 := by
  decide

end Loomcycle.Channels
