import Loomcycle.ChannelHooks.Worker
import Loomcycle.Lib.History

/-! What a delivered message has been through. The log tells which chain is in force, which hook
was called with which body and what a person answered; a body has passed the first `k` hooks of
a chain when each of them, in turn and since the chain came into force, let it past. Every job
stands at a place its body has reached in this sense, and so does the place saved for the next
job, as long as an ask that opens a run does not save a place of an earlier chain again. -/

namespace Loomcycle.ChannelHooks
open Lib Lib.Transition Lib.History
open Channels (channelHeldVisibleAt channelHookHeldVisibleAt)

variable {cfg : Config} {payload body : Body} {log log' : List Event} {c : Chain} {k : Nat}

/-! ### Passing a chain -/

/-- The chain an event puts in force: that of a definition whose hooks resolve. -/
def Event.chain? : Event → Option Chain
  | .defined d => d.chain?
  | _ => none

/-- `c` comes into force, or another chain in its place. -/
def inForce (c : Chain) (e : Event) : Option Bool := e.chain?.map fun c' => c' = c

/-- The chains of hooks that have been in force. -/
def chains (log : List Event) : List Chain :=
  log.filterMap fun e => e.chain?.filter fun c => c ≠ []

/-- The hook `h`, at place `k` of its chain, lets the message past with the body `body'`. -/
inductive LetsPast (log : List Event) (c : Chain) (k : Nat) (h : Hook) (body : Body) :
    HookAnswer → Body → Prop
  | release (updated : Option Body) : LetsPast log c k h body (.release updated) (updated.getD body)
  | failOpen (reason : String) : h.failMode = .failOpen →
      LetsPast log c k h body (.failed reason) body
  | hold (reason : String) (reply : Reply) :
      Event.answered c k ⟨h.holdAsk reason body, reply⟩ ∈ log → holdAnswer reply = .release →
      LetsPast log c k h body (.hold reason) body

/-- The payload has passed the first `k` hooks of the chain, in order, and is `body` now. -/
def Passed (payload : Body) (c : Chain) : Nat → Body → List Event → Prop
  | 0, body, _ => body = payload
  | k + 1, body', log => ∃ h body a, (c)[k]? = some h ∧
      HappenedWhen (Passed payload c k body) (.called c k body a) log ∧
      LetsPast log c k h body a body'

theorem LetsPast.append {h : Hook} {body' : Body} {a : HookAnswer}
    (hpast : LetsPast log c k h body a body') (l : List Event) :
    LetsPast (log ++ l) c k h body a body' := by
  cases hpast with
  | release updated => exact .release updated
  | failOpen reason hopen => exact .failOpen reason hopen
  | hold reason reply hmem hrelease =>
    exact .hold reason reply (List.mem_append_left l hmem) hrelease

theorem Passed.append (h : Passed payload c k body log) (l : List Event) :
    Passed payload c k body (log ++ l) := by
  cases k with
  | zero => exact h
  | succ k =>
    obtain ⟨hook, body', a, hhook, hcalled, hpast⟩ := h
    exact ⟨hook, body', a, hhook, hcalled.append, hpast.append l⟩

theorem Passed.le_length (h : Passed payload c k body log) : k ≤ c.length := by
  cases k with
  | zero => exact Nat.zero_le _
  | succ k =>
    obtain ⟨hook, body', a, hhook, -, -⟩ := h
    exact (List.getElem?_eq_some_iff.mp hhook).1

/-! ### What stays true as the log grows -/

/-- No chain that has been in force comes into force again. -/
structure Grows (log log' : List Event) : Prop where
  chains : chains log ⊆ chains log'
  since : ∀ c ∈ ChannelHooks.chains log,
    ∃ l, History.since (inForce c) log' = History.since (inForce c) log ++ l

theorem Grows.refl (log : List Event) : Grows log log :=
  ⟨List.Subset.refl _, fun _ _ => ⟨[], (List.append_nil _).symm⟩⟩

theorem Grows.trans {log'' : List Event} (h : Grows log log') (h' : Grows log' log'') :
    Grows log log'' := by
  refine ⟨List.Subset.trans h.chains h'.chains, fun c hc => ?_⟩
  obtain ⟨l, hl⟩ := h.since c hc
  obtain ⟨l', hl'⟩ := h'.since c (h.chains hc)
  exact ⟨l ++ l', by rw [hl', hl, List.append_assoc]⟩

theorem chains_snoc (e : Event) : chains log ⊆ chains (log ++ [e]) := by
  intro c hc
  rw [chains, List.filterMap_append]
  exact List.mem_append_left _ hc

theorem ne_nil_of_mem_chains (h : c ∈ chains log) : c ≠ [] := by
  obtain ⟨e, -, he⟩ := List.mem_filterMap.mp h
  exact of_decide_eq_true (Option.filter_eq_some_iff.mp he).2

theorem mem_chains_define {d : Definition} :
    c ∈ chains (log ++ [.defined d]) ↔ c ∈ chains log ∨ (d.chain? = some c ∧ c ≠ []) := by
  rw [chains, List.filterMap_append, List.mem_append]
  refine or_congr_right ?_
  simp [Event.chain?, Option.filter_eq_some_iff]

variable {e : Event} {p : Place} {tag : String} {jr : Journal} {r : Store × Job × Bool}

/-- The body has passed the first `k` hooks of `c` since `c` came into force. -/
structure Reached (payload : Body) (log : List Event) (c : Chain) (k : Nat) (body : Body) :
    Prop where
  known : c ∈ chains log
  passed : Passed payload c k body (since (inForce c) log)

/-- The hook at the place `p` was called there, and answered `a`. -/
structure CalledAt (payload : Body) (log : List Event) (p : Place) (a : HookAnswer) : Prop where
  known : p.chain ∈ chains log
  called : HappenedWhen (Passed payload p.chain p.pos p.body) (.called p.chain p.pos p.body a)
    (since (inForce p.chain) log)

/-- The question of `r` was put to a person at place `k` of `c`, and answered. -/
structure Answered (log : List Event) (c : Chain) (k : Nat) (r : AskRecord) : Prop where
  known : c ∈ chains log
  answered : .answered c k r ∈ since (inForce c) log

theorem Reached.grows (h : Reached payload log c k body) (hg : Grows log log') :
    Reached payload log' c k body := by
  obtain ⟨l, hl⟩ := hg.since c h.known
  exact ⟨hg.chains h.known, hl ▸ h.passed.append l⟩

theorem CalledAt.grows {a : HookAnswer} (h : CalledAt payload log p a) (hg : Grows log log') :
    CalledAt payload log' p a := by
  obtain ⟨l, hl⟩ := hg.since p.chain h.known
  exact ⟨hg.chains h.known, hl ▸ h.called.append⟩

theorem Answered.grows {r : AskRecord} (h : Answered log c k r) (hg : Grows log log') :
    Answered log' c k r := by
  obtain ⟨l, hl⟩ := hg.since c h.known
  exact ⟨hg.chains h.known, hl ▸ List.mem_append_left l h.answered⟩

/-- Past the hook at `p`. -/
theorem CalledAt.next {a : HookAnswer} {h : Hook} {body' : Body}
    (hcalled : CalledAt payload log p a) (hhook : p.hook? = some h)
    (hpast : LetsPast (since (inForce p.chain) log) p.chain p.pos h p.body a body') :
    Reached payload log p.chain (p.pos + 1) body' :=
  ⟨hcalled.known, h, p.body, a, hhook, hcalled.called, hpast⟩

/-! ### The invariant -/

variable (cfg payload log)

/-- A place under the signature `tag`: the start, or one reached in the chain of that
signature. -/
def Placed (tag : String) (k : Nat) (body : Body) : Prop :=
  (k = 0 ∧ body = payload) ∨ ∃ c, chainSignature cfg c = tag ∧ Reached payload log c k body

/-- The journal's answers were given in the chain it names. -/
def Asked (jr : Journal) : Prop :=
  ∀ k, jr.pos = some k → ∀ r ∈ jr.asks, ∃ c, chainSignature cfg c = jr.chain ∧ Answered log c k r

structure ProgressSound (p : Progress) : Prop where
  placed : Placed cfg payload log (p.journal.getD {}).chain p.chainPos (p.body.getD payload)
  asked : Asked cfg log (p.journal.getD {})

/-- A job whose journal names the chain of `tag` stands at the place `p`. -/
structure At (tag : String) (p : Place) : Prop where
  chain : chainSignature cfg p.chain = tag
  reached : Reached payload log p.chain p.pos p.body
  unchanged : p.changed = false → p.body = payload

def StageSound (j : Job) : Prop :=
  match j.stage with
  | .claimed => j.jrnl = j.progress.journal.getD {}
  | .calling p => At cfg payload log j.jrnl.chain p
  | .callAsking p _ => At cfg payload log j.jrnl.chain p
  | .called p a => At cfg payload log j.jrnl.chain p ∧ CalledAt payload log p a
  | .holding p reason | .waiting p reason =>
    At cfg payload log j.jrnl.chain p ∧ CalledAt payload log p (.hold reason)
  | .answered p reason a =>
    At cfg payload log j.jrnl.chain p ∧ CalledAt payload log p (.hold reason) ∧
      (a = .release → ∃ h reply, p.hook? = some h ∧ holdAnswer reply = .release ∧
        Answered log p.chain p.pos ⟨h.holdAsk reason p.body, reply⟩)
  | .releasing r => ∀ c, r.why = .chain c →
    Reached payload log c c.length r.body ∧ (r.changed = false → r.body = payload)
  | .dropping | .done => True

/-- What a job has in hand, at whatever stage. -/
structure JobKeeps (j : Job) : Prop where
  original : j.msg.payload = payload
  progress : ProgressSound cfg payload log j.progress
  asked : Asked cfg log j.jrnl

structure JobSound (j : Job) : Prop extends JobKeeps cfg payload log j where
  stage : StageSound cfg payload log j

/-- What the log before an event says of it. -/
def Allowed (before : List Event) : Event → Prop
  | .started c pos body => Passed payload c pos body (since (inForce c) before)
  | .left how => (∀ how', .left how' ∉ before) ∧ ∀ c body, how = .delivered c body →
      Passed payload c c.length body (since (inForce c) before)
  | _ => True

structure StoreSound (st : Store) : Prop where
  clock : st.clock < channelHookHeldVisibleAt
  message : ∀ m, st.message = some m → m.visibleAt = channelHookHeldVisibleAt →
    m.payload = payload ∧ ∀ how, .left how ∉ st.log
  row : ∀ row, st.row = some row → ProgressSound cfg payload st.log row.progress
  distinct : ∀ c ∈ chains st.log, ∀ c' ∈ chains st.log,
    chainSignature cfg c = chainSignature cfg c' → c = c'
  current : ∀ c, st.definition.chain? = some c → c ≠ [] → c ∈ chains st.log
  log : Justified (Allowed payload) st.log

variable {cfg payload log} {st st' : Store} {j j' : Job}

theorem asked_of_nil (h : jr.asks = []) : Asked cfg log jr := by
  intro k _ r hr
  rw [h] at hr
  cases hr

section

variable (hg : Grows log log')
include hg

theorem Placed.grows (h : Placed cfg payload log tag k body) :
    Placed cfg payload log' tag k body :=
  h.imp id fun ⟨c, htag, hreached⟩ => ⟨c, htag, hreached.grows hg⟩

theorem Asked.grows (h : Asked cfg log jr) : Asked cfg log' jr := by
  intro k hk r hr
  obtain ⟨c, htag, hanswered⟩ := h k hk r hr
  exact ⟨c, htag, hanswered.grows hg⟩

theorem ProgressSound.grows {p : Progress} (h : ProgressSound cfg payload log p) :
    ProgressSound cfg payload log' p :=
  ⟨h.placed.grows hg, h.asked.grows hg⟩

theorem At.grows (h : At cfg payload log tag p) : At cfg payload log' tag p :=
  ⟨h.chain, h.reached.grows hg, h.unchanged⟩

theorem JobKeeps.grows (h : JobKeeps cfg payload log j) :
    JobKeeps cfg payload log' j :=
  ⟨h.original, h.progress.grows hg, h.asked.grows hg⟩

theorem StageSound.grows (h : StageSound cfg payload log j) :
    StageSound cfg payload log' j := by
  rw [StageSound] at h ⊢
  generalize j.stage = stage at h ⊢
  cases stage with
  | claimed => exact h
  | calling p | callAsking p => exact At.grows hg h
  | called p | holding p | waiting p => exact ⟨h.1.grows hg, h.2.grows hg⟩
  | answered p reason a =>
    refine ⟨h.1.grows hg, h.2.1.grows hg, fun ha => ?_⟩
    obtain ⟨hook, reply, hhook, hrelease, hanswered⟩ := h.2.2 ha
    exact ⟨hook, reply, hhook, hrelease, hanswered.grows hg⟩
  | releasing r => exact fun c hwhy => ⟨(h c hwhy).1.grows hg, (h c hwhy).2⟩
  | dropping | done => trivial

theorem JobSound.grows (h : JobSound cfg payload log j) :
    JobSound cfg payload log' j :=
  ⟨h.toJobKeeps.grows hg, h.stage.grows hg⟩

end

/-- The progress the job has loaded or saved is a place in the chain it works on. -/
def Job.SavedHere (j : Job) : Prop :=
  (j.progress.journal.getD {}).chain = j.jrnl.chain ∨
    (j.progress.chainPos = 0 ∧ j.progress.body = none)

instance (j : Job) : Decidable j.SavedHere := inferInstanceAs (Decidable (_ ∨ _))

/-! ### The store -/

theorem StoreSound.setRow (h : StoreSound cfg payload st) {row : Option Row}
    (hrow : ∀ r, row = some r → ProgressSound cfg payload st.log r.progress) :
    StoreSound cfg payload { st with row } :=
  { h with row := hrow }

theorem chains_note (he : e.chain? = none) : chains (log ++ [e]) = chains log := by
  rw [chains, List.filterMap_append, List.filterMap_cons, he]
  exact List.append_nil _

theorem since_note (he : e.chain? = none) :
    since (inForce c) (log ++ [e]) = since (inForce c) log ++ [e] := by
  refine since_snoc fun hon => ?_
  rw [inForce, he] at hon
  cases hon

theorem grows_note (he : e.chain? = none) : Grows st.log (st.note e).log :=
  ⟨chains_snoc e, fun _ _ => ⟨[e], since_note he⟩⟩

/-- An event more tells of a message that left only if none is at the hook instant. -/
theorem StoreSound.message_note (h : StoreSound cfg payload st) {m : Message}
    (hleft : ∀ how, e ≠ .left how) (hm : st.message = some m)
    (hv : m.visibleAt = channelHookHeldVisibleAt) :
    m.payload = payload ∧ ∀ how, .left how ∉ st.log ++ [e] := by
  refine ⟨(h.message m hm hv).1, fun how hmem => ?_⟩
  obtain hold | hnew := List.mem_append.mp hmem
  · exact (h.message m hm hv).2 how hold
  · exact hleft how (List.mem_singleton.mp hnew).symm

theorem StoreSound.note (h : StoreSound cfg payload st) (he : e.chain? = none)
    (hleft : ∀ m, st.message = some m → m.visibleAt = channelHookHeldVisibleAt →
      ∀ how, e ≠ .left how) (hallowed : Allowed payload st.log e) :
    StoreSound cfg payload (st.note e) := by
  refine ⟨h.clock, fun m hm hv => h.message_note (hleft m hm hv) hm hv, fun row hrow => ?_,
    ?_, ?_, h.log.snoc hallowed⟩
  · exact (h.row row hrow).grows (grows_note he)
  · rw [Store.note, chains_note he]
    exact h.distinct
  · rw [Store.note, chains_note he]
    exact h.current

/-- The message leaves the hook instant. -/
theorem StoreSound.leave (h : StoreSound cfg payload st) {m : Message} (hm : st.message = some m)
    (hv : m.visibleAt = channelHookHeldVisibleAt) (message : Option Message) (row : Option Row)
    (hgone : ∀ m', message = some m' → m'.visibleAt ≠ channelHookHeldVisibleAt)
    (hrow : ∀ r, row = some r → ProgressSound cfg payload st.log r.progress) {how : Leave}
    (hpast : ∀ c body, how = .delivered c body →
      Passed payload c c.length body (since (inForce c) st.log)) :
    StoreSound cfg payload ({ st with message, row }.note (.left how)) := by
  have hmoved : StoreSound cfg payload { st with message, row } :=
    { h with message := fun m' hm' hv' => absurd hv' (hgone m' hm'), row := hrow }
  exact hmoved.note rfl (fun m' hm' hv' => absurd hv' (hgone m' hm'))
    ⟨(h.message m hm hv).2, hpast⟩

theorem chain_journalJSON (jr : Journal) : (jr.journalJSON.getD {}).chain = jr.chain := by
  rw [Journal.journalJSON]
  split
  · next hnone => exact hnone.2.1.symm
  · rfl

theorem Asked.journalJSON (h : Asked cfg log jr) : Asked cfg log (jr.journalJSON.getD {}) := by
  rw [Journal.journalJSON]
  split
  · exact asked_of_nil rfl
  · exact h

/-- What a save, at a place of the chain the journal names, leaves. -/
structure Saves (cfg : Config) (payload : Body) (st : Store) (j : Job)
    (r : Store × Job × Bool) : Prop where
  log : r.1.log = st.log
  store : StoreSound cfg payload r.1
  keeps : JobKeeps cfg payload st.log r.2.1
  jrnl : r.2.1.jrnl = j.jrnl

/-! ### The job -/

/-- A step of a job that keeps the invariant. -/
structure Good (cfg : Config) (payload : Body) (st : Store) (r : Store × Job) : Prop where
  store : StoreSound cfg payload r.1
  job : JobSound cfg payload r.1.log r.2
  grows : Grows st.log r.1.log

theorem Saves.grows (h : Saves cfg payload st j r) : Grows st.log r.1.log := by
  rw [h.log]
  exact .refl _

theorem Saves.good (h : Saves cfg payload st j r) {stage : Stage}
    (hstage : StageSound cfg payload st.log { r.2.1 with stage }) :
    Good cfg payload st (r.1, { r.2.1 with stage }) := by
  refine ⟨h.store, ?_, h.grows⟩
  rw [h.log]
  exact ⟨⟨h.keeps.original, h.keeps.progress, h.keeps.asked⟩, hstage⟩

/-- After the log has grown. -/
theorem Good.after {r : Store × Job} (hg : Grows st.log st'.log) (h : Good cfg payload st' r) :
    Good cfg payload st r :=
  ⟨h.store, h.job, hg.trans h.grows⟩

theorem good_done (hj : JobKeeps cfg payload st.log j)
    (hstore : StoreSound cfg payload st' ∧ Grows st.log st'.log) :
    Good cfg payload st (st', { j with stage := .done }) :=
  have hj := hj.grows hstore.2
  ⟨hstore.1, ⟨⟨hj.original, hj.progress, hj.asked⟩, trivial⟩, hstore.2⟩

theorem stageSound_drop {hold : Bool} {reason : String} {msg : Job} :
    StageSound cfg payload log { j with stage := dropStage cfg msg hold reason } := by
  rw [StageSound, dropStage]
  split_ifs
  · exact fun c hwhy => nomatch hwhy
  · trivial

/-- The place a claimed job has loaded is one of the chain its journal names. -/
theorem placed_claimed (hj : JobKeeps cfg payload log j)
    (hjrnl : j.jrnl = j.progress.journal.getD {}) :
    Placed cfg payload log j.jrnl.chain j.progress.chainPos (j.progress.body.getD payload) := by
  rw [hjrnl]
  exact hj.progress.placed

theorem stageSound_loop (h : At cfg payload log j.jrnl.chain p) :
    StageSound cfg payload log { j with stage := p.loop } := by
  rw [StageSound, Place.loop]
  split_ifs with hpos
  · exact h
  · intro c hwhy
    cases hwhy
    have hend : p.pos = p.chain.length :=
      Nat.le_antisymm h.reached.passed.le_length (Nat.not_lt.mp hpos)
    exact ⟨hend ▸ h.reached, h.unchanged⟩

theorem StoreSound.eq_of_signature (hst : StoreSound cfg payload st) {c' : Chain}
    (hc : c ∈ chains st.log) (hc' : c' ∈ chains st.log) (h : chainSignature cfg c = tag)
    (h' : chainSignature cfg c' = tag) : c = c' :=
  hst.distinct c hc c' hc' (h.trans h'.symm)

/-- A place of the chain a journal names is a place of `c` when the journal names `c`. -/
theorem Placed.reached (hst : StoreSound cfg payload st) (hc : c ∈ chains st.log)
    (h : Placed cfg payload st.log (chainSignature cfg c) k body) :
    Reached payload st.log c k body := by
  obtain ⟨rfl, rfl⟩ | ⟨c', htag, hreached⟩ := h
  · exact ⟨hc, rfl⟩
  · obtain rfl := hst.eq_of_signature hreached.known hc htag rfl
    exact hreached

theorem bodyOrNil_getD {changed : Bool} (h : changed = false → body = payload) :
    (bodyOrNil body changed).getD payload = body := by
  cases changed with
  | false => exact (h rfl).symm
  | true => rfl

theorem At.placed (h : At cfg payload log tag p) :
    Placed cfg payload log tag p.pos ((bodyOrNil p.body p.changed).getD payload) := by
  rw [bodyOrNil_getD h.unchanged]
  exact .inr ⟨p.chain, h.chain, h.reached⟩

theorem At.next (h : At cfg payload log tag p) {updated : Option Body}
    (hreached : Reached payload log p.chain (p.pos + 1) (updated.getD p.body)) :
    At cfg payload log tag (p.next updated) := by
  refine ⟨h.chain, hreached, fun hchanged => ?_⟩
  obtain ⟨hp, hnone⟩ := Bool.or_eq_false_iff.mp hchanged
  have hnone := Option.isNone_iff_eq_none.mp (Option.isSome_eq_false_iff.mp hnone)
  rw [Place.next, hnone]
  exact h.unchanged hp

theorem Asked.atPos (h : Asked cfg log jr) (pos : Nat) : Asked cfg log (jr.atPos pos) := by
  rw [Journal.atPos]
  split
  · exact h
  · exact asked_of_nil rfl

theorem atPos_chain (jr : Journal) (pos : Nat) : (jr.atPos pos).chain = jr.chain := by
  rw [Journal.atPos]
  split <;> rfl

theorem atPos_pos (jr : Journal) (pos : Nat) : (jr.atPos pos).pos = some pos := by
  rw [Journal.atPos]
  split
  · assumption
  · rfl

theorem getD_cases {after : Option Store} {P : Store → Prop} (hst : P st)
    (hafter : ∀ st' ∈ after, P st') : P (after.getD st) := by
  cases hs : after with
  | none => exact hst
  | some st' => exact hafter st' hs

theorem Outcome.apply_cases {o : Outcome} {after : Option Store} {P : Store → Prop} (hst : P st)
    (hafter : ∀ st' ∈ after, P st') : P (o.apply st after) := by
  cases o with
  | ok => exact getD_cases hst hafter
  | fault applied =>
    cases applied with
    | false => exact hst
    | true => exact getD_cases hst hafter

/-- A release puts the message at another instant than the hooks'. -/
theorem release_visibleAt (hst : StoreSound cfg payload st) (m : Message) (hold : Bool) :
    max (if hold then channelHeldVisibleAt
      else if st.clock < m.requestedVisibleAt then m.requestedVisibleAt else 0) st.clock ≠
      channelHookHeldVisibleAt := by
  have hclock := hst.clock
  have hheld : channelHeldVisibleAt < channelHookHeldVisibleAt := by decide
  have hreserved : m.requestedVisibleAt ≠ channelHookHeldVisibleAt := by
    have hnot := of_decide_eq_false m.notReserved
    exact fun heq => hnot (.inr heq)
  split_ifs with hhold hlt
  · exact Nat.ne_of_lt (Nat.max_lt.mpr ⟨hheld, hclock⟩)
  · rw [Nat.max_eq_left (Nat.le_of_lt hlt)]
    exact hreserved
  · exact Nat.ne_of_lt hclock

section Steps

variable (hst : StoreSound cfg payload st) (hj : JobKeeps cfg payload st.log j)
include hst hj

variable {saved : Option Body} {p : Place} {opened : Option String} {h : Hook} {reason : String}

theorem saves_saveProgress {pos : Nat}
    (hplaced : Placed cfg payload st.log j.jrnl.chain pos (saved.getD payload)) (o : Outcome)
    (attempts next : Nat) (lastErr : String) :
    Saves cfg payload st j (saveProgress cfg o st j pos saved attempts next lastErr) := by
  have hp : ProgressSound cfg payload st.log
      { runID := j.progress.runID, chainPos := pos, body := saved, journal := j.jrnl.journalJSON,
        attempts, nextAttemptAt := next, lastError := lastErr } :=
    ⟨by rw [chain_journalJSON]; exact hplaced, hj.asked.journalJSON⟩
  have hsaved : ∀ p leaseUntil, ProgressSound cfg payload st.log p → ∀ st' ∈
      st.channelHookSaveProgress j.lease p leaseUntil, st'.log = st.log ∧
        StoreSound cfg payload st' := by
    intro p leaseUntil hp st' h
    rw [Store.channelHookSaveProgress, Option.mem_def] at h
    split at h
    · cases h
      refine ⟨rfl, hst.setRow fun r hr => ?_⟩
      cases hr
      exact hp
    · cases h
  unfold saveProgress
  dsimp only
  split
  · next st' _ h =>
    obtain ⟨hlog, hst'⟩ := hsaved _ _ hp _ h
    exact ⟨hlog, hst', ⟨hj.original, hp, hj.asked⟩, rfl⟩
  · exact ⟨rfl, hst, ⟨hj.original, hp, hj.asked⟩, rfl⟩
  · next applied =>
    -- the write may have reached the store although the job was told it failed
    cases applied with
    | false => exact ⟨rfl, hst, hj, rfl⟩
    | true =>
      obtain ⟨hlog, hst'⟩ := getD_cases (P := fun st' => st'.log = st.log ∧
        StoreSound cfg payload st') ⟨rfl, hst⟩ (hsaved _ _ hp)
      exact ⟨hlog, hst', hj, rfl⟩

theorem good_stage {stage : Stage} (hstage : StageSound cfg payload st.log { j with stage }) :
    Good cfg payload st (st, { j with stage }) :=
  ⟨hst, ⟨⟨hj.original, hj.progress, hj.asked⟩, hstage⟩, .refl _⟩

theorem good_retryAt {pos : Nat}
    (hplaced : Placed cfg payload st.log j.jrnl.chain pos (saved.getD payload)) (o : Outcome)
    (hold : Bool) (attempts : Nat) (lastErr by_ : String) :
    Good cfg payload st (retryAt cfg o st j hold pos saved attempts lastErr by_) := by
  rw [retryAt]
  split
  · exact (saves_saveProgress hst hj hplaced o attempts _ lastErr).good trivial
  · exact good_stage hst hj stageSound_drop

section

variable (hjrnl : j.jrnl = j.progress.journal.getD {})
include hjrnl

theorem good_retry (o : Outcome) (hold : Bool) (what : String) :
    Good cfg payload st (retry cfg o st j hold what) := by
  rw [retry]
  split
  · exact good_stage hst hj trivial
  · exact good_retryAt hst hj (placed_claimed hj hjrnl) ..

/-- The job starts where its body has come to in the very chain it enters. -/
theorem good_enterChain (hc : c ∈ chains st.log) (hold : Bool) :
    Good cfg payload st (enterChain cfg st j hold c) := by
  have hbody : j.body = j.progress.body.getD payload := by rw [Job.body, hj.original]
  have hgood : ∀ (p : Place) (jrnl : Journal), p.chain = c →
      At cfg payload st.log (chainSignature cfg c) p →
      Asked cfg st.log { jrnl with chain := chainSignature cfg c } →
      Good cfg payload st (st.note (.started c p.pos p.body),
        { j with jrnl := { jrnl with chain := chainSignature cfg c }, stage := p.loop }) := by
    rintro p jrnl rfl hat hasked
    have hst' := hst.note (e := .started p.chain p.pos p.body) rfl nofun hat.reached.passed
    have hg : Grows st.log (st.note (.started p.chain p.pos p.body)).log := grows_note rfl
    have hkeeps : JobKeeps cfg payload st.log
        { j with jrnl := { jrnl with chain := chainSignature cfg p.chain } } :=
      ⟨hj.original, hj.progress, hasked⟩
    exact .after hg (good_stage hst' (hkeeps.grows hg) (stageSound_loop (hat.grows hg)))
  unfold enterChain
  dsimp only
  split
  · exact hgood ⟨hold, c, 0, j.msg.payload, 0, false⟩ {} rfl
      ⟨rfl, ⟨hc, hj.original⟩, fun _ => hj.original⟩ (asked_of_nil rfl)
  next hstay =>
  refine hgood ⟨hold, c, j.progress.chainPos, j.body, j.progress.attempts,
    j.progress.body.isSome⟩ j.jrnl rfl ⟨rfl, ?_, fun hnone => ?_⟩ ?_
  · by_cases htag : j.jrnl.chain = chainSignature cfg c
    · have hplaced := placed_claimed hj hjrnl
      rw [htag, ← hbody] at hplaced
      exact hplaced.reached hst hc
    · -- nothing was saved yet: the start is a place in any chain
      have hfresh := not_or.mp fun h => hstay ⟨htag, h⟩
      have hpos : j.progress.chainPos = 0 := Nat.eq_zero_of_not_pos hfresh.1
      have hnone : j.progress.body = none :=
        Option.not_isSome_iff_eq_none.mp (not_or.mp hfresh.2).1
      refine ⟨hc, ?_⟩
      rw [hpos, hbody, hnone]
      rfl
  · have hnone : j.progress.body = none :=
      Option.isNone_iff_eq_none.mp (Option.isSome_eq_false_iff.mp hnone)
    rw [hbody, hnone]
    rfl
  · by_cases htag : j.jrnl.chain = chainSignature cfg c
    · rw [← htag]
      exact hj.asked
    · intro k hk
      have hfresh := not_or.mp fun h => hstay ⟨htag, h⟩
      have hnone := (not_or.mp hfresh.2).2
      rw [hk] at hnone
      exact absurd rfl hnone

theorem good_decideStep (reads : Reads) (o : Outcome) :
    Good cfg payload st (decideStep cfg reads o st j) := by
  rw [decideStep]
  split
  · dsimp only
    split
    · exact (saves_saveProgress hst hj (placed_claimed hj hjrnl) ..).good trivial
    · exact good_stage hst hj stageSound_drop
  split
  · exact good_retry hst hj hjrnl ..
  split
  · exact good_retry hst hj hjrnl ..
  · exact good_stage hst hj fun c hwhy => nomatch hwhy
  · exact good_retry hst hj hjrnl ..
  · next hold h hs hdef =>
    split
    · exact good_retry hst hj hjrnl ..
    · exact good_enterChain hst hj hjrnl
        (hst.current (h :: hs) (by rw [hdef]; rfl) (List.cons_ne_nil h hs)) hold

end

section

variable (hat : At cfg payload st.log j.jrnl.chain p)
include hat

/-- The hook's call returns: the log has it, at a place the body has reached. -/
theorem good_returns (a : HookAnswer) : Good cfg payload st (j.returns st p a) := by
  have hg : Grows st.log (st.note (.called p.chain p.pos p.body a)).log := grows_note rfl
  have hst' := hst.note (e := .called p.chain p.pos p.body a) rfl nofun trivial
  have hcalled : CalledAt payload (st.note (.called p.chain p.pos p.body a)).log p a := by
    refine ⟨hg.chains hat.reached.known, ?_⟩
    rw [Store.note, since_note rfl]
    exact ⟨_, [], rfl, hat.reached.passed⟩
  exact .after hg (good_stage hst' (hj.grows hg) ⟨hat.grows hg, hcalled⟩)

theorem good_advance (o : Outcome) : Good cfg payload st (advance cfg o st j p) := by
  have hj' : JobKeeps cfg payload st.log { j with jrnl := { chain := j.jrnl.chain } } :=
    ⟨hj.original, hj.progress, asked_of_nil rfl⟩
  rw [advance]
  split
  · have hsaves := saves_saveProgress hst hj' hat.placed o 0 0 ""
    exact hsaves.good (stageSound_loop (by rw [hsaves.jrnl]; exact hat))
  · exact good_stage hst hj' (stageSound_loop hat)

omit hat in
theorem saves_openRun (hhere : opened.all fun id => id = j.progress.runID ∨ j.SavedHere)
    (o : Outcome) : Saves cfg payload st j (openRun cfg o opened st j) := by
  unfold openRun
  split
  · exact ⟨rfl, hst, hj, rfl⟩
  next id =>
  split
  · exact ⟨rfl, hst, hj, rfl⟩
  split
  · exact ⟨rfl, hst, hj, rfl⟩
  next hnew =>
  have hhere := (of_decide_eq_true hhere).resolve_left hnew
  have hj' : JobKeeps cfg payload st.log
      { j with progress := { j.progress with runID := id } } :=
    ⟨hj.original, ⟨hj.progress.placed, hj.progress.asked⟩, hj.asked⟩
  have hplaced : Placed cfg payload st.log j.jrnl.chain j.progress.chainPos
      (j.progress.body.getD payload) := by
    obtain htag | ⟨hpos, hbody⟩ := hhere
    · rw [← htag]
      exact hj.progress.placed
    · exact .inl ⟨hpos, by rw [hbody]; rfl⟩
  obtain ⟨hlog, hst', hkeeps, hjrnl⟩ := saves_saveProgress hst hj' hplaced o
    j.progress.attempts 0 j.progress.lastError
  exact ⟨hlog, hst', hkeeps, hjrnl⟩

theorem good_act {a : HookAnswer}
    (hcalled : CalledAt payload st.log p a) (hhook : p.hook? = some h) (o : Outcome) :
    Good cfg payload st (act cfg o st j p h a) := by
  cases a with
  | failed reason =>
    rw [act]
    split
    · exact good_stage hst hj trivial
    split
    · next hopen =>
      have hnext : At cfg payload st.log j.jrnl.chain (p.next none) :=
        hat.next (hcalled.next hhook (.failOpen reason hopen))
      exact good_stage hst hj (stageSound_loop hnext)
    · exact good_retryAt hst hj (.inr ⟨p.chain, hat.chain, hat.reached⟩) ..
  | release updated =>
    have hnext := hat.next (hcalled.next hhook (.release updated))
    exact good_advance hst hj hnext o
  | drop reason => exact good_stage hst hj stageSound_drop
  | hold reason =>
    rw [act]
    split
    · exact good_stage hst hj ⟨hat, hcalled⟩
    · -- nobody can be asked: the journal names the hook that holds the message
      have hj' : JobKeeps cfg payload st.log { j with jrnl :=
          { pos := some p.pos, heldBy := h.label, reason, chain := j.jrnl.chain } } :=
        ⟨hj.original, hj.progress, asked_of_nil rfl⟩
      exact (saves_saveProgress hst hj' hat.placed ..).good trivial

/-- A person's answer is noted in the log, and kept in the journal. -/
theorem answer_recorded (r : AskRecord) (o : Outcome)
    (hnote : st.note (.answered p.chain p.pos r) = st') :
    StoreSound cfg payload st' ∧ Grows st.log st'.log ∧ Answered st'.log p.chain p.pos r ∧
      ∃ j', Saves cfg payload st' j' (record cfg o st' j p r) ∧
        At cfg payload st'.log (record cfg o st' j p r).2.1.jrnl.chain p := by
  subst hnote
  have hg : Grows st.log (st.note (.answered p.chain p.pos r)).log := grows_note rfl
  have hst' := hst.note (e := .answered p.chain p.pos r) rfl nofun trivial
  have hanswered : Answered (st.note (.answered p.chain p.pos r)).log p.chain p.pos r := by
    refine ⟨hg.chains hat.reached.known, ?_⟩
    rw [Store.note, since_note rfl]
    exact List.mem_append_right _ List.mem_cons_self
  have hj := hj.grows hg
  have hat := hat.grows hg
  have hasked : Asked cfg (st.note (.answered p.chain p.pos r)).log
      { j.jrnl.atPos p.pos with asks := (j.jrnl.atPos p.pos).asks ++ [r] } := by
    intro k hk r' hr'
    obtain hold | hnew := List.mem_append.mp hr'
    · exact hj.asked.atPos p.pos k hk r' hold
    · obtain rfl := List.mem_singleton.mp hnew
      have hk' : p.pos = k := Option.mem_unique (atPos_pos j.jrnl p.pos) hk
      refine ⟨p.chain, ?_, hk' ▸ hanswered⟩
      exact hat.chain.trans (atPos_chain j.jrnl p.pos).symm
  rw [← atPos_chain j.jrnl p.pos] at hat
  have hsaves := saves_saveProgress hst' (j := { j with jrnl :=
      { j.jrnl.atPos p.pos with asks := (j.jrnl.atPos p.pos).asks ++ [r] } })
    ⟨hj.original, hj.progress, hasked⟩ hat.placed o 0 0 ""
  exact ⟨hst', hg, hanswered, _, hsaves, hsaves.jrnl ▸ hat⟩

section

variable (hcalled : CalledAt payload st.log p (.hold reason))
include hcalled

theorem good_askHold (hhook : p.hook? = some h)
    (hhere : opened.all fun id => id = j.progress.runID ∨ j.SavedHere) (o : Outcome) :
    Good cfg payload st (askHold cfg o opened st j p h reason) := by
  rw [askHold]
  dsimp only
  split
  · exact good_stage hst hj ⟨hat, hcalled, nofun⟩
  split
  · next r hfind =>
    -- an answer in the journal was given at this hook, in this chain
    refine good_stage hst hj ⟨hat, hcalled, fun hrelease => ?_⟩
    have hmem := List.mem_of_find?_eq_some hfind
    have hinput : r.input = h.holdAsk reason p.body := by simpa using List.find?_some hfind
    rw [Journal.recorded] at hmem
    split at hmem
    · next hpos =>
      obtain ⟨c, htag, hanswered⟩ := hj.asked p.pos hpos r hmem
      obtain rfl := hst.eq_of_signature hanswered.known hat.reached.known htag hat.chain
      exact ⟨h, r.reply, hhook, hrelease, hinput ▸ hanswered⟩
    · cases hmem
  · have hsaves := saves_openRun hst hj hhere o
    have hat' : At cfg payload st.log (openRun cfg o opened st j).2.1.jrnl.chain p := by
      rw [hsaves.jrnl]
      exact hat
    split
    · exact hsaves.good ⟨hat', hcalled⟩
    · exact hsaves.good ⟨hat', hcalled, nofun⟩

theorem good_replyHold (hhook : p.hook? = some h) (reply : Option Reply) (o : Outcome) :
    Good cfg payload st (replyHold cfg o reply st j p h reason) := by
  cases reply with
  | none => exact good_stage hst hj ⟨hat, hcalled, nofun⟩
  | some reply =>
    obtain ⟨hst', hg, hanswered, j', hsaves, hat'⟩ := answer_recorded hst hj hat
      ⟨h.holdAsk reason p.body, reply⟩ o rfl
    rw [replyHold]
    dsimp only
    refine .after hg ?_
    split
    · exact good_stage hst' (hj.grows hg) ⟨hat.grows hg, hcalled.grows hg, nofun⟩
    refine hsaves.good ⟨hat', hcalled.grows hg, fun hrelease => ?_⟩
    split at hrelease
    · exact ⟨h, reply, hhook, hrelease, hanswered⟩
    · cases hrelease

omit hcalled in
theorem good_replyCode (input : AskInput) (reply : Option Reply) (o : Outcome) :
    Good cfg payload st (replyCode cfg o reply st j p input) := by
  cases reply with
  | none => exact good_returns hst hj hat _
  | some reply =>
    obtain ⟨hst', hg, -, j', hsaves, hat'⟩ := answer_recorded hst hj hat ⟨input, reply⟩ o rfl
    rw [replyCode]
    dsimp only
    refine .after hg ?_
    split
    · exact good_returns hst' (hj.grows hg) (hat.grows hg) _
    split
    · exact hsaves.good hat'
    · exact .after hsaves.grows (good_returns hsaves.store (hsaves.keeps.grows hsaves.grows)
        (hat'.grows hsaves.grows) _)

theorem good_settleHold {a : HoldAnswer}
    (hanswer : a = .release → ∃ h reply, p.hook? = some h ∧ holdAnswer reply = .release ∧ Answered
      st.log p.chain p.pos ⟨h.holdAsk reason p.body, reply⟩) (h : Hook) (o : Outcome) :
    Good cfg payload st (settleHold cfg o st j p h a) := by
  unfold settleHold
  split
  · exact good_stage hst hj trivial
  split
  · obtain ⟨h, reply, hhook, hrelease, hanswered⟩ := hanswer rfl
    have hnext : At cfg payload st.log j.jrnl.chain (p.next none) :=
      hat.next (hcalled.next hhook (.hold reason reply hanswered.answered hrelease))
    exact good_advance hst hj hnext o
  · exact good_stage hst hj stageSound_drop
  · exact good_stage hst hj stageSound_drop

end

end

omit hj in
/-- A write that may not have reached the store. -/
theorem grown_apply {o : Outcome} {after : Option Store}
    (hafter : ∀ st' ∈ after, StoreSound cfg payload st' ∧ Grows st.log st'.log) :
    StoreSound cfg payload (o.apply st after) ∧ Grows st.log (o.apply st after).log :=
  Outcome.apply_cases (P := fun st' => StoreSound cfg payload st' ∧ Grows st.log st'.log)
    ⟨hst, .refl _⟩ hafter

theorem good_release {r : Release} (hr : ∀ c, r.why = .chain c →
      Reached payload st.log c c.length r.body ∧ (r.changed = false → r.body = payload))
    (o : Outcome) :
    Good cfg payload st (release o st j r) := by
  refine good_done hj (grown_apply hst fun st' h => ?_)
  obtain ⟨m, hm, h⟩ := Option.bind_eq_some_iff.mp h
  split at h
  · next hcas =>
    cases h
    have hv : m.visibleAt = channelHookHeldVisibleAt := (of_decide_eq_true hcas.1).1
    refine ⟨hst.leave hm hv _ none (fun m' hm' => ?_) nofun fun c body hhow => ?_,
      grows_note rfl⟩
    · obtain rfl := Option.some.inj hm'
      exact release_visibleAt hst j.msg r.hold
    · rw [(hst.message m hm hv).1] at hhow
      cases hwhy : r.why with
      | chain c' =>
        rw [hwhy] at hhow
        obtain ⟨rfl, hbody⟩ := Leave.delivered.inj hhow
        obtain ⟨hreached, hunchanged⟩ := hr c' hwhy
        rw [← hbody, bodyOrNil_getD hunchanged]
        exact hreached.passed
      | unhooked | sinkError => rw [hwhy] at hhow; cases hhow
  · cases h

theorem good_drop (o : Outcome) :
    Good cfg payload st (o.apply st (st.channelDropHookHeld j.lease), { j with stage := .done }) := by
  refine good_done hj (grown_apply hst fun st' h => ?_)
  obtain ⟨m, hm, h⟩ := Option.bind_eq_some_iff.mp h
  split at h
  · next hcas =>
    cases h
    exact ⟨hst.leave hm hcas.1 none none nofun nofun nofun, grows_note rfl⟩
  · cases h

end Steps

theorem good_renew (hst : StoreSound cfg payload st) (hj : JobSound cfg payload st.log j)
    (o : Outcome) (stopped : Bool) (leaseUntil : Nat) :
    Good cfg payload st
      (o.apply st (st.channelHookRenew j.lease leaseUntil), { j with stopped }) := by
  have hstore : StoreSound cfg payload (o.apply st (st.channelHookRenew j.lease leaseUntil)) ∧
      (o.apply st (st.channelHookRenew j.lease leaseUntil)).log = st.log := by
    refine Outcome.apply_cases (P := fun st' => StoreSound cfg payload st' ∧ st'.log = st.log)
      ⟨hst, rfl⟩ fun st' h => ?_
    obtain ⟨row, hrow, h⟩ := Option.bind_eq_some_iff.mp h
    split at h
    · cases h
      refine ⟨hst.setRow fun r hr => ?_, rfl⟩
      cases hr
      exact hst.row row hrow
    · cases h
  refine ⟨hstore.1, ?_, ?_⟩
  · rw [hstore.2]
    exact ⟨⟨hj.original, hj.progress, hj.asked⟩, hj.stage⟩
  · rw [hstore.2]
    exact .refl _

/-! ### Whole runs -/

/-- The runs of the worker in which an ask that opens a run saves a place of the chain the job
works on; a chain that comes into force is new, and its signature no earlier chain's; and the
clock does not reach the hook instant. -/
def World.Orderly (cfg : Config) (s : World) : Label → Prop
  | .tick now => now < channelHookHeldVisibleAt
  | .define d => d.chain?.all fun c => c = [] ∨
      (c ∈ chains s.store.log → holding (inForce c) s.store.log = true) ∧
        ∀ c' ∈ chains s.store.log, c' ≠ c → chainSignature cfg c' ≠ chainSignature cfg c
  | .job i (.ask _ opened _) | .job i (.hold opened _) =>
    s.jobs[i]?.all fun j => opened.all fun id => id = j.progress.runID ∨ j.SavedHere
  | _ => True

/-- The run an ask of the act opens. -/
def Act.opens? : Act → Option String
  | .ask _ opened _ | .hold opened _ => opened
  | _ => none

theorem Job.good_step (hst : StoreSound cfg payload st) (hj : JobSound cfg payload st.log j)
    {a : Act} (hhere : a.opens?.all fun id => id = j.progress.runID ∨ j.SavedHere)
    {r : Store × Job} (h : j.step cfg st a = some r) : Good cfg payload st r := by
  have hstage := hj.stage
  rw [StageSound] at hstage
  have hkeeps := hj.toJobKeeps
  cases a <;> rw [Job.step] at h
  case decide reads o =>
    split at h
    · next hclaimed =>
      cases h
      rw [hclaimed] at hstage
      exact good_decideStep hst hkeeps hstage reads o
    · cases h
  case anchor now =>
    split at h
    · next p hcalling =>
      cases h
      rw [hcalling, ← atPos_chain j.jrnl p.pos] at hstage
      have hasked : Asked cfg st.log
          { j.jrnl.atPos p.pos with anchor := if (j.jrnl.atPos p.pos).anchor = 0 then now
            else (j.jrnl.atPos p.pos).anchor } := hj.asked.atPos p.pos
      refine ⟨hst, ⟨⟨hj.original, hj.progress, hasked⟩, ?_⟩, .refl _⟩
      rw [StageSound, hcalling]
      exact hstage
    · cases h
  case ask input opened o =>
    split at h
    · next p hcalling =>
      rw [hcalling] at hstage
      have hsaves := saves_openRun hst hkeeps hhere o
      rw [← hsaves.jrnl] at hstage
      dsimp only at h
      split at h
      · cases h
        exact hsaves.good hstage
      · cases h
        exact .after hsaves.grows (good_returns hsaves.store (hsaves.keeps.grows hsaves.grows)
          (At.grows hsaves.grows hstage) _)
    · cases h
  case reply reply o =>
    split at h
    · next p input hasking =>
      cases h
      rw [hasking] at hstage
      exact good_replyCode hst hkeeps hstage input reply o
    · next p reason hwaiting =>
      obtain ⟨hook, hhook, rfl⟩ := Option.map_eq_some_iff.mp h
      rw [hwaiting] at hstage
      exact good_replyHold hst hkeeps hstage.1 hstage.2 hhook reply o
    · cases h
  case answer a =>
    split at h
    · next p hcalling =>
      cases h
      rw [hcalling] at hstage
      exact good_returns hst hkeeps hstage _
    · cases h
  case act o =>
    split at h
    · next p a hcalled =>
      obtain ⟨hook, hhook, rfl⟩ := Option.map_eq_some_iff.mp h
      rw [hcalled] at hstage
      exact good_act hst hkeeps hstage.1 hstage.2 hhook o
    · cases h
  case hold opened o =>
    split at h
    · next p reason hholding =>
      obtain ⟨hook, hhook, rfl⟩ := Option.map_eq_some_iff.mp h
      rw [hholding] at hstage
      exact good_askHold hst hkeeps hstage.1 hstage.2 hhook hhere o
    · cases h
  case settle o =>
    split at h
    · next p reason a hanswered =>
      obtain ⟨hook, hhook, rfl⟩ := Option.map_eq_some_iff.mp h
      rw [hanswered] at hstage
      exact good_settleHold hst hkeeps hstage.1 hstage.2.1 hstage.2.2 hook o
    · cases h
  case release o =>
    split at h
    · next r hreleasing =>
      cases h
      rw [hreleasing] at hstage
      exact good_release hst hkeeps hstage o
    · cases h
  case drop o =>
    split at h
    · cases h
      exact good_drop hst hkeeps o
    · cases h
  case renew o =>
    cases h
    exact good_renew hst hj o _ _
  case stop =>
    cases h
    exact ⟨hst, ⟨⟨hj.original, hj.progress, hj.asked⟩, hj.stage⟩, .refl _⟩
  case crash =>
    cases h
    exact good_stage hst hkeeps trivial

namespace World

variable {s s' : World} {a : Label} {m : Message} {d : Definition}

structure Sound (cfg : Config) (payload : Body) (s : World) : Prop where
  store : StoreSound cfg payload s.store
  jobs : ∀ j ∈ s.jobs, JobSound cfg payload s.store.log j

theorem sound_init : Sound cfg m.payload (init m d) := by
  have hchains : ∀ c, c ∈ chains [.defined d] ↔ d.chain? = some c ∧ c ≠ [] := by
    intro c
    rw [← List.nil_append [Event.defined d], mem_chains_define]
    exact or_iff_right List.not_mem_nil
  have hclock : 0 < channelHookHeldVisibleAt := by decide
  have hlog : Justified (Allowed m.payload) [.defined d] :=
    justified_nil.snoc (e := Event.defined d) trivial
  refine ⟨⟨hclock, fun m' hm' _ => ?_, fun row hrow => ?_, fun c hc c' hc' _ => ?_,
    fun c hc hne => ?_, hlog⟩, fun j hj => ?_⟩
  · obtain rfl := Option.some.inj hm'
    exact ⟨rfl, fun how hmem => nomatch List.mem_singleton.mp hmem⟩
  · cases hrow
  · exact Option.mem_unique ((hchains c).mp hc).1 ((hchains c').mp hc').1
  · exact (hchains c).mpr ⟨hc, hne⟩
  · cases hj

theorem sound_define (hs : Sound cfg payload s) (ho : Orderly cfg s (.define d)) :
    Sound cfg payload { s with store := { s.store.note (.defined d) with definition := d } } := by
  have hnew : ∀ c, d.chain? = some c → c ≠ [] →
      (c ∈ chains s.store.log → holding (inForce c) s.store.log = true) ∧
        ∀ c' ∈ chains s.store.log, c' ≠ c → chainSignature cfg c' ≠ chainSignature cfg c := by
    intro c hc hne
    rw [Orderly, hc] at ho
    exact (of_decide_eq_true ho).resolve_left hne
  have hg : Grows s.store.log (s.store.log ++ [.defined d]) := by
    refine ⟨chains_snoc _, fun c hmem => ⟨[_], since_snoc fun hon => ?_⟩⟩
    obtain ⟨c', hc, heq⟩ := Option.map_eq_some_iff.mp hon
    obtain rfl := of_decide_eq_true heq
    exact (hnew c' hc (ne_nil_of_mem_chains hmem)).1 hmem
  refine ⟨⟨hs.store.clock, fun m hm hv => hs.store.message_note nofun hm hv,
    fun row hrow => (hs.store.row row hrow).grows hg, ?_,
    fun c hc hne => mem_chains_define.mpr (.inr ⟨hc, hne⟩), hs.store.log.snoc trivial⟩,
    fun j hj => (hs.jobs j hj).grows hg⟩
  -- a signature tells the new chain from every earlier one
  intro c hc c' hc' htag
  by_contra hne
  obtain hc | ⟨hc, hnil⟩ := mem_chains_define.mp hc
  · obtain hc' | ⟨hc', hnil'⟩ := mem_chains_define.mp hc'
    · exact hne (hs.store.distinct c hc c' hc' htag)
    · exact (hnew c' hc' hnil').2 c hc hne htag
  · obtain hc' | ⟨hc', hnil'⟩ := mem_chains_define.mp hc'
    · exact (hnew c hc hnil).2 c' hc' (Ne.symm hne) htag.symm
    · exact hne (Option.mem_unique hc hc')

theorem sound_claim (hs : Sound cfg payload s) {now leaseUntil : Nat}
    (h : s.store.channelHookClaim now leaseUntil = some (st, j)) :
    Sound cfg payload ⟨st, s.jobs ++ [j]⟩ := by
  obtain ⟨m, hm, h⟩ := Option.bind_eq_some_iff.mp h
  have hprogress : ProgressSound cfg payload s.store.log
      ((s.store.row.map Row.progress).getD {}) := by
    cases hrow : s.store.row with
    | none => exact ⟨.inl ⟨rfl, rfl⟩, asked_of_nil rfl⟩
    | some row => exact hs.store.row row hrow
  dsimp only at h
  split at h
  · next hfree =>
    cases h
    have hv : m.visibleAt = channelHookHeldVisibleAt := (of_decide_eq_true hfree.1).1
    refine ⟨{ hs.store with row := fun row hrow => ?_ }, fun j hj => ?_⟩
    · cases hrow
      exact hprogress
    · obtain hj | hj := List.mem_append.mp hj
      · exact hs.jobs j hj
      · obtain rfl := List.mem_singleton.mp hj
        exact ⟨⟨(hs.store.message m hm hv).1, hprogress, hprogress.asked⟩, rfl⟩
  · cases h

theorem sound_step (hs : Sound cfg payload s) (ho : Orderly cfg s a)
    (h : step cfg s a = some s') : Sound cfg payload s' := by
  cases a with
  | tick now =>
    rw [step] at h
    split at h
    · cases h
      exact ⟨{ hs.store with clock := ho }, hs.jobs⟩
    · cases h
  | define d =>
    cases h
    exact sound_define hs ho
  | claim now leaseUntil =>
    obtain ⟨⟨st, j⟩, hclaim, rfl⟩ := Option.map_eq_some_iff.mp h
    exact sound_claim hs hclaim
  | job i a =>
    obtain ⟨j, hj, h⟩ := Option.bind_eq_some_iff.mp h
    obtain ⟨⟨st, j'⟩, hstep, rfl⟩ := Option.map_eq_some_iff.mp h
    have hhere : a.opens?.all fun id => id = j.progress.runID ∨ j.SavedHere := by
      cases a with
      | ask | hold =>
        rw [Orderly, hj] at ho
        exact ho
      | _ => rfl
    have hgood := Job.good_step hs.store (hs.jobs j (List.mem_of_getElem? hj)) hhere hstep
    refine ⟨hgood.store, fun k hk => ?_⟩
    obtain hk | rfl := List.mem_or_eq_of_mem_set hk
    · exact (hs.jobs k hk).grows hgood.grows
    · exact hgood.job
  | gc =>
    cases h
    rw [Store.channelHookGC]
    split
    · exact hs
    · exact ⟨hs.store.setRow nofun, hs.jobs⟩
  | delete =>
    obtain ⟨st, hst, rfl⟩ := Option.map_eq_some_iff.mp h
    obtain ⟨m, hm, rfl⟩ := Option.map_eq_some_iff.mp hst
    split
    · next hv =>
      exact ⟨hs.store.leave hm hv none s.store.row nofun hs.store.row nofun,
        fun j hj => (hs.jobs j hj).grows (grows_note rfl)⟩
    · exact ⟨{ hs.store with message := nofun }, hs.jobs⟩

/-- A message leaves the hook instant at most once. When it is delivered past a chain, each of
the chain's hooks let it past, in order and since the chain came into force, and the body is what
they made of the payload. A job starts at a place reached in the very chain it has resolved. -/
theorem delivered_past_whole_chain (h : Run (step cfg) (Orderly cfg) (init m d) s) :
    (∀ before how after, s.store.log = before ++ .left how :: after →
      ∀ how', .left how' ∉ before) ∧
    (∀ before c body after, s.store.log = before ++ .left (.delivered c body) :: after →
      Passed m.payload c c.length body (since (inForce c) before)) ∧
    ∀ before c pos body after, s.store.log = before ++ .started c pos body :: after →
      Passed m.payload c pos body (since (inForce c) before) := by
  have hs := h.invariant (fun _ _ _ hs ho he => sound_step hs ho he) sound_init
  refine ⟨fun before how after heq => ?_, fun before c body after heq => ?_, ?_⟩
  · exact (hs.store.log before (.left how) after heq).1
  · exact (hs.store.log before (.left (.delivered c body)) after heq).2 c body rfl
  · exact fun before c pos body after heq =>
      hs.store.log before (.started c pos body) after heq

end World

/-! ### Two histories -/

def sampleConfig : Config where
  maxWait := 900 * second
  lease := 60 * second
  maxBodyBytes := 0
  interruption := true
  runs := true
  digest := fun text => text
  json := ⟨fun _ => .error "", fun _ => "", fun text => text⟩

def sampleMessage : Message := ⟨"p", 0, 0, none, 0, false, by decide⟩

def scrub : Hook := ⟨"channel:c", "scrub", "d1", "", .failClosed⟩

def gate : Hook := ⟨"channel:c", "gate", "d2", "", .failClosed⟩

namespace World

instance (s : World) : (a : Label) → Decidable (Orderly sampleConfig s a)
  | .tick _ => inferInstanceAs (Decidable (_ < _))
  | .define _ => inferInstanceAs (Decidable (_ = _))
  | .job _ (.ask _ _ _) => inferInstanceAs (Decidable (_ = _))
  | .job _ (.hold _ _) => inferInstanceAs (Decidable (_ = _))
  | .claim _ _ | .gc | .delete => .isTrue trivial
  | .job _ (.decide _ _) | .job _ (.anchor _) | .job _ (.reply _ _) | .job _ (.answer _)
  | .job _ (.act _) | .job _ (.settle _) | .job _ (.release _) | .job _ (.drop _)
  | .job _ (.renew _) | .job _ .stop | .job _ .crash => .isTrue trivial

/-- The first hook rewrites the body and the job crashes; the next resumes at the second hook,
which holds the message until a person releases it. -/
theorem delivered_past_whole_chain_resumed :
    ∃ s before, Run (step sampleConfig) (Orderly sampleConfig)
        (init sampleMessage (.declared false (some [scrub, gate]))) s ∧
      s.store.log = before ++ [.left (.delivered [scrub, gate] "q")] ∧
      Passed "p" [scrub, gate] 2 "q" (since (inForce [scrub, gate]) before) := by
  obtain ⟨s, hrun, hlast⟩ := exists_run_guarded (step sampleConfig) (Orderly sampleConfig)
    (init sampleMessage (.declared false (some [scrub, gate])))
    [.claim 0 0, .job 0 (.decide .ok .ok), .job 0 (.answer (.release (some "q"))),
      .job 0 (.act .ok), .job 0 .crash, .tick (61 * second), .claim (61 * second) 0,
      .job 1 (.decide .ok .ok), .job 1 (.answer (.hold "odd")), .job 1 (.act .ok),
      .job 1 (.hold (some "run") .ok), .job 1 (.reply (some (.answer "release" false)) .ok),
      .job 1 (.settle .ok), .job 1 (.release .ok)]
    (p := (·.store.log.getLast? = some (.left (.delivered [scrub, gate] "q")))) (by decide +kernel)
  obtain ⟨before, hlog⟩ := List.getLast?_eq_some_iff.mp hlast
  exact ⟨s, before, hrun, hlog, (delivered_past_whole_chain hrun).2.1 before _ "q" [] hlog⟩

/-- A call of the first hook of `c`. -/
def callsFirst (c : Chain) : Event → Bool
  | .called c' pos _ _ => c' = c ∧ pos = 0
  | _ => false

/-- A gate is put ahead of the chain while a message waits at its second place. The job that
starts over asks a person first: the run it opens is saved with the old place and the new chain's
signature, the job crashes, and the next delivers the message past the gate. -/
theorem gate_skipped :
    ∃ s before, Run (step sampleConfig) Any
        (init sampleMessage (.declared false (some [scrub, scrub]))) s ∧
      s.store.log = before ++ [.left (.delivered [gate, scrub] "p")] ∧
      ∀ body a, .called [gate, scrub] 0 body a ∉ before := by
  obtain ⟨s, hrun, hlast, hnone⟩ := exists_run (step sampleConfig)
    (init sampleMessage (.declared false (some [scrub, scrub])))
    [.claim 0 0, .job 0 (.decide .ok .ok), .job 0 (.answer (.release none)),
      .job 0 (.act .ok), .job 0 .crash, .define (.declared false (some [gate, scrub])),
      .tick (61 * second), .claim (61 * second) 0, .job 1 (.decide .ok .ok),
      .job 1 (.ask (.other "ok?") (some "run") .ok), .job 1 .crash, .tick (122 * second),
      .claim (122 * second) 0, .job 2 (.decide .ok .ok), .job 2 (.answer (.release none)),
      .job 2 (.act .ok), .job 2 (.release .ok)]
    (p := fun s => s.store.log.getLast? = some (.left (.delivered [gate, scrub] "p")) ∧
      s.store.log.any (callsFirst [gate, scrub]) = false) (by decide +kernel)
  obtain ⟨before, hlog⟩ := List.getLast?_eq_some_iff.mp hlast
  refine ⟨s, before, hrun, hlog, fun body a hmem => ?_⟩
  have hany : s.store.log.any (callsFirst [gate, scrub]) = true :=
    List.any_eq_true.mpr ⟨_, hlog ▸ List.mem_append_left _ hmem, by simp [callsFirst]⟩
  rw [hnone] at hany
  cases hany

end World

end Loomcycle.ChannelHooks
