import Mathlib.Data.List.Basic

/-! # What a run may reach

The policy of a run and how a spawned run gets its own (`RunPolicy.Inherit`). Every field that
holds an authority is narrowed at each spawn by a rule of its own, in which an unset value means
all of it for one field and none of it for another; being within an ancestor's authority is one
order over all of them, and a chain of spawns only goes down in it. -/

namespace Loomcycle.Tools

/-! ## Key scopes -/

def denyAllScopes : String := "-*"

def deniedAll (declared : List String) : Bool := declared.any (· == denyAllScopes)

def isCryptoScope (s : String) : Bool := ["agent", "user", "tenant", "run"].contains s

structure CryptoPolicyValue where
  scopes : List String := []
  deriving DecidableEq, Repr

def CryptoPolicyValue.allows (p : CryptoPolicyValue) (scope : String) : Bool :=
  p.scopes.contains scope

/-- The known scopes of a declaration, each once; nothing when it holds the deny-all entry. -/
def effectiveCryptoScopes (declared : List String) : List String :=
  if deniedAll declared then []
  else declared.foldl
    (fun out s => if isCryptoScope s && !out.contains s then out ++ [s] else out) []

def narrowCryptoScopes (parent child : List String) : List String :=
  let p := effectiveCryptoScopes parent
  (effectiveCryptoScopes child).filter p.contains

theorem effectiveCryptoScopes_subset (declared : List String) :
    effectiveCryptoScopes declared ⊆ declared := by
  -- what the loop has collected so far is declared, and so is what it adds
  have hfold : ∀ (rest out : List String), out ⊆ declared → rest ⊆ declared →
      rest.foldl (fun out s => if isCryptoScope s && !out.contains s then out ++ [s] else out) out
        ⊆ declared := by
    intro rest
    induction rest with
    | nil => intro out hout _; exact hout
    | cons s rest ih =>
      intro out hout hrest
      obtain ⟨hs, hrest⟩ := List.cons_subset.mp hrest
      refine ih _ ?_ hrest
      dsimp only
      split
      · exact List.append_subset.mpr ⟨hout, by simpa using hs⟩
      · exact hout
  unfold effectiveCryptoScopes
  split
  · exact List.nil_subset _
  · exact hfold declared [] (List.nil_subset _) (List.Subset.refl _)

theorem allows_of_narrowCryptoScopes {parent child : List String} {scope : String}
    (h : CryptoPolicyValue.allows ⟨narrowCryptoScopes parent child⟩ scope = true) :
    CryptoPolicyValue.allows ⟨parent⟩ scope = true := by
  have hmem : scope ∈ narrowCryptoScopes parent child := by
    simpa [CryptoPolicyValue.allows] using h
  have hparent := (List.mem_filter.mp hmem).2
  simpa [CryptoPolicyValue.allows] using
    effectiveCryptoScopes_subset parent (by simpa using hparent)

/-! ## Shell credentials -/

/-- What a run keeps of the credentials the operator lists for a shell; unset keeps all. -/
structure ShellCredsPolicyValue where
  set : Bool := false
  names : List String := []
  deriving DecidableEq, Repr

namespace ShellCredsPolicyValue

variable {v : ShellCredsPolicyValue} {name : String}

def allows (v : ShellCredsPolicyValue) (name : String) : Bool := !v.set || v.names.contains name

/-- The credentials of the operator's list for one tool that the shell receives. -/
def filter (v : ShellCredsPolicyValue) (operator : List String) : List String :=
  if v.set then List.filter v.allows operator else operator

theorem mem_filter {operator : List String} :
    name ∈ v.filter operator ↔ name ∈ operator ∧ v.allows name = true := by
  unfold filter
  split
  · exact List.mem_filter
  · next hset => simp [allows, hset]

end ShellCredsPolicyValue

def narrowShellCreds (parent own : ShellCredsPolicyValue) : ShellCredsPolicyValue :=
  if !parent.set then own
  else if !own.set then parent
  else { set := true, names := own.names.filter parent.allows }

theorem allows_of_narrowShellCreds {parent own : ShellCredsPolicyValue} {name : String}
    (h : (narrowShellCreds parent own).allows name = true) : parent.allows name = true := by
  unfold narrowShellCreds at h
  split at h
  · next hset => simp [ShellCredsPolicyValue.allows, hset]
  · split at h
    · exact h
    · have hmem : name ∈ own.names.filter parent.allows := by
        simpa [ShellCredsPolicyValue.allows] using h
      exact (List.mem_filter.mp hmem).2

/-! ## Git over the network -/

structure GitRemotePolicyValue where
  fetch : Bool := false
  push : Bool := false
  deriving DecidableEq, Repr

def GitRemotePolicyValue.allows (v : GitRemotePolicyValue) (op : String) : Bool :=
  if op = "fetch" then v.fetch else if op = "push" then v.push else false

def narrowGitRemote (parent own : GitRemotePolicyValue) : GitRemotePolicyValue :=
  ⟨parent.fetch && own.fetch, parent.push && own.push⟩

theorem allows_of_narrowGitRemote {parent own : GitRemotePolicyValue} {op : String}
    (h : (narrowGitRemote parent own).allows op = true) : parent.allows op = true := by
  unfold GitRemotePolicyValue.allows narrowGitRemote at *
  split
  · next hop => rw [if_pos hop] at h; exact (Bool.and_eq_true_iff.mp h).1
  · next hop =>
    rw [if_neg hop] at h
    split
    · next hop' => rw [if_pos hop'] at h; exact (Bool.and_eq_true_iff.mp h).1
    · next hop' => rw [if_neg hop'] at h; cases h

/-! ## Volumes -/

structure VolumeBinding where
  name : String
  root : String
  readOnly : Bool := false
  default : Bool := false
  /-- a directory at or under the root that is not to be reached through it -/
  fence : String := ""
  deriving DecidableEq, Repr

/-- The run is bound to these volumes, if `active`. -/
structure VolumePolicyValue where
  active : Bool := false
  bindings : List VolumeBinding := []
  deriving DecidableEq, Repr

/-- The map from names that `NarrowVolumes` makes: the last binding of a name. -/
def bindingNamed (bindings : List VolumeBinding) (name : String) : Option VolumeBinding :=
  bindings.reverse.find? fun b => b.name == name

def narrowVolumes (parent child : VolumePolicyValue) : VolumePolicyValue where
  active := true
  bindings := child.bindings.filterMap fun cb =>
    (bindingNamed parent.bindings cb.name).map fun pb =>
      { name := cb.name, root := pb.root, readOnly := cb.readOnly || pb.readOnly,
        default := cb.default, fence := pb.fence }

def childVolumes (parent own : VolumePolicyValue) (ownDeclares : Bool) : VolumePolicyValue :=
  if !parent.active then own
  else if !ownDeclares then parent
  else narrowVolumes parent own

/-- `b` reaches no more than `b'` does. -/
structure VolumeBinding.Within (b b' : VolumeBinding) : Prop where
  name : b.name = b'.name
  root : b.root = b'.root
  fence : b.fence = b'.fence
  writable : b.readOnly = false → b'.readOnly = false

theorem VolumeBinding.Within.trans {b b' b'' : VolumeBinding} (h : b.Within b')
    (h' : b'.Within b'') : b.Within b'' :=
  ⟨h.name.trans h'.name, h.root.trans h'.root, h.fence.trans h'.fence,
    fun hw => h'.writable (h.writable hw)⟩

/-- A confined run's volumes contain a run's that is confined, too. -/
structure VolumePolicyValue.Within (d a : VolumePolicyValue) : Prop where
  active : d.active = true
  bindings : ∀ b ∈ d.bindings, ∃ b' ∈ a.bindings, b.Within b'

theorem childVolumes_within {parent own : VolumePolicyValue} (ownDeclares : Bool)
    (h : parent.active = true) : (childVolumes parent own ownDeclares).Within parent := by
  unfold childVolumes
  split
  · next hinactive => rw [h] at hinactive; cases hinactive
  split
  · exact ⟨h, fun b hb => ⟨b, hb, rfl, rfl, rfl, id⟩⟩
  · refine ⟨rfl, fun b hb => ?_⟩
    obtain ⟨cb, -, hcb⟩ := List.mem_filterMap.mp hb
    obtain ⟨pb, hpb, rfl⟩ := Option.map_eq_some_iff.mp hcb
    have hname : pb.name = cb.name := by simpa using List.find?_some hpb
    exact ⟨pb, List.mem_reverse.mp (List.mem_of_find?_eq_some hpb), hname.symm, rfl, rfl, fun hw => (Bool.or_eq_false_iff.mp hw).2⟩

/-! ## Fan-out -/

def narrowFanoutCap (parent own : Int) : Int :=
  if parent ≤ 0 then max own 0
  else if 0 < own ∧ own < parent then own
  else parent

theorem narrowFanoutCap_bounds {parent own : Int} (h : 0 < parent) :
    0 < narrowFanoutCap parent own ∧ narrowFanoutCap parent own ≤ parent := by
  unfold narrowFanoutCap
  split
  · omega
  · split
    · omega
    · omega

/-! ## The policy -/

structure HostPolicyValue where
  allowedHosts : List String := []
  hasList : Bool := false
  webSearchFilter : String := ""
  /-- the list is intersected with the operator's, also in caller-authoritative mode -/
  narrowOnly : Bool := false
  deriving DecidableEq, Repr

/-- `own` are the fields that are each definition's own, `principal` those a tree has from the
one who started it (the access-control set and the override record). -/
structure RunPolicy (Own Principal Compaction Context : Type*) where
  own : Own
  hosts : HostPolicyValue := {}
  volumes : VolumePolicyValue := {}
  ephemeralWritable : Bool := false
  crypto : CryptoPolicyValue := {}
  shellCreds : ShellCredsPolicyValue := {}
  gitRemote : GitRemotePolicyValue := {}
  principal : Principal
  fanoutCap : Int := 0
  compaction : Option Compaction := none
  context : Option Context := none
  /-- the inputs of one spawn -/
  compactionOverride : Option Compaction := none
  spawnIndex : Int := 0
  spawnTimeoutMs : Int := 0

/-- What a spawned run brings to its policy. -/
structure ChildGrant (Own Principal Compaction Context : Type*) where
  own : RunPolicy Own Principal Compaction Context
  declaresVolumes : Bool := false
  locksOverrides : Bool := false
  hostsNarrowOnly : Bool := false

/-- How settings are laid over others (`MergeCompaction`, `MergeContext`). -/
structure Merges (Compaction Context : Type*) where
  compaction : Option Compaction → Option Compaction → Option Compaction
  context : Option Context → Option Context → Option Context

section Inherit

variable {Own Principal Compaction Context : Type*} (merge : Merges Compaction Context)

namespace RunPolicy

def inherit (p : RunPolicy Own Principal Compaction Context)
    (c : ChildGrant Own Principal Compaction Context) :
    RunPolicy Own Principal Compaction Context :=
  let parentCompaction := if c.locksOverrides then none else p.compaction
  let parentContext := if c.locksOverrides then none else p.context
  let hosts := if p.hosts.hasList && c.hostsNarrowOnly then { p.hosts with narrowOnly := true }
    else p.hosts
  { own := c.own.own
    hosts
    volumes := childVolumes p.volumes c.own.volumes c.declaresVolumes
    ephemeralWritable := p.ephemeralWritable && c.own.ephemeralWritable
    crypto := ⟨narrowCryptoScopes p.crypto.scopes c.own.crypto.scopes⟩
    shellCreds := narrowShellCreds p.shellCreds c.own.shellCreds
    gitRemote := narrowGitRemote p.gitRemote c.own.gitRemote
    principal := p.principal
    fanoutCap := narrowFanoutCap p.fanoutCap c.own.fanoutCap
    compaction :=
      merge.compaction (merge.compaction c.own.compaction parentCompaction) p.compactionOverride
    context := merge.context c.own.context parentContext }

/-- `d` has no authority that `a` has not. -/
structure Within (d a : RunPolicy Own Principal Compaction Context) : Prop where
  crypto : ∀ scope, d.crypto.allows scope = true → a.crypto.allows scope = true
  gitRemote : ∀ op, d.gitRemote.allows op = true → a.gitRemote.allows op = true
  shellCreds : ∀ operator name, name ∈ d.shellCreds.filter operator →
    name ∈ a.shellCreds.filter operator
  ephemeral : d.ephemeralWritable = true → a.ephemeralWritable = true
  volumes : a.volumes.active = true → d.volumes.Within a.volumes
  fanoutCap : 0 < a.fanoutCap → 0 < d.fanoutCap ∧ d.fanoutCap ≤ a.fanoutCap
  hosts : a.hosts.narrowOnly = true → d.hosts = a.hosts

variable {p a m d : RunPolicy Own Principal Compaction Context}

theorem Within.refl (p : RunPolicy Own Principal Compaction Context) : p.Within p where
  crypto _ := id
  gitRemote _ := id
  shellCreds _ _ := id
  ephemeral := id
  volumes hactive := ⟨hactive, fun b hb => ⟨b, hb, rfl, rfl, rfl, id⟩⟩
  fanoutCap hpos := ⟨hpos, Int.le_refl _⟩
  hosts _ := rfl

theorem Within.trans (h : d.Within m) (h' : m.Within a) : d.Within a where
  crypto scope hd := h'.crypto scope (h.crypto scope hd)
  gitRemote op hd := h'.gitRemote op (h.gitRemote op hd)
  shellCreds operator name hd := h'.shellCreds operator name (h.shellCreds operator name hd)
  ephemeral hd := h'.ephemeral (h.ephemeral hd)
  volumes ha := by
    have hm := h'.volumes ha
    have hd := h.volumes hm.active
    refine ⟨hd.active, fun b hb => ?_⟩
    obtain ⟨b', hb', hw⟩ := hd.bindings b hb
    obtain ⟨b'', hb'', hw'⟩ := hm.bindings b' hb'
    exact ⟨b'', hb'', hw.trans hw'⟩
  fanoutCap ha := by
    obtain ⟨hm, hma⟩ := h'.fanoutCap ha
    obtain ⟨hd, hdm⟩ := h.fanoutCap hm
    exact ⟨hd, Int.le_trans hdm hma⟩
  hosts ha := by
    have hm := h'.hosts ha
    exact (h.hosts (by rw [hm]; exact ha)).trans hm

/-- One spawn. -/
theorem inherit_within (p : RunPolicy Own Principal Compaction Context)
    (c : ChildGrant Own Principal Compaction Context) : (p.inherit merge c).Within p where
  crypto _ := allows_of_narrowCryptoScopes
  gitRemote _ := allows_of_narrowGitRemote
  shellCreds operator name hd := by
    obtain ⟨hlisted, hallows⟩ := ShellCredsPolicyValue.mem_filter.mp hd
    exact ShellCredsPolicyValue.mem_filter.mpr ⟨hlisted, allows_of_narrowShellCreds hallows⟩
  ephemeral hd := (Bool.and_eq_true_iff.mp hd).1
  volumes := childVolumes_within c.declaresVolumes
  fanoutCap := narrowFanoutCap_bounds
  hosts ha := by
    change (if _ then { p.hosts with narrowOnly := true } else p.hosts) = p.hosts
    split
    · rw [← ha]
    · rfl

/-- The run at the end of a chain of spawns. -/
def descendant (root : RunPolicy Own Principal Compaction Context) :
    List (ChildGrant Own Principal Compaction Context) →
      RunPolicy Own Principal Compaction Context
  | [] => root
  | c :: rest => descendant (root.inherit merge c) rest

/-- Whatever each hop of a chain of spawns brings, a run of the chain has no authority that one
of its ancestors, which is the descendant of the root over the first hops, has not. -/
theorem descendant_within_ancestor (root : RunPolicy Own Principal Compaction Context)
    (above below : List (ChildGrant Own Principal Compaction Context)) :
    ((root.descendant merge above).descendant merge below).Within
      (root.descendant merge above) := by
  generalize root.descendant merge above = a
  induction below generalizing a with
  | nil => exact .refl a
  | cons c below ih => exact (ih (a.inherit merge c)).trans (inherit_within merge a c)

/-- A run that holds everything spawns one that declares nothing: it is confined to the volumes
and has the fan-out of its parent, keeps the shell's credentials, and has no key and no
network. -/
example :
    let root : RunPolicy Unit Unit Unit Unit :=
      { own := (), principal := (), ephemeralWritable := true, crypto := ⟨["user", "run"]⟩,
        volumes := ⟨true, [{ name := "work", root := "/srv/work" }]⟩,
        gitRemote := ⟨true, true⟩, fanoutCap := 4 }
    let child := root.inherit ⟨fun _ _ => none, fun _ _ => none⟩
      { own := { own := (), principal := () } }
    child.volumes = root.volumes ∧ child.fanoutCap = 4 ∧ child.shellCreds.allows "TOKEN" = true ∧
      child.crypto.scopes = [] ∧ child.gitRemote = ⟨false, false⟩ := by decide

end RunPolicy

end Inherit

end Loomcycle.Tools
