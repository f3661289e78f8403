import Loomcycle.Lib.Regex

/-! Hosts a run may call (`tools/builtin/narrowing.go`). A caller's list narrows the operator's: of
its entries those stay that the operator's list accepts as if they were hosts, and a host is
accepted by an entry it equals or ends in after a dot. What is accepted in the end is accepted by
the operator's list and by every caller's. -/

namespace Loomcycle.Tools
open Lib

/-- What the strings are read with: `strings.ToLower`, the host of `net.SplitHostPort`, and
`netguard.IPLiteralAllowed`. -/
structure Names where
  toLower : Text → Text
  splitHostPort : Text → Option Text
  ipLiteralAllowed : Text → List Text → Bool

structure HTTP where
  hostAllowlist : List Text
  privateHostAllowlist : List Text := []

/-- `backed` are `WebFetch` and `File`, which go out on an HTTP of their own. -/
inductive Tool
  | http (h : HTTP)
  | backed (h : Option HTTP)
  | webSearch (allowedHosts : List Text) (filterMode : String)
  | other

section Narrowing

variable (ns : Names)

def normalise (s : Text) : Text :=
  ns.toLower (if s.getLast? = some '.' then s.dropLast else s)

/-- An entry, normalised, and a host that is. -/
def entryAccepts (host entry : Text) : Bool :=
  entry ≠ [] && (entry = ['*'] || host = entry || ('.' :: entry).isSuffixOf host)

def hostAllowed (host : Text) (allowlist : List Text) : Bool :=
  normalise ns host ≠ [] && allowlist.any fun entry =>
    entryAccepts (normalise ns host) (normalise ns entry)

def loopbackAliasAddrs (n : Text) : Option (List Text) :=
  if n = "localhost".toList || ".localhost".toList.isSuffixOf n then
    some ["127.0.0.1".toList, "::1".toList]
  else if ["127.0.0.1", "0.0.0.0", "::1", "[::]", "[::1]"].any (·.toList = n) then some [n]
  else none

def hostPart (h : Text) : Text := normalise ns ((ns.splitHostPort h).getD h)

def stripLocalhostAliases (hosts exempt : List Text) : List Text :=
  hosts.filter fun h =>
    (loopbackAliasAddrs (hostPart ns h)).all fun addrs =>
      (exempt.map (hostPart ns)).contains (hostPart ns h) ||
        addrs.any fun a => ns.ipLiteralAllowed a exempt

def Tool.http? : Tool → Option HTTP
  | .http h => some h
  | .backed h => h
  | _ => none

def findHTTPPrivateAllowlist (tools : List Tool) : List Text :=
  ((tools.findSome? Tool.http?).map HTTP.privateHostAllowlist).getD []

def intersectHosts (operator caller : List Text) : List Text :=
  if operator = [] then [] else caller.filter fun c => hostAllowed ns c operator

def narrowHTTP (h : HTTP) (caller : List Text) : HTTP :=
  { h with hostAllowlist := intersectHosts ns h.hostAllowlist caller }

/-- The list of the first HTTP tool. -/
def httpFloor (tools : List Tool) : List Text :=
  ((tools.findSome? fun | .http h => some h | _ => none).map HTTP.hostAllowlist).getD []

def Tool.narrow (floor caller : List Text) (mode : String) : Tool → Tool
  | .http h => .http (narrowHTTP ns h caller)
  | .backed h => .backed (h.map fun h => narrowHTTP ns h caller)
  | .webSearch _ _ =>
    .webSearch (intersectHosts ns floor caller) (if mode = "" then "drop" else mode)
  | .other => .other

/-- `NarrowHosts` without caller authority. -/
def narrowHosts (tools : List Tool) (caller : Option (List Text)) (mode : String) :
    List Tool :=
  match caller with
  | none => tools
  | some caller =>
    let caller := stripLocalhostAliases ns caller (findHTTPPrivateAllowlist tools)
    tools.map (Tool.narrow ns (httpFloor tools) caller mode)

variable {ns} {host c : Text} {operator caller : List Text}

/-- An entry that an entry accepts as a host accepts nothing more. -/
theorem entryAccepts_trans {a b c : Text} (hab : entryAccepts a b = true)
    (hbc : entryAccepts b c = true) : entryAccepts a c = true := by
  simp only [entryAccepts, Bool.and_eq_true, Bool.or_eq_true, decide_eq_true_eq,
    List.isSuffixOf_iff_suffix] at hab hbc ⊢
  obtain ⟨hc, (hstar | rfl) | hbc⟩ := hbc
  · exact ⟨hc, .inl (.inl hstar)⟩
  · exact hab
  refine ⟨hc, ?_⟩
  obtain (rfl | rfl) | hab := hab.2
  · -- the wildcard does not end in an entry
    have hlen := hbc.length_le
    exact absurd (List.length_eq_zero_iff.mp (by simpa using hlen)) hc
  · exact .inr hbc
  · exact .inr (hbc.trans ((List.suffix_cons _ _).trans hab))

theorem hostAllowed_iff : hostAllowed ns host operator = true ↔ normalise ns host ≠ [] ∧
    ∃ e ∈ operator, entryAccepts (normalise ns host) (normalise ns e) = true := by
  simp [hostAllowed]

theorem hostAllowed_mono (hsub : caller ⊆ operator) (h : hostAllowed ns host caller = true) :
    hostAllowed ns host operator = true := by
  rw [hostAllowed_iff] at h ⊢
  obtain ⟨hne, e, he, haccepts⟩ := h
  exact ⟨hne, e, hsub he, haccepts⟩

theorem intersectHosts_sound (h : hostAllowed ns host (intersectHosts ns operator caller) = true) :
    hostAllowed ns host operator = true ∧ hostAllowed ns host caller = true := by
  unfold intersectHosts at h
  split at h
  · simp [hostAllowed] at h
  · refine ⟨?_, hostAllowed_mono List.filter_sublist.subset h⟩
    rw [hostAllowed_iff] at h ⊢
    obtain ⟨hne, e, he, haccepts⟩ := h
    obtain ⟨-, e', he', haccepts'⟩ := hostAllowed_iff.mp (List.mem_filter.mp he).2
    exact ⟨hne, e', he', entryAccepts_trans haccepts haccepts'⟩

/-- The list a tool goes by; a search goes by the floor it is narrowed from. -/
def Tool.hosts (floor : List Text) : Tool → List Text
  | .http h => h.hostAllowlist
  | .backed h => (h.map HTTP.hostAllowlist).getD []
  | .webSearch _ _ => floor
  | .other => []

/-- The list a tool has. -/
def Tool.allowed : Tool → List Text
  | .webSearch allowedHosts _ => allowedHosts
  | t => t.hosts []

variable {floor : List Text} {mode : String} {tools : List Tool}

theorem httpFloor_narrow : httpFloor (tools.map (Tool.narrow ns floor caller mode)) =
    intersectHosts ns (httpFloor tools) caller := by
  induction tools with
  | nil => rfl
  | cons t tools ih =>
    cases t with
    | http h => rfl
    | backed h | webSearch _ _ | other => exact ih

theorem hosts_narrow (t : Tool) :
    (t.narrow ns floor caller mode).hosts (intersectHosts ns floor caller) =
      intersectHosts ns (t.hosts floor) caller := by
  cases t with
  | backed h => cases h <;> rfl
  | _ => rfl

theorem allowed_narrow (t : Tool) :
    (t.narrow ns floor caller mode).allowed = intersectHosts ns (t.hosts floor) caller := by
  cases t with
  | backed h => cases h <;> rfl
  | _ => rfl

variable (ns) in
/-- One narrowing after the other. -/
def narrowAll (tools : List Tool) (callers : List (Option (List Text) × String)) : List Tool :=
  callers.foldl (fun tools c => narrowHosts ns tools c.1 c.2) tools

variable (ns) in
/-- What a tool goes by accepts no more than `operator` and `lists`, and is what the tool has once
it was narrowed. -/
structure Within (operator : List Text) (lists : List (List Text)) (floor : List Text) (t : Tool) :
    Prop where
  settled : lists ≠ [] → t.allowed = t.hosts floor
  within : ∀ host, hostAllowed ns host (t.hosts floor) = true →
    hostAllowed ns host operator = true ∧ ∀ l ∈ lists, hostAllowed ns host l = true

variable {lists : List (List Text)} {t : Tool}

/-- One narrowing: what a tool goes by is cut to the caller's list. -/
theorem Within.narrow {asked : List Text} (h : Within ns operator lists floor t)
    (hsub : caller ⊆ asked) (mode : String) : Within ns operator (lists ++ [asked])
      (intersectHosts ns floor caller) (t.narrow ns floor caller mode) := by
  refine ⟨fun _ => (allowed_narrow t).trans (hosts_narrow t).symm, fun host hhost => ?_⟩
  rw [hosts_narrow] at hhost
  obtain ⟨hold, hnew⟩ := intersectHosts_sound hhost
  obtain ⟨hoperator, hlists⟩ := h.within host hold
  refine ⟨hoperator, List.forall_mem_append.mpr ⟨hlists, List.forall_mem_singleton.mpr ?_⟩⟩
  exact hostAllowed_mono hsub hnew

theorem within_narrowAll {i : Nat} (callers : List (Option (List Text) × String))
    (ht : tools[i]? = some t) (h : Within ns operator lists (httpFloor tools) t) :
    ∃ t', (narrowAll ns tools callers)[i]? = some t' ∧
      Within ns operator (lists ++ callers.filterMap Prod.fst)
        (httpFloor (narrowAll ns tools callers)) t' := by
  induction callers generalizing tools t lists with
  | nil => exact ⟨t, ht, (List.append_nil lists).symm ▸ h⟩
  | cons c callers ih =>
    obtain ⟨_ | caller, mode⟩ := c
    · exact ih ht h
    · have hsub : stripLocalhostAliases ns caller (findHTTPPrivateAllowlist tools) ⊆ caller :=
        List.filter_subset_self _
      have hstep := h.narrow hsub mode
      rw [← httpFloor_narrow] at hstep
      have ht₁ : (narrowHosts ns tools (some caller) mode)[i]? = some _ :=
        List.getElem?_map.trans (congrArg _ ht)
      obtain ⟨t', ht', h'⟩ := ih ht₁ hstep
      rw [List.append_assoc] at h'
      exact ⟨t', ht', h'⟩

/-- After one narrowing and any further ones, a host that a tool's list accepts is accepted by the
operator's list, the tool's own or for a search that of the first HTTP tool, and by the list of
every caller; and an empty list accepts none. -/
theorem narrowing_never_widens (ns : Names) (tools : List Tool) (caller : List Text) (mode : String)
    (further : List (Option (List Text) × String)) :
    (∀ host, hostAllowed ns host [] = false) ∧
    ∀ (i : Nat) (t : Tool), tools[i]? = some t →
      ∃ t', (narrowAll ns (narrowHosts ns tools (some caller) mode) further)[i]? = some t' ∧
        ∀ host, hostAllowed ns host t'.allowed = true →
          hostAllowed ns host (t.hosts (httpFloor tools)) = true ∧
            ∀ l ∈ caller :: further.filterMap Prod.fst, hostAllowed ns host l = true := by
  refine ⟨fun host => by simp [hostAllowed], fun i t ht => ?_⟩
  have hstart : Within ns (t.hosts (httpFloor tools)) [] (httpFloor tools) t :=
    ⟨fun hne => absurd rfl hne, fun _ h => ⟨h, nofun⟩⟩
  obtain ⟨t', ht', h'⟩ := within_narrowAll ((some caller, mode) :: further) ht hstart
  refine ⟨t', ht', fun host hhost => h'.within host ?_⟩
  rwa [← h'.settled (List.cons_ne_nil _ _)]

end Narrowing

end Loomcycle.Tools
