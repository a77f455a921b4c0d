import Mathlib.Data.List.DropRight
import SerialNexus.Config

/-! # The console's Host and Origin gates

`handle_conn` (`web/src/server.rs`) refuses a request whose `Host` is not a name it serves, and one
whose `Origin` does not designate the server.  The gates split the header in two ways, which differ
on an unbracketed header with more than one colon (`host_split_agrees`). -/

namespace SerialNexus.Web

open List

def splitHost (authority : String) : Option (String × Option String) :=
  match authority.toList with
  | '[' :: rest =>
    (splitOnce ']' (.ofList rest)).map fun (inner, tail) =>
      (inner, match tail.toList with
        | ':' :: port => some (.ofList port)
        | _ => none)
  | _ =>
    -- an unbracketed IPv6 literal, the form the allow-list carries
    if authority.toList.count ':' > 1 then some (authority, none)
    else match rsplitOnce ':' authority with
      | some (host, port) => some (host, some port)
      | none => some (authority, none)

def splitAuthority (authority : String) : Option (String × Option ℕ) :=
  match splitHost authority with
  | none => none
  | some (host, none) => some (host, none)
  | some (host, some "") => some (host, none)
  | some (host, some port) => (parseU16 port).map fun n => (host, some n)

inductive HostFlagError where
  | malformed (value : String)
  | empty (value : String)
deriving DecidableEq

def normalizeHosts : List String → Except HostFlagError (List String)
  | [] => .ok []
  | value :: values =>
    match splitAuthority value with
    | none => .error (.malformed value)
    | some (host, _) =>
      if host.isEmpty then .error (.empty value)
      else match normalizeHosts values with
        | .ok hosts => .ok (host :: hosts)
        | .error e => .error e

def stripBrackets (s : List Char) : List Char := (s.dropWhile (· = '[')).rdropWhile (· = ']')

def bracketedEq (a b : String) : Bool := stripBrackets a.toList = stripBrackets b.toList

/-! ### The gates -/

structure Request where
  headers : List (String × String)

namespace Request

def header (req : Request) (name : String) : Option String :=
  (req.headers.find? fun h => eqIgnoreAsciiCase h.1 name).map Prod.snd

def hostOf (h : String) : String :=
  match h.toList with
  | '[' :: rest =>
    match splitOnce ']' (.ofList rest) with
    | some (inner, _) => .ofList ('[' :: inner.toList ++ [']'])
    | none => h
  | _ => ((rsplitOnce ':' h).map Prod.fst).getD h

/-- `Request::host`. -/
def host (req : Request) : Option String := (req.header "host").map hostOf

end Request

def originTarget (origin : String) : Option (String × ℕ) :=
  match splitOnceAt "://".toList origin.toList with
  | none => none
  | some (scheme, authority) =>
    if '/' ∈ authority ∨ '?' ∈ authority ∨ '#' ∈ authority then none
    else
      let default? :=
        if eqIgnoreAsciiCase (.ofList scheme) "https" then some 443
        else if eqIgnoreAsciiCase (.ofList scheme) "http" then some 80
        else none
      match default?, splitAuthority (.ofList authority) with
      | some default, some (host, port) => some (host, port.getD default)
      | _, _ => none

def hostTarget (header : String) (secure : Bool) : Option (String × ℕ) :=
  (splitAuthority header).map fun (host, port) => (host, port.getD (if secure then 443 else 80))

def originMatchesHost (origin header : String) (secure : Bool) : Bool :=
  match originTarget origin, hostTarget header secure with
  | some (oHost, oPort), some (hHost, hPort) => oPort = hPort && eqIgnoreAsciiCase oHost hHost
  | _, _ => false

def passesGates (hosts : List String) (secure : Bool) (req : Request) : Bool :=
  let hostOk := match req.host with
    | some h => hosts.any fun allowed => eqIgnoreAsciiCase allowed h || bracketedEq allowed h
    | none => false
  hostOk && match req.header "origin" with
    | some origin => originMatchesHost origin ((req.header "host").getD "") secure
    | none => true

def SameHost (a b : String) : Prop :=
  stripBrackets (a.toList.map Char.toLower) = stripBrackets (b.toList.map Char.toLower)

instance (a b : String) : Decidable (SameHost a b) := inferInstanceAs (Decidable (_ = _))

variable {a b : String} {port : Option ℕ}

theorem SameHost.of_eqIgnoreAsciiCase (h : eqIgnoreAsciiCase a b = true) :
    SameHost a b := congrArg stripBrackets (of_decide_eq_true h)

theorem toLower_eq_iff {c d : Char} (hd : d.toNat < 97) (hup : ¬ (65 ≤ d.toNat ∧ d.toNat ≤ 90)) :
    c.toLower = d ↔ c = d := by
  unfold Char.toLower
  split
  · next h =>
    constructor
    · rintro rfl
      exfalso
      have hlow : 65 ≤ c.val.toNat := h.1
      have hhigh : c.val.toNat ≤ 90 := h.2
      change (c.val + 32).toNat < 97 at hd
      rw [UInt32.toNat_add, Nat.mod_eq_of_lt (by change _ + 32 < 2 ^ 32; omega)] at hd
      change c.val.toNat + 32 < 97 at hd
      omega
    · rintro rfl
      exact absurd ⟨h.1, h.2⟩ hup
  · exact Iff.rfl

theorem stripBrackets_map_toLower (s : List Char) :
    stripBrackets (s.map Char.toLower) = (stripBrackets s).map Char.toLower := by
  have hopen : (fun c : Char => decide (c.toLower = '[')) = fun c => decide (c = '[') :=
    funext fun c => decide_eq_decide.mpr (toLower_eq_iff (by decide) (by decide))
  have hclose : (fun c : Char => decide (c.toLower = ']')) = fun c => decide (c = ']') :=
    funext fun c => decide_eq_decide.mpr (toLower_eq_iff (by decide) (by decide))
  simp only [stripBrackets, dropWhile_map, List.rdropWhile, ← map_reverse, Function.comp_def,
    hopen, hclose]

theorem SameHost.of_bracketedEq (h : bracketedEq a b = true) : SameHost a b := by
  rw [SameHost, stripBrackets_map_toLower, stripBrackets_map_toLower, of_decide_eq_true h]

theorem stripBrackets_bracketed {s : List Char} (h : ']' ∉ s) :
    stripBrackets ('[' :: s ++ [']']) = stripBrackets s := by
  have hdrop : (s ++ [']']).dropWhile (· = '[') = s.dropWhile (· = '[') ++ [']'] := by
    induction s with
    | nil => rfl
    | cons c s ih =>
      by_cases hc : c = '['
      · simpa [hc] using ih fun hs => h (mem_cons_of_mem _ hs)
      · simp [hc]
  rw [stripBrackets, cons_append, dropWhile_cons_of_pos (by simp), hdrop,
    rdropWhile_concat_pos _ _ _ (by simp), stripBrackets]

def SplitsAlike (header : String) : Prop :=
  header.toList.head? = some '[' ∨ header.toList.count ':' ≤ 1

instance (header : String) : Decidable (SplitsAlike header) := inferInstanceAs (Decidable (_ ∨ _))

theorem splitHost_of_splitAuthority {s host : String} (h : splitAuthority s = some (host, port)) :
    ∃ text, splitHost s = some (host, text) := by
  unfold splitAuthority at h
  split at h
  · cases h
  · next he => exact ⟨none, by cases h; exact he⟩
  · next he => exact ⟨some "", by cases h; exact he⟩
  · next text _ he =>
    obtain ⟨n, -, hn⟩ := Option.map_eq_some_iff.mp h
    exact ⟨some text, by cases hn; exact he⟩

theorem host_split_agrees {header host : String} (h : splitAuthority header = some (host, port))
    (hs : SplitsAlike header) : SameHost (Request.hostOf header) host := by
  obtain ⟨text, h⟩ := splitHost_of_splitAuthority h
  unfold splitHost at h
  unfold Request.hostOf
  split at h
  · next rest hrest =>
    obtain ⟨⟨inner, tail⟩, hsplit, he⟩ := Option.map_eq_some_iff.mp h
    obtain ⟨rfl, -⟩ := Prod.mk.inj he
    have hinner : ']' ∉ inner.toList := (splitOnce_eq_some.mp hsplit).2
    simp only [hsplit]
    have hlower : ']' ∉ inner.toList.map Char.toLower := fun hmem => by
      obtain ⟨c, hc, hlow⟩ := mem_map.mp hmem
      exact hinner ((toLower_eq_iff (by decide) (by decide)).mp hlow ▸ hc)
    rw [SameHost, String.toList_ofList, map_append, map_cons]
    exact stripBrackets_bracketed hlower
  · next hplain =>
    have hcount : ¬ header.toList.count ':' > 1 := by
      rcases hs with hs | hs
      · cases hl : header.toList with
        | nil => simp [hl] at hs
        | cons c rest =>
          obtain rfl : c = '[' := by simpa [hl] using hs
          exact absurd hl (hplain rest)
      · omega
    rw [if_neg hcount] at h
    cases hr : rsplitOnce ':' header with
    | none | some =>
      simp only [hr, Option.some.injEq, Prod.mk.injEq] at h
      rw [← h.1]
      rfl

theorem splitAuthority_whole {header host : String} (h : splitAuthority header = some (host, port))
    (hs : ¬ SplitsAlike header) : host = header := by
  obtain ⟨text, h⟩ := splitHost_of_splitAuthority h
  unfold splitHost at h
  split at h
  · next rest hrest => exact absurd (.inl (by rw [hrest]; rfl)) hs
  · rw [if_pos (by by_contra hle; exact hs (.inr (not_lt.mp hle)))] at h
    exact (Prod.mk.inj (Option.some.inj h)).1.symm

def GatesAgree (hosts : List String) (secure : Bool) (origin header : String) : Prop :=
  ∃ oHost hHost port, originTarget origin = some (oHost, port) ∧
    hostTarget header secure = some (hHost, port) ∧ ∃ allowed ∈ hosts, SameHost allowed oHost

theorem gates_agree_iff {hosts : List String} {secure : Bool} {req : Request} {origin : String}
    (hpass : passesGates hosts secure req = true) (horigin : req.header "origin" = some origin) :
    ∃ header, req.header "host" = some header ∧
      (GatesAgree hosts secure origin header ↔
        SplitsAlike header ∨ ∃ allowed ∈ hosts, SameHost allowed header) := by
  cases hh : req.header "host" with
  | none => simp [passesGates, Request.host, hh] at hpass
  | some header =>
    refine ⟨header, rfl, ?_⟩
    simp only [passesGates, Request.host, hh, horigin, Option.map_some, Option.getD_some,
      Bool.and_eq_true, any_eq_true, Bool.or_eq_true] at hpass
    obtain ⟨⟨allowed, hmem, hallowed⟩, hmatch⟩ := hpass
    have hgate : SameHost allowed (Request.hostOf header) :=
      hallowed.elim SameHost.of_eqIgnoreAsciiCase SameHost.of_bracketedEq
    unfold originMatchesHost at hmatch
    split at hmatch
    swap
    · cases hmatch
    next oHost oPort hHost hPort ho hht =>
      simp only [Bool.and_eq_true, decide_eq_true_eq] at hmatch
      obtain ⟨rfl, hsame⟩ := hmatch
      have hsame : SameHost oHost hHost := .of_eqIgnoreAsciiCase hsame
      obtain ⟨⟨host, port⟩, hsplit, he⟩ := Option.map_eq_some_iff.mp hht
      obtain rfl : host = hHost := (Prod.mk.inj he).1
      constructor
      · rintro ⟨oHost', _, _, ho', -, allowed', hmem', hallowed'⟩
        obtain rfl : oHost = oHost' := by simpa using congrArg (·.map Prod.fst) (ho.symm.trans ho')
        by_cases hs : SplitsAlike header
        · exact .inl hs
        · rw [← splitAuthority_whole hsplit hs]
          exact .inr ⟨allowed', hmem', hallowed'.trans hsame⟩
      · intro hcond
        refine ⟨oHost, host, oPort, ho, hht, ?_⟩
        by_cases hs : SplitsAlike header
        · exact ⟨allowed, hmem, hgate.trans ((host_split_agrees hsplit hs).trans hsame.symm)⟩
        · obtain ⟨allowed', hmem', hallowed'⟩ := hcond.resolve_left hs
          rw [← splitAuthority_whole hsplit hs] at hallowed'
          exact ⟨allowed', hmem', hallowed'.trans hsame.symm⟩

theorem gates_agree_forwarded :
    normalizeHosts ["localhost:8443"] = .ok ["localhost"] ∧
      ∃ header, Request.header ⟨[("Host", "LOCALHOST:9"), ("Origin", "http://localhost:9")]⟩ "host" =
        some header ∧
      (GatesAgree ["localhost"] false "http://localhost:9" header ↔
        SplitsAlike header ∨ ∃ allowed ∈ ["localhost"], SameHost allowed header) :=
  ⟨by decide +kernel, gates_agree_iff (by decide +kernel) (by decide +kernel)⟩

theorem gates_disagree_unbracketed :
    normalizeHosts ["::1"] = .ok ["::1"] ∧
      passesGates ["::1"] false ⟨[("Host", "::1:8080"), ("Origin", "http://[::1:8080]")]⟩ = true ∧
      originTarget "http://[::1:8080]" = some ("::1:8080", 80) ∧
      ¬ GatesAgree ["::1"] false "http://[::1:8080]" "::1:8080" := by
  refine ⟨by decide +kernel, by decide +kernel, by decide +kernel, ?_⟩
  rintro ⟨oHost, hHost, port, ho, -, allowed, hmem, hsame⟩
  have ho' : originTarget "http://[::1:8080]" = some ("::1:8080", 80) := by decide +kernel
  obtain rfl : "::1:8080" = oHost := by simpa using congrArg (·.map Prod.fst) (ho'.symm.trans ho)
  obtain rfl := mem_singleton.mp hmem
  exact absurd hsame (by decide +kernel)

end SerialNexus.Web
