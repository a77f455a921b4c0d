import SerialNexus.Graph
import SerialNexus.CycleSearch

/-! # The structural model of a graph

`core/src/graph.rs`: endpoint addresses, node shapes, edges, and the structural checks of
`GraphModel::validate`.  A `HashMap` is an `ExtTreeMap` here: only the order of the reported errors
depends on it. -/

namespace SerialNexus

open List
open Std (ExtTreeMap)

/-! ### Strings -/

def isWhiteSpace (c : Char) : Bool :=
  (0x09 ≤ c.toNat && c.toNat ≤ 0x0d) || (0x2000 ≤ c.toNat && c.toNat ≤ 0x200a) ||
    [0x20, 0x85, 0xa0, 0x1680, 0x2028, 0x2029, 0x202f, 0x205f, 0x3000].contains c.toNat

def isBlank (s : String) : Bool := s.toList.all isWhiteSpace

def splitOnce (c : Char) (s : String) : Option (String × String) :=
  if c ∈ s.toList then
    some (.ofList (s.toList.takeWhile (· ≠ c)), .ofList (s.toList.dropWhile (· ≠ c)).tail)
  else none

def rsplitOnce (c : Char) (s : String) : Option (String × String) :=
  if c ∈ s.toList then
    some (.ofList (s.toList.reverse.dropWhile (· ≠ c)).tail.reverse,
      .ofList (s.toList.reverse.takeWhile (· ≠ c)).reverse)
  else none

def splitOnceAt (sep : List Char) : List Char → Option (List Char × List Char)
  | [] => none
  | c :: cs =>
    if sep.isPrefixOf (c :: cs) then some ([], (c :: cs).drop sep.length)
    else (splitOnceAt sep cs).map fun (before, after) => (c :: before, after)

def parseU16 (s : String) : Option ℕ :=
  let digits := if s.toList.head? = some '+' then s.toList.tail else s.toList
  if digits ≠ [] ∧ digits.all Char.isDigit ∧ Nat.ofDigitChars 10 digits 0 < 2 ^ 16 then
    some (Nat.ofDigitChars 10 digits 0)
  else none

section split

variable {c : Char} {s a b : String}

theorem takeWhile_append_cons {l r : List Char} (h : c ∉ l) :
    (l ++ c :: r).takeWhile (· ≠ c) = l ∧ (l ++ c :: r).dropWhile (· ≠ c) = c :: r := by
  have hl : ∀ x ∈ l, decide (x ≠ c) = true := fun x hx => by
    simpa using fun hc : x = c => h (hc ▸ hx)
  rw [takeWhile_append_of_pos hl, dropWhile_append_of_pos hl]
  simp

theorem splitOnce_eq_none : splitOnce c s = none ↔ c ∉ s.toList := by simp [splitOnce]

theorem splitOnce_eq_some :
    splitOnce c s = some (a, b) ↔ s.toList = a.toList ++ c :: b.toList ∧ c ∉ a.toList := by
  constructor
  · intro h
    unfold splitOnce at h
    split_ifs at h with hc
    obtain ⟨l, r, hs, hl⟩ := eq_append_cons_of_mem hc
    rw [hs, (takeWhile_append_cons hl).1, (takeWhile_append_cons hl).2] at h
    obtain ⟨rfl, rfl⟩ := Prod.mk.inj (Option.some.inj h)
    simpa using ⟨hs, hl⟩
  · rintro ⟨hs, ha⟩
    rw [splitOnce, if_pos (by simp [hs]), hs, (takeWhile_append_cons ha).1,
      (takeWhile_append_cons ha).2]
    simp

theorem rsplitOnce_eq_some :
    rsplitOnce c s = some (a, b) ↔ s.toList = a.toList ++ c :: b.toList ∧ c ∉ b.toList := by
  -- the last `c` is the first one of the text read backwards
  have hrev : rsplitOnce c s = some (a, b) ↔
      splitOnce c (.ofList s.toList.reverse) =
        some (.ofList b.toList.reverse, .ofList a.toList.reverse) := by
    simp only [rsplitOnce, splitOnce, String.toList_ofList, mem_reverse]
    split_ifs with hc
    · simp only [Option.some.injEq, Prod.mk.injEq, String.ext_iff, String.toList_ofList]
      rw [reverse_eq_iff, reverse_eq_iff, and_comm]
    · simp
  rw [hrev, splitOnce_eq_some]
  simp only [String.toList_ofList, mem_reverse]
  rw [reverse_eq_iff]
  simp

end split

def defaultEndpoint : String := ""

structure EndpointAddr where
  node : String
  endpoint : String
deriving DecidableEq

namespace EndpointAddr

def ofNode (node : String) : EndpointAddr := ⟨node, defaultEndpoint⟩

def isDefault (a : EndpointAddr) : Bool := a.endpoint = defaultEndpoint

def display (a : EndpointAddr) : String :=
  if a.isDefault then a.node else a.node ++ "/" ++ a.endpoint

def parse (s : String) : EndpointAddr :=
  match splitOnce '/' s with
  | some (node, endpoint) => ⟨node, endpoint⟩
  | none => ofNode s

instance : Ord EndpointAddr := ⟨compareLex (compareOn node) (compareOn endpoint)⟩

instance : Std.TransOrd EndpointAddr :=
  inferInstanceAs (Std.TransCmp (compareLex (compareOn node) (compareOn endpoint)))

instance : Std.LawfulEqOrd EndpointAddr where
  eq_of_compare {a b} h := by
    obtain ⟨hn, he⟩ := compareLex_eq_eq.mp h
    cases a
    cases b
    simp only [compareOn, Std.compare_eq_iff_eq] at hn he
    rw [hn, he]

theorem parse_display {a : EndpointAddr} (h : '/' ∉ a.node.toList) : parse a.display = a := by
  unfold display parse
  by_cases hd : a.isDefault = true
  · have he : a.endpoint = defaultEndpoint := by simpa [isDefault] using hd
    rw [if_pos hd, splitOnce_eq_none.mpr h, ofNode, ← he]
  · have hlist : (a.node ++ "/" ++ a.endpoint).toList = a.node.toList ++ '/' :: a.endpoint.toList := by
      simp [String.toList_append]
    rw [if_neg hd, splitOnce_eq_some.mpr ⟨hlist, h⟩]

theorem display_inj {a b : EndpointAddr} (ha : '/' ∉ a.node.toList) (hb : '/' ∉ b.node.toList)
    (h : a.display = b.display) : a = b := by
  rw [← parse_display ha, h, parse_display hb]

end EndpointAddr

structure EndpointSpec where
  name : String
  facing : Facing
  arbitration : Arbitration
deriving DecidableEq

structure NodeShape where
  endpoints : List EndpointSpec
deriving DecidableEq

namespace NodeShape

def singleArb (facing : Facing) (arbitration : Arbitration) : NodeShape :=
  ⟨[⟨defaultEndpoint, facing, arbitration⟩]⟩

def single (facing : Facing) : NodeShape := singleArb facing .exclusive

def endpoint (s : NodeShape) (name : String) : Option EndpointSpec :=
  s.endpoints.find? (·.name = name)

end NodeShape

structure EdgeSpec where
  a : EndpointAddr
  b : EndpointAddr
  writeMode : WriteMode
deriving DecidableEq

inductive ValidationError where
  | invalidName (node : String) (endpoint : Option String)
  | emptyName (node : String)
  | blankName (node : String) (endpoint : Option String)
  | nameTooLong (node : String) (endpoint : Option String) (len max : ℕ)
  | numericOutOfRange (node field : String) (value min max : ℕ)
  | serialFacesTarget (node : String)
  | multiplexedEdgeNotHeld (edge : ℕ) (origin mux : EndpointAddr) (writeMode : WriteMode)
  | conflictingHeldEdges (endpoint first second : EndpointAddr)
  | duplicateEndpoint (node endpoint : String)
  | duplicateNodeName (node : String)
  | unknownNode (edge : ℕ) (node : String)
  | unknownEndpoint (edge : ℕ) (addr : EndpointAddr)
  | sameFacingEdge (edge : ℕ) (facing : Facing)
  | targetEndpointOversubscribed (addr : EndpointAddr) (count : ℕ)
  | cycle (nodes : List String)
  | nonLoopbackBind (node address : String)
  | emptyLeg (node : String)
  | zeroHostwardBuffer (node : String)
  | unknownMapping (node mapping : String)
deriving DecidableEq

def Facing.display : Facing → String
  | .target => "target"
  | .host => "host"

def WriteMode.display : WriteMode → String
  | .never => "never"
  | .onDemand => "on-demand"
  | .held => "held"

def ValidationError.display (debug : String → String) : ValidationError → String
  | .invalidName node none =>
    "node name " ++ debug node ++ " contains '/', which names and channel identities may not (§3)"
  | .invalidName node (some channel) =>
    "channel identity " ++ debug channel ++ " on node " ++ debug node ++
      " contains '/', which names and channel identities may not (§3)"
  | .emptyName _ =>
    "a node has an empty name, which is reserved for default endpoints and forbidden as a " ++
      "node name (§3, §11)"
  | .blankName node none =>
    "node name " ++ debug node ++
      " is whitespace-only, which is as unusable as an empty name (§3, §11, §12)"
  | .blankName node (some channel) =>
    "channel identity " ++ debug channel ++ " on node " ++ debug node ++
      " is whitespace-only, which is as unusable as an empty identity (§3, §11, §12)"
  | .nameTooLong node none len max =>
    "node name " ++ debug node ++ " is " ++ toString len ++ " bytes, above the " ++
      toString max ++ "-byte limit for names and identities (§3)"
  | .nameTooLong node (some channel) len max =>
    "channel identity " ++ debug channel ++ " on node " ++ debug node ++ " is " ++
      toString len ++ " bytes, above the " ++ toString max ++
      "-byte limit — an identity rides in every frame header, so an oversize one leaves no " ++
      "room for payload (§3, §9)"
  | .numericOutOfRange node field value min max =>
    "node " ++ debug node ++ " declares " ++ field ++ " = " ++ toString value ++
      (if value < min then ", below the minimum " ++ toString min
        else ", above the maximum " ++ toString max) ++
      " (a numeric field is range-checked before anything is created, §11)"
  | .serialFacesTarget node =>
    "serial node " ++ debug node ++ " declares faces = \"target\", which is not implemented — " ++
      "the node would seize the port with TIOCEXCL and be wired to nothing (deferred work, " ++
      "§7.1/§14)"
  | .multiplexedEdgeNotHeld edge origin mux writeMode =>
    "edge " ++ toString edge ++ " (" ++ origin.display ++ " -> " ++ mux.display ++
      ") feeds a codec's multiplexed endpoint with write_mode = \"" ++ writeMode.display ++
      "\"; only \"held\" or \"never\" work there, because the multiplexed side's targetward " ++
      "pump is only ever granted the lock as a held origin — any other mode parks forever " ++
      "while `send` reports success (§5, §7.5/§7.6)"
  | .conflictingHeldEdges endpoint first second =>
    "host-facing endpoint " ++ endpoint.display ++ " has two held origins (" ++ first.display ++
      " and " ++ second.display ++ "); \"held\" means acquire-on-attach and held indefinitely, " ++
      "which only one origin can have — the loser could never write and would not even appear " ++
      "as a waiter (§6)"
  | .duplicateNodeName node =>
    "node name " ++ debug node ++ " is declared more than once (node names must be unique, §4)"
  | .duplicateEndpoint node endpoint =>
    if endpoint = "" then
      "node " ++ debug node ++ " declares an empty channel identity, which is reserved for a " ++
        "default endpoint and forbidden as a real channel (§3)"
    else
      "node " ++ debug node ++ " declares endpoint " ++ debug endpoint ++
        " more than once (a duplicate channel identity would be shadowed, §3)"
  | .unknownNode edge node => "edge " ++ toString edge ++ " references unknown node " ++ debug node
  | .unknownEndpoint edge addr =>
    "edge " ++ toString edge ++ " references unknown endpoint " ++ addr.display
  | .sameFacingEdge edge facing =>
    "edge " ++ toString edge ++ " joins two " ++ facing.display ++
      "-facing endpoints (must join one host to one target)"
  | .targetEndpointOversubscribed addr count =>
    "target-facing endpoint " ++ addr.display ++ " has " ++ toString count ++
      " edges (must have at most one — the one-producer invariant)"
  | .cycle nodes => "graph contains a cycle through " ++ " -> ".intercalate nodes
  | .nonLoopbackBind node address =>
    "leg node " ++ debug node ++ " binds/dials non-loopback address " ++ debug address ++
      " without insecure_bind=true (§7.4)"
  | .emptyLeg node =>
    "leg node " ++ debug node ++ " declares no channels (a leg must carry at least one, §7.4)"
  | .zeroHostwardBuffer node =>
    "node " ++ debug node ++ " declares hostward_buffer = 0, which would drop nearly all " ++
      "hostward output (must be at least 1, §5)"
  | .unknownMapping node mapping =>
    "map node " ++ debug node ++ " lists unknown mapping " ++ debug mapping ++
      " (not in picocom's vocabulary, §7.8)"

structure GraphModel where
  shapes : ExtTreeMap String NodeShape
  edges : List EdgeSpec

def endpointErrors (node : String) (seen : List String) (ep : EndpointSpec) :
    List ValidationError :=
  (if '/' ∈ ep.name.toList then [.invalidName node (some ep.name)] else []) ++
  (if ep.name ≠ "" ∧ isBlank ep.name then [.blankName node (some ep.name)] else []) ++
  (if maxNameLen < ep.name.utf8ByteSize then
    [.nameTooLong node (some ep.name) ep.name.utf8ByteSize maxNameLen] else []) ++
  (if ep.name ∈ seen then [.duplicateEndpoint node ep.name] else [])

def endpointsErrors (node : String) : List String → List EndpointSpec → List ValidationError
  | _, [] => []
  | seen, ep :: eps => endpointErrors node seen ep ++ endpointsErrors node (ep.name :: seen) eps

def nameErrors (node : String) (shape : NodeShape) : List ValidationError :=
  (if node = "" then [.emptyName node] else []) ++
  (if node ≠ "" ∧ isBlank node then [.blankName node none] else []) ++
  (if '/' ∈ node.toList then [.invalidName node none] else []) ++
  (if maxNameLen < node.utf8ByteSize then
    [.nameTooLong node none node.utf8ByteSize maxNameLen] else []) ++
  endpointsErrors node [] shape.endpoints

def adjacency (arcs : List (String × String)) (node : String) : List String :=
  (arcs.filter (·.1 = node)).map Prod.snd

def findCycle (names : List String) (arcs : List (String × String)) : Option (List String) :=
  CycleSearch.findCycle (adjacency arcs) (names ++ arcs.map Prod.fst).dedup

structure AdjKeys (names : List String) (arcs : List (String × String)) (order : List String) :
    Prop where
  nodup : order.Nodup
  mem : ∀ v, v ∈ order ↔ v ∈ names ∨ v ∈ arcs.map Prod.fst

def findCycleIn (order : List String) (arcs : List (String × String)) :
    CycleSearch.Verdict String :=
  CycleSearch.checkedFindCycle (adjacency arcs) order

section findCycle

variable {names order : List String} {arcs : List (String × String)}

theorem arc_adjacency (arcs : List (String × String)) :
    CycleSearch.Arc (adjacency arcs) = fun u w => (u, w) ∈ arcs := by
  funext u w
  simp [CycleSearch.Arc, adjacency]

theorem AdjKeys.source_mem (h : AdjKeys names arcs order) {u w : String}
    (harc : CycleSearch.Arc (adjacency arcs) u w) : u ∈ order := by
  rw [arc_adjacency] at harc
  exact (h.mem u).mpr (.inr (mem_map_of_mem harc))

theorem find_cycle_exact (h : AdjKeys names arcs order) :
    findCycleIn order arcs ≠ .unfinished ∧
    (∀ answer, findCycleIn order arcs = .answer answer →
      (answer.isSome ↔ ∃ v, Relation.TransGen (fun u w => (u, w) ∈ arcs) v v)) ∧
    (∀ path, findCycleIn order arcs = .answer (some path) →
      path.head? = path.getLast? ∧ 2 ≤ path.length ∧ path.IsChain fun u w => (u, w) ∈ arcs) ∧
    ((∀ a ∈ arcs, a.2 ∈ names ∨ a.2 ∈ arcs.map Prod.fst) →
      ∃ answer, findCycleIn order arcs = .answer answer) := by
  have hcorrect := CycleSearch.checkedFindCycle_correct (adjacency arcs) order
  refine ⟨CycleSearch.checkedFindCycle_ne_unfinished _ order, ?_, ?_, ?_⟩
  · intro answer hanswer
    rw [← findCycleIn, hanswer] at hcorrect
    rw [← arc_adjacency]
    exact hcorrect.isSome_iff fun u w harc => h.source_mem harc
  · intro path hpath
    rw [← findCycleIn, hpath] at hcorrect
    obtain ⟨harcs, hends, hlen⟩ := hcorrect
    rw [arc_adjacency] at harcs
    exact ⟨hends, hlen, harcs⟩
  · intro hclosed
    refine ⟨_, CycleSearch.checkedFindCycle_eq fun u w harc => ?_⟩
    rw [arc_adjacency] at harc
    exact (h.mem w).mpr (hclosed _ harc)

theorem find_cycle_exact_tangled :
    findCycleIn ["d", "a", "c", "b"]
        [("a", "b"), ("a", "b"), ("b", "c"), ("d", "d"), ("c", "b")] = .answer (some ["d", "d"]) ∧
      ∃ v, Relation.TransGen
        (fun u w => (u, w) ∈ [("a", "b"), ("a", "b"), ("b", "c"), ("d", "d"), ("c", "b")]) v v := by
  have hrun : findCycleIn ["d", "a", "c", "b"]
      [("a", "b"), ("a", "b"), ("b", "c"), ("d", "d"), ("c", "b")] = .answer (some ["d", "d"]) := by
    decide +kernel
  have hkeys : AdjKeys ["a", "b", "c"]
      [("a", "b"), ("a", "b"), ("b", "c"), ("d", "d"), ("c", "b")] ["d", "a", "c", "b"] :=
    ⟨by decide, fun v => by simp; tauto⟩
  exact ⟨hrun, ((find_cycle_exact hkeys).2.1 _ hrun).mp rfl⟩

end findCycle

namespace GraphModel

variable (m : GraphModel)

inductive ResolveErr where
  | node
  | endpoint

def resolve (addr : EndpointAddr) : Except ResolveErr EndpointSpec :=
  match m.shapes[addr.node]? with
  | none => .error .node
  | some shape =>
    match shape.endpoint addr.endpoint with
    | none => .error .endpoint
    | some spec => .ok spec

def referenceError (edge : ℕ) (addr : EndpointAddr) : ResolveErr → ValidationError
  | .node => .unknownNode edge addr.node
  | .endpoint => .unknownEndpoint edge addr

def checkEdge (i : ℕ) (edge : EdgeSpec) : Except ValidationError (EndpointAddr × EndpointAddr) :=
  match m.resolve edge.a, m.resolve edge.b with
  | .ok a, .ok b =>
    match a.facing, b.facing with
    | .host, .target => .ok (edge.a, edge.b)
    | .target, .host => .ok (edge.b, edge.a)
    | facing, _ => .error (.sameFacingEdge i facing)
  | .error e, _ => .error (referenceError i edge.a e)
  | _, .error e => .error (referenceError i edge.b e)

def checkedEdges : List (Except ValidationError (EndpointAddr × EndpointAddr)) :=
  m.edges.zipIdx.map fun x => m.checkEdge x.2 x.1

def checkError : Except ValidationError (EndpointAddr × EndpointAddr) → Option ValidationError
  | .error e => some e
  | .ok _ => none

def ends : List (EndpointAddr × EndpointAddr) := m.checkedEdges.filterMap Except.toOption

def oversubscribed : List ValidationError :=
  let targets := m.ends.map Prod.snd
  (targets.dedup.filter fun a => 1 < targets.count a).map fun a =>
    .targetEndpointOversubscribed a (targets.count a)

def arcs : List (String × String) := m.ends.map fun x => (x.1.node, x.2.node)

def validate : List ValidationError := (m.shapes.toList.flatMap fun x => nameErrors x.1 x.2) ++
  m.checkedEdges.filterMap checkError ++
  m.oversubscribed ++
  ((findCycle m.shapes.keys m.arcs).map ValidationError.cycle).toList

end GraphModel
end SerialNexus
