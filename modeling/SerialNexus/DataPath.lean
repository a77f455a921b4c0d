import SerialNexus.Graph

/-! # The targetward data path

The executable specification in `core/src/data.rs`: an origin with the chunks it has to get rid of,
stages that each may park one chunk, and a boundary that is busy or takes what comes. -/

namespace SerialNexus

open List

inductive Delivery where
  | accepted
  | busy
deriving DecidableEq, Repr

class TargetwardSink (S : Type) where
  deliverTargetward : S → Chunk → Option (Delivery × S)
  flush : S → Option S

open TargetwardSink

/-- The slot of a stage. -/
structure Holdover where
  slot : Option Chunk
deriving DecidableEq, Repr

namespace Holdover

/-- Is a chunk parked? -/
def isParked (h : Holdover) : Bool := h.slot.isSome

def park (h : Holdover) (chunk : Chunk) : Option Holdover :=
  if h.isParked then none else some ⟨some chunk⟩

/-- Take the parked chunk. -/
def take (h : Holdover) : Option Chunk × Holdover := (h.slot, ⟨none⟩)

def bytes (h : Holdover) : List UInt8 := h.slot.getD []

@[simp] theorem park_free (chunk : Chunk) : park ⟨none⟩ chunk = some ⟨some chunk⟩ := rfl

@[simp] theorem bytes_free : bytes ⟨none⟩ = [] := rfl

@[simp] theorem bytes_parked (chunk : Chunk) : bytes ⟨some chunk⟩ = chunk := rfl

theorem flatten_slots (slots : List Holdover) :
    (slots.filterMap (·.slot)).flatten = (slots.map bytes).flatten := by
  induction slots with
  | nil => rfl
  | cons slot slots ih =>
    obtain ⟨slot⟩ := slot
    cases slot with
    | none | some => simpa using ih

end Holdover

structure BusyBoundary where
  busy : Bool
  received : List UInt8
deriving DecidableEq, Repr

instance : TargetwardSink BusyBoundary where
  deliverTargetward s chunk :=
    if s.busy then some (.busy, s) else some (.accepted, { s with received := s.received ++ chunk })
  flush s := some s

structure InteriorTargetward (S : Type) where
  downstream : S
  holdover : Holdover
deriving DecidableEq, Repr

namespace InteriorTargetward

variable {S : Type} [TargetwardSink S] (s : InteriorTargetward S)

def flushHoldover : Option (Bool × InteriorTargetward S) :=
  match s.holdover.take with
  | (none, _) => some (true, s)
  | (some chunk, holdover) => do
    match ← deliverTargetward s.downstream chunk with
    | (.accepted, downstream) => some (true, ⟨downstream, holdover⟩)
    | (.busy, downstream) => some (false, ⟨downstream, ← holdover.park chunk⟩)

def emit (chunk : Chunk) : Option (Delivery × InteriorTargetward S) := do
  match ← deliverTargetward s.downstream chunk with
  | (.accepted, downstream) => some (.accepted, { s with downstream })
  | (.busy, downstream) => some (.accepted, ⟨downstream, ← s.holdover.park chunk⟩)

instance : TargetwardSink (InteriorTargetward S) where
  deliverTargetward s chunk :=
    if s.holdover.isParked then do
      match ← s.flushHoldover with
      | (false, s) => some (.busy, s)
      | (true, s) => s.emit chunk
    else s.emit chunk
  flush s := do
    let downstream ← flush s.downstream
    let (_, s) ← ({ s with downstream } : InteriorTargetward S).flushHoldover
    some s

end InteriorTargetward

structure Lossless (S : Type) [TargetwardSink S] (bytes : S → List UInt8) (idle clear : S → Prop) :
    Prop where
  deliver : ∀ s chunk, ∃ d s', deliverTargetward s chunk = some (d, s') ∧
    bytes s' = bytes s ++ (if d = .accepted then chunk else []) ∧ (idle s' ↔ idle s) ∧
    (idle s → clear s → d = .accepted ∧ clear s')
  flush : ∀ s, ∃ s', flush s = some s' ∧ bytes s' = bytes s ∧ (idle s' ↔ idle s) ∧
    (idle s → clear s')

theorem BusyBoundary.lossless :
    Lossless BusyBoundary (·.received) (·.busy = false) fun _ => True where
  deliver s chunk := by
    cases hb : s.busy with
    | false =>
      exact ⟨.accepted, { s with received := s.received ++ chunk }, by simp [deliverTargetward, hb],
        rfl, by simp [hb], fun _ _ => ⟨rfl, trivial⟩⟩
    | true => exact ⟨.busy, s, by simp [deliverTargetward, hb], by simp, by simp [hb], nofun⟩
  flush s := ⟨s, rfl, rfl, Iff.rfl, fun _ => trivial⟩

namespace Lossless

variable {S : Type} [TargetwardSink S] {bytes : S → List UInt8} {idle clear : S → Prop}

theorem flushHoldover (h : Lossless S bytes idle clear) (s : InteriorTargetward S) :
    ∃ free s', s.flushHoldover = some (free, s') ∧
      bytes s'.downstream ++ s'.holdover.bytes = bytes s.downstream ++ s.holdover.bytes ∧
      (idle s'.downstream ↔ idle s.downstream) ∧ (free = true → s'.holdover = ⟨none⟩) ∧
      (idle s.downstream → clear s.downstream → free = true ∧ clear s'.downstream) := by
  obtain ⟨downstream, slot⟩ := s
  cases slot with
  | mk slot =>
  cases slot with
  | none => exact ⟨true, _, rfl, rfl, Iff.rfl, fun _ => rfl, fun _ hc => ⟨rfl, hc⟩⟩
  | some chunk =>
    obtain ⟨d, s', hd, hbytes, hidle, hclear⟩ := h.deliver downstream chunk
    cases d with
    | accepted =>
      refine ⟨true, ⟨s', ⟨none⟩⟩, ?_, ?_, hidle, fun _ => rfl, fun hi hc => ⟨rfl, (hclear hi hc).2⟩⟩
      · simp [InteriorTargetward.flushHoldover, Holdover.take, hd]
      · simpa using hbytes
    | busy =>
      refine ⟨false, ⟨s', ⟨some chunk⟩⟩, ?_, ?_, hidle, nofun, fun hi hc => ?_⟩
      · simp [InteriorTargetward.flushHoldover, Holdover.take, hd]
      · simp [hbytes]
      · cases (hclear hi hc).1

theorem emit (h : Lossless S bytes idle clear) (s : InteriorTargetward S)
    (hfree : s.holdover = ⟨none⟩) (chunk : Chunk) :
    ∃ s', s.emit chunk = some (.accepted, s') ∧
      bytes s'.downstream ++ s'.holdover.bytes = bytes s.downstream ++ chunk ∧
      (idle s'.downstream ↔ idle s.downstream) ∧
      (idle s.downstream → clear s.downstream → s'.holdover = ⟨none⟩ ∧ clear s'.downstream) := by
  obtain ⟨d, s', hd, hbytes, hidle, hclear⟩ := h.deliver s.downstream chunk
  cases d with
  | accepted =>
    refine ⟨⟨s', ⟨none⟩⟩, ?_, by simpa using hbytes, hidle, fun hi hc => ⟨rfl, (hclear hi hc).2⟩⟩
    simp [InteriorTargetward.emit, hd, hfree]
  | busy =>
    refine ⟨⟨s', ⟨some chunk⟩⟩, ?_, by simp [hbytes], hidle, fun hi hc => ?_⟩
    · simp [InteriorTargetward.emit, hd, hfree]
    · cases (hclear hi hc).1

theorem interior (h : Lossless S bytes idle clear) :
    Lossless (InteriorTargetward S) (fun s => bytes s.downstream ++ s.holdover.bytes)
      (fun s => idle s.downstream) fun s => s.holdover = ⟨none⟩ ∧ clear s.downstream where
  deliver s chunk := by
    by_cases hp : s.holdover.isParked = true
    · obtain ⟨free, s₁, hflush, hbytes₁, hidle₁, hfree, hclear₁⟩ := h.flushHoldover s
      cases free with
      | false =>
        refine ⟨.busy, s₁, by simp [deliverTargetward, hp, hflush], by simp [hbytes₁], hidle₁, ?_⟩
        rintro - ⟨hnone, -⟩
        rw [hnone] at hp
        cases hp
      | true =>
        obtain ⟨s₂, hemit, hbytes₂, hidle₂, hclear₂⟩ := h.emit s₁ (hfree rfl) chunk
        refine ⟨.accepted, s₂, by simp [deliverTargetward, hp, hflush, hemit], ?_, ?_, ?_⟩
        · have hmid : bytes s₁.downstream = bytes s.downstream ++ s.holdover.bytes := by
            rw [← hbytes₁, hfree rfl, Holdover.bytes_free, append_nil]
          rw [if_pos rfl, hbytes₂, hmid]
        · rw [hidle₂, hidle₁]
        · rintro hi ⟨hnone, -⟩
          rw [hnone] at hp
          cases hp
    · have hnone : s.holdover = ⟨none⟩ := by
        obtain ⟨_, slot⟩ := s
        cases slot with
        | mk slot => cases slot with
          | none => rfl
          | some chunk => exact absurd rfl hp
      obtain ⟨s', hemit, hbytes, hidle, hclear⟩ := h.emit s hnone chunk
      refine ⟨.accepted, s', by simp [deliverTargetward, hp, hemit], ?_, hidle,
        fun hi hc => ⟨rfl, hclear hi hc.2⟩⟩
      rw [if_pos rfl, hbytes, hnone, Holdover.bytes_free, append_nil]
  flush s := by
    obtain ⟨d, hd, hbytes, hidle, hclear⟩ := h.flush s.downstream
    obtain ⟨free, s', hflush, hbytes', hidle', hfree, hclear'⟩ :=
      h.flushHoldover { s with downstream := d }
    refine ⟨s', by simp [TargetwardSink.flush, hd, hflush], ?_, hidle'.trans hidle, fun hi => ?_⟩
    · rw [hbytes', hbytes]
    · have hc := hclear' (hidle.mpr hi) (hclear hi)
      exact ⟨hfree hc.1, hc.2⟩

end Lossless

def Chain : ℕ → Type
  | 0 => BusyBoundary
  | n + 1 => InteriorTargetward (Chain n)

namespace Chain

instance sink : (n : ℕ) → TargetwardSink (Chain n)
  | 0 => inferInstanceAs (TargetwardSink BusyBoundary)
  | n + 1 =>
    haveI := sink n
    inferInstanceAs (TargetwardSink (InteriorTargetward (Chain n)))

def boundary : {n : ℕ} → Chain n → BusyBoundary
  | 0, s => s
  | _ + 1, s => boundary (InteriorTargetward.downstream s)

def slots : {n : ℕ} → Chain n → List Holdover
  | 0, _ => []
  | _ + 1, s => InteriorTargetward.holdover s :: slots (InteriorTargetward.downstream s)

def setBusy : {n : ℕ} → Bool → Chain n → Chain n
  | 0, busy, s => { (s : BusyBoundary) with busy }
  | _ + 1, busy, s =>
    { (s : InteriorTargetward _) with downstream := setBusy busy (InteriorTargetward.downstream s) }

def empty : (n : ℕ) → Chain n
  | 0 => (⟨false, []⟩ : BusyBoundary)
  | n + 1 => (⟨empty n, ⟨none⟩⟩ : InteriorTargetward (Chain n))

def bytes {n : ℕ} (s : Chain n) : List UInt8 :=
  (boundary s).received ++ ((slots s).reverse.map Holdover.bytes).flatten

theorem bytes_stage {n : ℕ} (s : Chain (n + 1)) :
    bytes s = bytes (InteriorTargetward.downstream s) ++ (InteriorTargetward.holdover s).bytes := by
  simp [bytes, slots, boundary]

theorem slots_length {n : ℕ} (s : Chain n) : (slots s).length = n := by
  induction n with
  | zero => rfl
  | succ n ih => exact congrArg Nat.succ (ih _)

theorem lossless (n : ℕ) :
    Lossless (Chain n) bytes (fun s => (boundary s).busy = false)
      fun s => ∀ slot ∈ slots s, slot = ⟨none⟩ := by
  induction n with
  | zero =>
    have hbytes : (bytes : Chain 0 → List UInt8) = BusyBoundary.received := by
      funext s
      simp [bytes, slots, boundary]
    have hclear : (fun s : Chain 0 => ∀ slot ∈ slots s, slot = ⟨none⟩) = fun _ => True := by
      funext s
      simp [slots]
    rw [hbytes, hclear]
    exact BusyBoundary.lossless
  | succ n ih =>
    have hclear : (fun s : Chain (n + 1) => ∀ slot ∈ slots s, slot = ⟨none⟩) = fun s =>
        InteriorTargetward.holdover s = ⟨none⟩ ∧
          ∀ slot ∈ slots (InteriorTargetward.downstream s), slot = ⟨none⟩ := by
      funext s
      simp [slots]
    rw [funext bytes_stage, hclear]
    exact ih.interior

@[simp] theorem bytes_empty (n : ℕ) : bytes (empty n) = [] := by
  induction n with
  | zero => rfl
  | succ n ih =>
    rw [bytes_stage]
    exact congrArg (· ++ []) ih

@[simp] theorem bytes_setBusy {n : ℕ} (busy : Bool) (s : Chain n) :
    bytes (setBusy busy s) = bytes s := by
  induction n with
  | zero => rfl
  | succ n ih =>
    rw [bytes_stage, bytes_stage]
    exact congrArg (· ++ (InteriorTargetward.holdover s).bytes) (ih _)

end Chain

/-! ### The origin -/

structure DataOrigin (S : Type) where
  sink : S
  pending : List Chunk
  paused : Bool
  offered : ℕ

namespace DataOrigin

variable {S : Type} [TargetwardSink S]

def drain : S → Bool → List Chunk → Option (S × Bool × List Chunk)
  | sink, paused, [] => some (sink, paused, [])
  | sink, _, front :: rest => do
    match ← deliverTargetward sink front with
    | (.accepted, sink) => drain sink false rest
    | (.busy, sink) => some (sink, true, front :: rest)

def pump (o : DataOrigin S) : Option (DataOrigin S) := do
  let sink ← flush o.sink
  let (sink, paused, pending) ← drain sink o.paused o.pending
  some { o with sink, paused, pending }

def offer (o : DataOrigin S) (chunk : Chunk) : Option (DataOrigin S) :=
  ({ o with offered := o.offered + chunk.length, pending := o.pending ++ [chunk] } : DataOrigin S).pump

/-- Try again. -/
def resume (o : DataOrigin S) : Option (DataOrigin S) := o.pump

variable {bytes : S → List UInt8} {idle clear : S → Prop}

theorem drain_spec (h : Lossless S bytes idle clear) (sink : S) (paused : Bool)
    (pending : List Chunk) :
    ∃ sink' paused' pending', drain sink paused pending = some (sink', paused', pending') ∧
      bytes sink' ++ pending'.flatten = bytes sink ++ pending.flatten ∧ (idle sink' ↔ idle sink) ∧
      (idle sink → clear sink → pending' = [] ∧ clear sink') := by
  induction pending generalizing sink paused with
  | nil => exact ⟨sink, paused, [], rfl, rfl, Iff.rfl, fun _ hc => ⟨rfl, hc⟩⟩
  | cons front rest ih =>
    obtain ⟨d, s', hd, hbytes, hidle, hclear⟩ := h.deliver sink front
    cases d with
    | busy =>
      refine ⟨s', true, front :: rest, by simp [drain, hd], by simp [hbytes], hidle, ?_⟩
      intro hi hc
      cases (hclear hi hc).1
    | accepted =>
      obtain ⟨sink', paused', pending', hdrain, hbytes', hidle', hclear'⟩ := ih s' false
      refine ⟨sink', paused', pending', by simp [drain, hd, hdrain], ?_, hidle'.trans hidle, ?_⟩
      · rw [hbytes', hbytes, if_pos rfl, flatten_cons, append_assoc]
      · intro hi hc
        exact hclear' (hidle.mpr hi) (hclear hi hc).2

theorem pump_spec (h : Lossless S bytes idle clear) (o : DataOrigin S) :
    ∃ o', o.pump = some o' ∧ o'.offered = o.offered ∧
      bytes o'.sink ++ o'.pending.flatten = bytes o.sink ++ o.pending.flatten ∧
      (idle o'.sink ↔ idle o.sink) ∧ (idle o.sink → o'.pending = [] ∧ clear o'.sink) := by
  obtain ⟨s₁, hflush, hbytes₁, hidle₁, hclear₁⟩ := h.flush o.sink
  obtain ⟨s₂, paused, pending, hdrain, hbytes₂, hidle₂, hclear₂⟩ :=
    drain_spec h s₁ o.paused o.pending
  refine ⟨{ o with sink := s₂, paused, pending }, by simp [pump, hflush, hdrain], rfl, ?_,
    hidle₂.trans hidle₁, fun hi => hclear₂ (hidle₁.mpr hi) (hclear₁ hi)⟩
  rw [hbytes₂, hbytes₁]

end DataOrigin

inductive PathAct where
  | offer (chunk : Chunk)
  | resume
  | setBusy (busy : Bool)
deriving DecidableEq, Repr

namespace PathAct

def chunk? : PathAct → Option Chunk
  | offer chunk => some chunk
  | _ => none

end PathAct

abbrev Path (n : ℕ) := DataOrigin (Chain n)

namespace Path

variable {n : ℕ}

def start (n : ℕ) : Path n := ⟨Chain.empty n, [], false, 0⟩

/-- One action. -/
def step (o : Path n) : PathAct → Option (Path n)
  | .offer chunk => o.offer chunk
  | .resume => o.resume
  | .setBusy busy => some { o with sink := Chain.setBusy busy o.sink }

def run (n : ℕ) (acts : List PathAct) : Option (Path n) := acts.foldlM step (start n)

def bytes (o : Path n) : List UInt8 := Chain.bytes o.sink ++ o.pending.flatten

theorem step_spec (o : Path n) (a : PathAct) :
    ∃ o', o.step a = some o' ∧ o'.bytes = o.bytes ++ a.chunk?.getD [] ∧
      o'.offered = o.offered + (a.chunk?.getD []).length := by
  cases a with
  | offer chunk =>
    obtain ⟨o', hpump, hoffered, hbytes, -⟩ := DataOrigin.pump_spec (Chain.lossless n)
      { o with offered := o.offered + chunk.length, pending := o.pending ++ [chunk] }
    refine ⟨o', hpump, ?_, hoffered⟩
    simpa [bytes, PathAct.chunk?] using hbytes
  | resume =>
    obtain ⟨o', hpump, hoffered, hbytes, -⟩ := DataOrigin.pump_spec (Chain.lossless n) o
    exact ⟨o', hpump, hbytes.trans (append_nil _).symm, hoffered⟩
  | setBusy busy => exact ⟨_, rfl, by simp [bytes, PathAct.chunk?], rfl⟩

theorem run_spec (acts : List PathAct) :
    ∃ o, run n acts = some o ∧ o.bytes = (acts.filterMap PathAct.chunk?).flatten ∧
      o.offered = (acts.filterMap PathAct.chunk?).flatten.length := by
  induction acts using List.reverseRecOn with
  | nil => exact ⟨start n, rfl, by simp [start, bytes], rfl⟩
  | append_singleton acts a ih =>
    obtain ⟨o, hrun, hbytes, hoffered⟩ := ih
    obtain ⟨o', hstep, hbytes', hoffered'⟩ := o.step_spec a
    have hflat : ((acts ++ [a]).filterMap PathAct.chunk?).flatten =
        (acts.filterMap PathAct.chunk?).flatten ++ a.chunk?.getD [] := by
      cases h : a.chunk? with
      | none | some => simp [h]
    refine ⟨o', ?_, ?_, ?_⟩
    · rw [run, foldlM_append]
      change (run n acts).bind _ = _
      rw [hrun]
      simpa using hstep
    · rw [hbytes', hbytes, hflat]
    · rw [hoffered', hoffered, hflat, length_append]

theorem chain_loses_nothing (n : ℕ) (acts : List PathAct) :
    ∃ o : Path n, run n acts = some o ∧
      (Chain.boundary o.sink).received ++
          ((Chain.slots o.sink).reverse.filterMap (·.slot)).flatten ++ o.pending.flatten =
        (acts.filterMap PathAct.chunk?).flatten ∧
      (Chain.slots o.sink).length = n ∧
      ((Chain.boundary o.sink).busy = false → ∃ o' : Path n, o.resume = some o' ∧
        o'.pending = [] ∧ ∀ slot ∈ Chain.slots o'.sink, slot.slot = none) := by
  obtain ⟨o, hrun, hbytes, -⟩ := run_spec (n := n) acts
  refine ⟨o, hrun, ?_, Chain.slots_length o.sink, fun hidle => ?_⟩
  · rw [Holdover.flatten_slots, ← hbytes]
    rfl
  · obtain ⟨o', hpump, -, -, -, hclear⟩ := DataOrigin.pump_spec (Chain.lossless n) o
    obtain ⟨hpending, hfree⟩ := hclear hidle
    exact ⟨o', hpump, hpending, fun slot hslot => congrArg Holdover.slot (hfree slot hslot)⟩

end Path
end SerialNexus
