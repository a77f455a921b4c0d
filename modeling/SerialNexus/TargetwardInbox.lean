import SerialNexus.Runs
import SerialNexus.Channel
import SerialNexus.Graph

/-! # The targetward byte ledger

`TargetwardInbox` (`daemon/src/runtime.rs`) is the receiving end of one targetward queue, shared
between the pump that serves it, the purge that runs after a reconnect, and the teardown that takes
the queue away.  A step of `Ledger` is what one of them does between two awaits. -/

namespace SerialNexus

class TeardownBytes (ι : Type*) where
  teardownBytes : ι → ℕ

export TeardownBytes (teardownBytes)

instance : TeardownBytes Chunk := ⟨List.length⟩

inductive Poll (α : Type*) where
  | ready (value : α)
  | pending
deriving DecidableEq, Repr

structure TargetwardInbox (ι : Type*) where
  slot : Option (Channel ι)
  held : ℕ

def purgeRounds : ℕ := 3

namespace TargetwardInbox

variable {ι : Type*} [TeardownBytes ι]

def new (rx : Channel ι) : TargetwardInbox ι := ⟨some rx, 0⟩

def weight (items : List ι) : ℕ := (items.map teardownBytes).sum

variable (b : TargetwardInbox ι)

def queuedBytes : ℕ := (b.slot.map fun rx => weight rx.queue).getD 0

def accept (item : ι) : Bool × TargetwardInbox ι :=
  match b.slot with
  | none => (false, b)
  | some rx =>
    match rx.trySend item with
    | (.ok, rx) => (true, { b with slot := some rx })
    | _ => (false, b)

def settleHeld : TargetwardInbox ι := { b with held := 0 }

def pollRecv (senders : Bool) : Poll (Option ι) × TargetwardInbox ι :=
  match b.slot with
  | none => (.ready none, b)
  | some rx =>
    match rx.recv with
    | (some item, rx) => (.ready (some item), ⟨some rx, teardownBytes item⟩)
    | (none, _) => (if senders then .pending else .ready none, b)

def purgeRound : ℕ × Bool × TargetwardInbox ι :=
  match b.slot with
  | none => (0, false, b)
  | some rx =>
    let (items, rx) := rx.drain
    (weight items, !items.isEmpty, { b with slot := some rx })

def drainAndCount : ℕ × TargetwardInbox ι :=
  match b.slot with
  | none => (b.held, ⟨none, 0⟩)
  | some rx => (weight rx.drain.1 + b.held, ⟨none, 0⟩)

omit [TeardownBytes ι] in
theorem accept_cases (item : ι) :
    (∃ rx rx', b.slot = some rx ∧ rx'.queue = rx.queue ++ [item] ∧
        b.accept item = (true, { b with slot := some rx' })) ∨ b.accept item = (false, b) := by
  unfold accept
  cases hs : b.slot with
  | none => exact .inr rfl
  | some rx =>
    rcases rx.trySend_cases item with ⟨-, -, hok, hq⟩ | ⟨-, -, he⟩ | ⟨-, he⟩
    · cases hr : rx.trySend item with
      | mk answer rx' =>
        rw [hr] at hok hq
        obtain rfl : answer = .ok := hok
        exact .inl ⟨rx, rx', rfl, hq, by simp [hr]⟩
    · exact .inr (by simp [he])
    · exact .inr (by simp [he])

theorem accept_spec (item : ι) :
    (b.accept item).1 = true ∧ (b.accept item).2.slot.isSome ∧ (b.accept item).2.held = b.held ∧
        (b.accept item).2.queuedBytes = b.queuedBytes + teardownBytes item ∨
      (b.accept item).1 = false ∧ (b.accept item).2 = b := by
  rcases b.accept_cases item with ⟨rx, rx', hs, hq, he⟩ | he
  · refine .inl ?_
    rw [he]
    simp [queuedBytes, hs, hq, weight]
  · exact .inr ⟨by rw [he], by rw [he]⟩

theorem drainAndCount_fst : b.drainAndCount.1 = b.queuedBytes + b.held := by
  unfold drainAndCount queuedBytes
  split
  · next h => simp [h]
  · next rx h => simp [h, rx.drain_spec.1]

theorem drainAndCount_snd : b.drainAndCount.2 = ⟨none, 0⟩ := by
  unfold drainAndCount
  split <;> rfl

theorem purgeRound_spec :
    b.purgeRound.1 + b.purgeRound.2.2.queuedBytes = b.queuedBytes ∧
      b.purgeRound.2.2.held = b.held ∧ b.purgeRound.2.2.slot.isSome = b.slot.isSome := by
  unfold purgeRound queuedBytes
  split
  · next h => simp [h]
  · next rx h => simp [h, rx.drain_spec.1, rx.drain_spec.2, weight]

theorem pollRecv_item (senders : Bool) {item : ι} (h : (b.pollRecv senders).1 = .ready (some item)) :
    b.slot.isSome ∧ (b.pollRecv senders).2.slot.isSome ∧
      teardownBytes item + (b.pollRecv senders).2.queuedBytes = b.queuedBytes ∧
      (b.pollRecv senders).2.held = teardownBytes item := by
  unfold pollRecv at h ⊢
  cases hs : b.slot with
  | none => simp [hs] at h
  | some rx =>
    have hq := rx.recv_queue
    cases hr : rx.recv with
    | mk item? rx' =>
      cases item? with
      | none => cases senders <;> simp [hs, hr] at h
      | some item' =>
        simp only [hs, hr, Poll.ready.injEq, Option.some.injEq] at h
        subst h
        rw [hr] at hq
        simp [queuedBytes, hs, hr, ← hq, weight]

theorem pollRecv_nothing (senders : Bool) (h : ∀ item, (b.pollRecv senders).1 ≠ .ready (some item)) :
    (b.pollRecv senders).2 = b := by
  unfold pollRecv at h ⊢
  cases hs : b.slot with
  | none => simp
  | some rx =>
    cases hr : rx.recv with
    | mk item? rx' =>
      cases item? with
      | none => simp [hr]
      | some item => exact absurd (by simp [hs, hr]) (h item)

end TargetwardInbox

inductive Pump where
  | waiting
  | busy (len rem : ℕ)
  | finished
deriving DecidableEq, Repr

def Pump.inHand : Pump → ℕ
  | .busy len _ => len
  | _ => 0

def Pump.rem : Pump → ℕ
  | .busy _ rem => rem
  | _ => 0

/-- Counters are tallies, which `u64` cells show modulo `2 ^ 64`. -/
structure Ledger (ι : Type*) where
  inbox : TargetwardInbox ι
  senders : Bool
  pump : Pump
  purges : List ℕ
  delivered : ℕ
  lost : ℕ
  purged : ℕ
  discardedAtTeardown : ℕ
  accepted : ℕ
  last : ℕ

inductive LedgerAct (ι : Type*) where
  | push (item : ι)
  | sendersGone
  | recv
  | deliver (n : ℕ)
  | lose (n : ℕ)
  | purge
  | resumePurge (i : ℕ)
  | drain
  | abortPump
  | abortPurge (i : ℕ)

namespace Ledger

variable {ι : Type*} [TeardownBytes ι]

def start (cap : ℕ) : Ledger ι where
  inbox := .new (.new cap)
  senders := true
  pump := .waiting
  purges := []
  delivered := 0
  lost := 0
  purged := 0
  discardedAtTeardown := 0
  accepted := 0
  last := 0

variable (s : Ledger ι)

def counted : ℕ := s.delivered + s.lost + s.purged + s.discardedAtTeardown

def pushItem (item : ι) : Ledger ι :=
  match s.inbox.slot with
  | none => s
  | some rx =>
    match rx.trySend item with
    | (.ok, rx) =>
      { s with inbox := { s.inbox with slot := some rx }, accepted := s.accepted + teardownBytes item }
    | _ => s

def pumpRecv : Ledger ι :=
  match s.inbox.settleHeld.pollRecv s.senders with
  | (.ready (some item), inbox) =>
    { s with inbox, pump := .busy (teardownBytes item) (teardownBytes item), last := teardownBytes item }
  | (.ready none, inbox) => { s with inbox, pump := .finished }
  | (.pending, inbox) => { s with inbox, pump := .waiting }

def purgeOnce (rounds : ℕ) : Option ℕ × Ledger ι :=
  if rounds < purgeRounds then
    let round := s.inbox.purgeRound
    (if round.2.1 then some (rounds + 1) else none,
      { s with
        inbox := round.2.2
        purged := if round.1 > 0 then s.purged + round.1 else s.purged })
  else (none, s)

def startPurge : Ledger ι :=
  let (suspended, s) := s.purgeOnce 0
  { s with purges := s.purges ++ suspended.toList }

def resumePurge (i : ℕ) : Ledger ι :=
  match s.purges[i]? with
  | none => s
  | some rounds =>
    let (suspended, s) := s.purgeOnce rounds
    { s with purges := s.purges.eraseIdx i ++ suspended.toList }

def teardownDrain : Ledger ι :=
  let lost := s.inbox.drainAndCount.1
  { s with
    inbox := s.inbox.drainAndCount.2
    discardedAtTeardown :=
      if lost > 0 then s.discardedAtTeardown + lost else s.discardedAtTeardown }

def step : LedgerAct ι → Ledger ι
  | .push item => s.pushItem item
  | .sendersGone => { s with senders := false }
  | .recv => s.pumpRecv
  | .deliver n => { s with delivered := s.delivered + n, pump := .busy s.pump.inHand (s.pump.rem - n) }
  | .lose n => { s with lost := s.lost + n, pump := .busy s.pump.inHand (s.pump.rem - n) }
  | .purge => s.startPurge
  | .resumePurge i => s.resumePurge i
  | .drain => s.teardownDrain
  | .abortPump => { s with pump := .finished }
  | .abortPurge i => { s with purges := s.purges.eraseIdx i }

def Allowed : LedgerAct ι → Prop
  | .recv => s.pump ≠ .finished ∧ s.pump.rem = 0
  | .deliver n | .lose n => (∃ len rem, s.pump = .busy len rem) ∧ n ≤ s.pump.rem
  | .abortPump => s.inbox.slot.isNone
  | _ => True

def machine : Runs.Machine (Ledger ι) (LedgerAct ι) where
  step := step
  ok := Allowed

structure Balanced (s : Ledger ι) : Prop where
  slot : s.inbox.slot.isSome
  rem_le : s.pump.rem ≤ s.pump.inHand
  inHand_le : s.pump.inHand ≤ s.last
  held : s.inbox.held = s.pump.inHand
  balance : s.counted + s.inbox.queuedBytes + s.pump.rem = s.accepted

structure Torn (k : ℕ) (s : Ledger ι) : Prop where
  slot : s.inbox = ⟨none, 0⟩
  charged_le : k ≤ s.last
  accepted_le : s.accepted ≤ s.counted
  counted_le : s.counted + s.pump.rem ≤ s.accepted + k

section steps
variable {s : Ledger ι}

theorem start_balanced (cap : ℕ) : (start cap : Ledger ι).Balanced where
  slot := rfl
  rem_le := le_rfl
  inHand_le := le_rfl
  held := rfl
  balance := rfl

theorem pushItem_cases (s : Ledger ι) (item : ι) :
    s.pushItem item = s ∨
      ∃ rx rx', s.inbox.slot = some rx ∧ rx'.queue = rx.queue ++ [item] ∧
        s.pushItem item = { s with
          inbox := { s.inbox with slot := some rx' }, accepted := s.accepted + teardownBytes item } := by
  unfold pushItem
  cases hs : s.inbox.slot with
  | none => exact .inl rfl
  | some rx =>
    rcases rx.trySend_cases item with ⟨_, _, hok, hq⟩ | ⟨_, _, he⟩ | ⟨_, he⟩
    · cases hr : rx.trySend item with
      | mk answer rx' =>
        rw [hr] at hok hq
        obtain rfl : answer = .ok := hok
        exact .inr ⟨rx, rx', rfl, hq, by simp [hr]⟩
    · exact .inl (by simp [he])
    · exact .inl (by simp [he])

theorem pushItem_balanced (hs : s.Balanced) (item : ι) : (s.pushItem item).Balanced := by
  rcases s.pushItem_cases item with h | ⟨rx, rx', hslot, hq, h⟩
  · rw [h]; exact hs
  · rw [h]
    refine ⟨rfl, hs.rem_le, hs.inHand_le, hs.held, ?_⟩
    have hb := hs.balance
    simp only [TargetwardInbox.queuedBytes, hslot, Option.map_some, Option.getD_some, counted] at hb
    simp only [counted, TargetwardInbox.queuedBytes, Option.map_some, Option.getD_some, hq,
      TargetwardInbox.weight, List.map_append, List.sum_append, List.map_singleton,
      List.sum_singleton] at hb ⊢
    omega

theorem pumpRecv_cases (s : Ledger ι) :
    (∃ item inbox, s.inbox.settleHeld.pollRecv s.senders = (.ready (some item), inbox) ∧
        s.pumpRecv = { s with
          inbox, pump := .busy (teardownBytes item) (teardownBytes item), last := teardownBytes item }) ∨
      ∃ pump, (pump = .waiting ∨ pump = .finished) ∧
        s.pumpRecv = { s with inbox := s.inbox.settleHeld, pump } := by
  unfold pumpRecv
  have hnothing := s.inbox.settleHeld.pollRecv_nothing s.senders
  split
  · next item inbox he => exact .inl ⟨item, inbox, he, rfl⟩
  · next inbox he =>
    rw [he] at hnothing
    exact .inr ⟨.finished, .inr rfl, by rw [← hnothing (by simp)]⟩
  · next inbox he =>
    rw [he] at hnothing
    exact .inr ⟨.waiting, .inl rfl, by rw [← hnothing (by simp)]⟩

theorem pumpRecv_balanced (hs : s.Balanced) (hrem : s.pump.rem = 0) : s.pumpRecv.Balanced := by
  have hb := hs.balance
  rcases s.pumpRecv_cases with ⟨item, inbox, he, h⟩ | ⟨pump, hp, h⟩
  · obtain ⟨_, hslot, hq, hheld⟩ := s.inbox.settleHeld.pollRecv_item s.senders
      (show _ = Poll.ready (some item) by rw [he])
    rw [he] at hslot hq hheld
    rw [h]
    refine ⟨hslot, le_rfl, le_rfl, hheld, ?_⟩
    change s.counted + inbox.queuedBytes + teardownBytes item = s.accepted
    change teardownBytes item + inbox.queuedBytes = s.inbox.queuedBytes at hq
    omega
  · have hzero : pump.rem = 0 ∧ pump.inHand = 0 := by rcases hp with rfl | rfl <;> exact ⟨rfl, rfl⟩
    rw [h]
    refine ⟨hs.slot, by rw [hzero.1, hzero.2], ?_, hzero.2.symm, ?_⟩
    · change pump.inHand ≤ s.last
      omega
    · change s.counted + s.inbox.queuedBytes + pump.rem = s.accepted
      omega

theorem purgeOnce_balanced (hs : s.Balanced) (rounds : ℕ) : (s.purgeOnce rounds).2.Balanced := by
  obtain ⟨hq, hheld, hslot⟩ := s.inbox.purgeRound_spec
  have hb := hs.balance
  unfold purgeOnce
  split_ifs
  · refine ⟨hslot.trans hs.slot, hs.rem_le, hs.inHand_le, hheld.trans hs.held, ?_⟩
    unfold counted at hb ⊢
    dsimp only
    split_ifs <;> omega
  · exact hs

theorem Balanced.of_purges (hs : s.Balanced) (purges : List ℕ) : Balanced { s with purges } :=
  ⟨hs.slot, hs.rem_le, hs.inHand_le, hs.held, hs.balance⟩

theorem Balanced.drain (hs : s.Balanced) : Torn s.pump.inHand s.teardownDrain := by
  have hfst := s.inbox.drainAndCount_fst
  have hb := hs.balance
  have hle := hs.rem_le
  rw [hs.held] at hfst
  refine ⟨s.inbox.drainAndCount_snd, hs.inHand_le, ?_, ?_⟩
  · change s.accepted ≤ counted s.teardownDrain
    unfold counted teardownDrain at *
    dsimp only
    split_ifs <;> omega
  · change counted s.teardownDrain + s.pump.rem ≤ s.accepted + s.pump.inHand
    unfold counted teardownDrain at *
    dsimp only
    split_ifs <;> omega

theorem dispose_balanced (hs : s.Balanced) {n : ℕ} (hn : n ≤ s.pump.rem) {s' : Ledger ι}
    (hinbox : s'.inbox = s.inbox) (hpump : s'.pump = .busy s.pump.inHand (s.pump.rem - n))
    (hlast : s'.last = s.last) (hacc : s'.accepted = s.accepted) (hc : s'.counted = s.counted + n) :
    s'.Balanced := by
  have hb := hs.balance
  have hle := hs.rem_le
  refine ⟨hinbox ▸ hs.slot, ?_, ?_, ?_, ?_⟩
  · rw [hpump]
    change s.pump.rem - n ≤ s.pump.inHand
    omega
  · rw [hpump, hlast]
    exact hs.inHand_le
  · rw [hinbox, hpump]
    exact hs.held
  · rw [hinbox, hpump, hacc, hc]
    change s.counted + n + s.inbox.queuedBytes + (s.pump.rem - n) = s.accepted
    omega

theorem step_balanced (hs : s.Balanced) {a : LedgerAct ι} (ha : s.Allowed a) :
    (s.step a).Balanced ∨ ∃ k, Torn k (s.step a) := by
  cases a with
  | push item => exact .inl (pushItem_balanced hs item)
  | sendersGone => exact .inl ⟨hs.slot, hs.rem_le, hs.inHand_le, hs.held, hs.balance⟩
  | recv => exact .inl (pumpRecv_balanced hs ha.2)
  | deliver | lose =>
    refine .inl (dispose_balanced hs ha.2 rfl rfl rfl rfl ?_)
    simp only [step, counted]
    omega
  | purge => exact .inl ((purgeOnce_balanced hs 0).of_purges _)
  | resumePurge i =>
    left
    change (s.resumePurge i).Balanced
    unfold resumePurge
    split
    · exact hs
    · exact (purgeOnce_balanced hs _).of_purges _
  | drain => exact .inr ⟨_, hs.drain⟩
  | abortPump =>
    have hslot := hs.slot
    have hnone : s.inbox.slot.isNone := ha
    rw [Option.isNone_iff_eq_none] at hnone
    rw [hnone] at hslot
    cases hslot
  | abortPurge i => exact .inl (hs.of_purges _)

variable {k : ℕ}

theorem Torn.purgeOnce (hs : Torn k s) (rounds : ℕ) : (s.purgeOnce rounds).2 = s := by
  unfold Ledger.purgeOnce TargetwardInbox.purgeRound
  rw [hs.slot]
  split_ifs
  · simp [← hs.slot]
  · rfl

theorem Torn.pumpRecv (hs : Torn k s) : s.pumpRecv = { s with pump := .finished } := by
  unfold Ledger.pumpRecv TargetwardInbox.pollRecv TargetwardInbox.settleHeld
  simp [hs.slot]

theorem Torn.drain_eq (hs : Torn k s) : s.teardownDrain = s := by
  obtain ⟨inbox, senders, pump, purges, delivered, lost, purged, discarded, accepted, last⟩ := s
  obtain rfl : inbox = ⟨none, 0⟩ := hs.slot
  rfl

omit [TeardownBytes ι] in
theorem dispose_torn (hs : Torn k s) {n : ℕ} (hn : n ≤ s.pump.rem) {s' : Ledger ι}
    (hinbox : s'.inbox = s.inbox) (hpump : s'.pump = .busy s.pump.inHand (s.pump.rem - n))
    (hlast : s'.last = s.last) (hacc : s'.accepted = s.accepted) (hc : s'.counted = s.counted + n) :
    Torn k s' := by
  have h1 := hs.accepted_le
  have h2 := hs.counted_le
  refine ⟨hinbox.trans hs.slot, hlast ▸ hs.charged_le, by omega, ?_⟩
  rw [hpump, hacc, hc]
  change s.counted + n + (s.pump.rem - n) ≤ s.accepted + k
  omega

omit [TeardownBytes ι] in
theorem Torn.finish (hs : Torn k s) : Torn k { s with pump := .finished } := by
  have h := hs.counted_le
  refine ⟨hs.slot, hs.charged_le, hs.accepted_le, ?_⟩
  change s.counted + 0 ≤ s.accepted + k
  omega

omit [TeardownBytes ι] in
theorem Torn.of_purges (hs : Torn k s) (purges : List ℕ) : Torn k { s with purges } :=
  ⟨hs.slot, hs.charged_le, hs.accepted_le, hs.counted_le⟩

theorem step_torn (hs : Torn k s) {a : LedgerAct ι} (ha : s.Allowed a) : Torn k (s.step a) := by
  cases a with
  | push item =>
    change Torn k (s.pushItem item)
    unfold pushItem
    rw [hs.slot]
    exact hs
  | sendersGone => exact ⟨hs.slot, hs.charged_le, hs.accepted_le, hs.counted_le⟩
  | recv =>
    change Torn k s.pumpRecv
    rw [hs.pumpRecv]
    exact hs.finish
  | deliver | lose =>
    refine dispose_torn hs ha.2 rfl rfl rfl rfl ?_
    simp only [step, counted]
    omega
  | purge =>
    change Torn k { (s.purgeOnce 0).2 with purges := _ }
    rw [hs.purgeOnce]
    exact hs.of_purges _
  | resumePurge i =>
    change Torn k (s.resumePurge i)
    unfold resumePurge
    split
    · exact hs
    · next rounds _ =>
      change Torn k { (s.purgeOnce rounds).2 with purges := _ }
      rw [hs.purgeOnce]
      exact hs.of_purges _
  | drain =>
    change Torn k s.teardownDrain
    rw [hs.drain_eq]
    exact hs
  | abortPump => exact hs.finish
  | abortPurge i => exact hs.of_purges _

end steps

theorem Reachable.balanced_or_torn {cap : ℕ} {s : Ledger ι} (h : machine.Reachable (start cap) s) :
    s.Balanced ∨ ∃ k, Torn k s := by
  refine h.invariant (I := fun s => s.Balanced ∨ ∃ k, Torn k s) (.inl (start_balanced cap)) ?_
  rintro s a (hs | ⟨k, hs⟩) ha
  · exact step_balanced hs ha
  · exact .inr ⟨k, step_torn hs ha⟩

theorem targetward_ledger (cap : ℕ) (s s' : Ledger ι) (h : machine.Reachable (start cap) s)
    (hslot : s.inbox.slot.isSome) (h' : machine.Reachable (s.step .drain) s') :
    s.counted + s.inbox.queuedBytes + s.pump.rem = s.accepted ∧
    s'.accepted ≤ s'.counted ∧ s'.counted ≤ s'.accepted + s'.last ∧
    (s.pump.inHand = 0 → s'.counted = s'.accepted) ∧
    s'.step .drain = s' := by
  have hs : s.Balanced := by
    rcases Reachable.balanced_or_torn h with hs | ⟨k, hs⟩
    · exact hs
    · rw [hs.slot] at hslot
      cases hslot
  have ht : Torn s.pump.inHand s' :=
    h'.invariant (I := Torn s.pump.inHand) hs.drain fun _ _ hs ha => step_torn hs ha
  have h1 := ht.accepted_le
  have h2 := ht.counted_le
  have h3 := ht.charged_le
  exact ⟨hs.balance, h1, by omega, fun hz => by omega, ht.drain_eq⟩

def midPurgeRun : List (LedgerAct Chunk) := [.push [1, 2, 3], .recv, .push [4, 5], .purge]

def midPurge : Ledger Chunk := machine.run (start 4) midPurgeRun

theorem midPurge_reachable : machine.Reachable (start 4) midPurge :=
  ⟨midPurgeRun, .cons trivial (.cons ⟨by decide, rfl⟩ (.cons trivial (.cons trivial trivial))), rfl⟩

def midPurgeEndRun : List (LedgerAct Chunk) := [.deliver 2, .abortPump, .abortPurge 0]

def midPurgeEnd : Ledger Chunk := machine.run (midPurge.step .drain) midPurgeEndRun

theorem targetward_ledger_midPurge :
    midPurge.purges = [1] ∧ midPurgeEnd.accepted = 5 ∧
      midPurgeEnd.counted ≤ midPurgeEnd.accepted + midPurgeEnd.last ∧ midPurgeEnd.counted = 7 := by
  have h : machine.Reachable (midPurge.step .drain) midPurgeEnd :=
    ⟨midPurgeEndRun, .cons ⟨⟨3, 3, rfl⟩, by decide⟩ (.cons rfl (.cons trivial trivial)), rfl⟩
  exact ⟨by decide, by decide,
    (targetward_ledger 4 midPurge midPurgeEnd midPurge_reachable rfl h).2.2.1, by decide⟩

end Ledger
end SerialNexus
