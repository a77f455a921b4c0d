import SerialNexus.LockInvariant
import SerialNexus.TargetwardInbox

/-! # A leg channel hands no stale chunk on, if the disconnect wins the race

`channel_targetward` (`nodes/leg.rs`) writes each chunk a peer sent on one channel into the local
graph, under the write lock of the local endpoint.  A chunk carries the number of disconnects seen
when it arrived; once that number has moved on the chunk is stale.  With `purge_on_reconnect`, the
task checks this before it asks for the lock and again when it has it, and races its wait for room
against the next disconnect.

A step is what the task does between two awaits.  A poll of a `select!` names the arm it takes. -/

namespace SerialNexus

open List Function

structure Inbound where
  epoch : ℕ
  bytes : Chunk
deriving DecidableEq, Repr

instance : TeardownBytes Inbound := ⟨fun msg => msg.bytes.length⟩

structure WritableOrigin where
  tx : ℕ
  lock : ℕ
  id : OriginId
deriving DecidableEq, Repr

inductive ChannelTask where
  | top
  | unattached
  | idle (b : WritableOrigin)
  | holding (b : WritableOrigin) (pulsed : Bool)
  | acquiring (b : WritableOrigin) (msg : Inbound)
  | racing (b : WritableOrigin) (msg : Inbound) (pulsed : Bool)
  | writing (b : WritableOrigin) (msg : Inbound)
  | finished
deriving DecidableEq, Repr

structure Stamp where
  tag : ℕ
  epoch : ℕ
deriving DecidableEq, Repr

/-- Counters are tallies, which `u64` cells show modulo `2 ^ 64`. -/
structure LegChannel where
  purgeOnReconnect : Bool
  disconnectEpoch : ℕ
  arriving : Option Inbound
  inbox : TargetwardInbox Inbound
  senders : Bool
  edge : Option WritableOrigin
  held : Option (ℕ × OriginId)
  task : ChannelTask
  locks : ℕ → LockCell
  locals : ℕ → Channel Chunk
  discardedTargetward : ℕ
  purgedOnReconnect : ℕ
  acceptedTargetward : ℕ
  handed : List Stamp
  purges : List Stamp

namespace LegChannel

variable (s : LegChannel)

/-! ### The task -/

def setLock (lock : ℕ) (cell : LockCell) : LegChannel :=
  { s with locks := update s.locks lock cell }

def release (lock : ℕ) (id : OriginId) : LegChannel :=
  s.setLock lock { s.locks lock with lock := ((s.locks lock).lock.release id).2 }

def letGo : LegChannel :=
  match s.held with
  | some (lock, id) => { s.release lock id with held := none }
  | none => s

def discard (msg : Inbound) : LegChannel :=
  { s with discardedTargetward := s.discardedTargetward + msg.bytes.length }

def purge (msg : Inbound) : LegChannel :=
  { s with
    purgedOnReconnect := s.purgedOnReconnect + msg.bytes.length
    purges := s.purges ++ [⟨msg.epoch, s.disconnectEpoch⟩] }

def startOver (b : WritableOrigin) : LegChannel :=
  { s.release b.lock b.id with held := none, task := .top }

def accept (b : WritableOrigin) (msg : Inbound) (queue : Channel Chunk) : LegChannel :=
  let s' : LegChannel :=
    { s with
      locals := update s.locals b.tx queue
      acceptedTargetward := s.acceptedTargetward + msg.bytes.length
      handed := s.handed ++ [⟨msg.epoch, s.disconnectEpoch⟩]
      task := .top }
  if s.disconnectEpoch ≠ msg.epoch then s'.startOver b else s'

def write (b : WritableOrigin) (msg : Inbound) (parked : ChannelTask) : LegChannel :=
  match (s.locals b.tx).trySend msg.bytes with
  | (.ok, queue) => s.accept b msg queue
  | (.closed, _) => (s.discard msg).startOver b
  | (.full, _) => { s with task := parked }

def startWrite (b : WritableOrigin) (msg : Inbound) : LegChannel :=
  let s' := { s with held := some (b.lock, b.id) }
  if s.purgeOnReconnect ∧ s.disconnectEpoch ≠ msg.epoch then (s'.purge msg).startOver b
  else if s.purgeOnReconnect then s'.write b msg (.racing b msg false)
  else s'.write b msg (.writing b msg)

def tryAcquire (cell : LockCell) (id : OriginId) : Option Bool × LockCell :=
  if cell.closed then (some false, cell)
  else
    match cell.lock.acquire id with
    | (.granted, lock) | (.alreadyHeld, lock) => (some true, { cell with lock })
    | (.readOnly, lock) | (.unregistered, lock) => (some false, { cell with lock })
    | (.denied _, lock) => (none, { cell with lock := lock.enqueue id })

def attempt (b : WritableOrigin) (msg : Inbound) : LegChannel :=
  let r := tryAcquire (s.locks b.lock) b.id
  let s' := s.setLock b.lock r.2
  match r.1 with
  | some true => s'.startWrite b msg
  | some false => { s'.discard msg with held := none, task := .top }
  | none => { s' with task := .acquiring b msg }

def handle (b : WritableOrigin) (msg : Inbound) : LegChannel :=
  if s.purgeOnReconnect ∧ s.disconnectEpoch ≠ msg.epoch then
    { (s.purge msg).letGo with task := .top }
  else if (s.locks b.lock).lock.mayWrite b.id then s.startWrite b msg
  else s.attempt b msg

def receive (k : LegChannel → Inbound → LegChannel) : LegChannel :=
  match s.inbox.settleHeld.pollRecv s.senders with
  | (.ready (some msg), inbox) => k { s with inbox } msg
  | (.ready none, inbox) => { ({ s with inbox }).letGo with task := .finished }
  | (.pending, inbox) => { s with inbox }

def yieldOldFloor : LegChannel :=
  match s.edge, s.held with
  | some b, some (_, id) => if b.id ≠ id then s.letGo else s
  | none, some _ => s.letGo
  | _, none => s

def readEdge : LegChannel :=
  match s.edge with
  | none => { s.yieldOldFloor with task := .unattached }
  | some b =>
    if s.yieldOldFloor.held.isSome then { s.yieldOldFloor with task := .holding b false }
    else { s.yieldOldFloor with task := .idle b }

inductive Arm where
  | message
  | idleTimer
  | disconnect
  | write
deriving DecidableEq, Repr

def poll (arm : Arm) : LegChannel :=
  match s.task with
  | .top => s.readEdge
  | .unattached => s.receive fun s msg => { s.discard msg with task := .top }
  | .idle b => s.receive fun s msg => s.handle b msg
  | .holding b pulsed =>
    match arm with
    | .message => s.receive fun s msg => s.handle b msg
    | .idleTimer => s.startOver b
    | .disconnect => if pulsed then s.startOver b else s
    | .write => s
  | .acquiring b msg => s.attempt b msg
  | .racing b msg pulsed =>
    match arm with
    | .write => s.write b msg (.racing b msg pulsed)
    | .disconnect => if pulsed then (s.purge msg).startOver b else s
    | .message | .idleTimer => s
  | .writing b msg => s.write b msg (.writing b msg)
  | .finished => s

/-! ### The others -/

def notifyWaiters : ChannelTask → ChannelTask
  | .holding b _ => .holding b true
  | .racing b msg _ => .racing b msg true
  | t => t

def clearConnectionState : LegChannel :=
  { s with
    disconnectEpoch := s.disconnectEpoch + 1
    arriving := none
    task := notifyWaiters s.task }

def arrive (bytes : Chunk) : LegChannel := { s with arriving := some ⟨s.disconnectEpoch, bytes⟩ }

def enqueue : LegChannel :=
  match s.arriving, s.inbox.slot with
  | some msg, some rx =>
    match rx.trySend msg with
    | (.ok, rx) => { s with arriving := none, inbox := { s.inbox with slot := some rx } }
    | (.closed, _) => { s.discard msg with arriving := none }
    | (.full, _) => s
  | some msg, none => { s.discard msg with arriving := none }
  | none, _ => s

end LegChannel

/-- Who moves. -/
inductive LegAct where
  | poll (arm : LegChannel.Arm)
  | arrive (bytes : Chunk)
  | enqueue
  | disconnect
  | setEdge (edge : Option WritableOrigin)
  | lockOp (lock : ℕ) (op : EndpointLock.Op)
  | closeLock (lock : ℕ)
  | localSend (tx : ℕ) (bytes : Chunk)
  | localRecv (tx : ℕ)
  | localHangUp (tx : ℕ)
  | dropSenders

namespace LegChannel

def step (s : LegChannel) : LegAct → LegChannel
  | .poll arm => s.poll arm
  | .arrive bytes => s.arrive bytes
  | .enqueue => s.enqueue
  | .disconnect => s.clearConnectionState
  | .setEdge edge => { s with edge }
  | .lockOp lock op =>
    s.setLock lock { s.locks lock with lock := (s.locks lock).lock.apply op }
  | .closeLock lock => s.setLock lock { s.locks lock with closed := true }
  | .localSend tx bytes =>
    { s with locals := update s.locals tx ((s.locals tx).trySend bytes).2 }
  | .localRecv tx => { s with locals := update s.locals tx (s.locals tx).recv.2 }
  | .localHangUp tx => { s with locals := update s.locals tx (s.locals tx).hangUp }
  | .dropSenders => { s with senders := false }

def machine : Runs.Machine LegChannel LegAct := ⟨step, fun _ _ => True⟩

def start (purgeOnReconnect : Bool) (inboxCap : ℕ) (edge : Option WritableOrigin)
    (locks : ℕ → LockCell) (locals : ℕ → Channel Chunk) : LegChannel where
  purgeOnReconnect
  disconnectEpoch := 0
  arriving := none
  inbox := .new (.new inboxCap)
  senders := true
  edge
  held := none
  task := .top
  locks
  locals
  discardedTargetward := 0
  purgedOnReconnect := 0
  acceptedTargetward := 0
  handed := []
  purges := []

def NoStale (s : LegChannel) : Prop := ∀ e ∈ s.handed, e.tag = e.epoch

def disconnectWins (s : LegChannel) (a : LegAct) : Bool :=
  match s.task, a with
  | .racing b _ true, .poll .write =>
    !((s.locals b.tx).isOpen && decide ((s.locals b.tx).queue.length < (s.locals b.tx).cap))
  | _, _ => true

structure Tracked (s : LegChannel) : Prop where
  racing : ∀ b msg pulsed, s.task = .racing b msg pulsed →
    if pulsed then msg.epoch < s.disconnectEpoch else msg.epoch = s.disconnectEpoch
  purging : s.purgeOnReconnect = true
  raced : ∀ b msg, s.task ≠ .writing b msg
  purges : ∀ e ∈ s.purges, e.tag ≠ e.epoch

variable {s s' : LegChannel}

structure Clean (s s' : LegChannel) : Prop where
  epoch : s'.disconnectEpoch = s.disconnectEpoch
  purging : s'.purgeOnReconnect = s.purgeOnReconnect
  handed : ∃ new, s'.handed = s.handed ++ new ∧ ∀ e ∈ new, e.tag = e.epoch
  purges : ∃ new, s'.purges = s.purges ++ new ∧ ∀ e ∈ new, e.tag ≠ e.epoch
  task : s'.task = s.task ∨ (∀ b msg, s'.task ≠ .writing b msg) ∧
    ∀ b msg pulsed, s'.task = .racing b msg pulsed → pulsed = false ∧ msg.epoch = s.disconnectEpoch

theorem Clean.tracked (h : s.Clean s') (hs : s.Tracked) : s'.Tracked := by
  obtain ⟨new, hnew, hstale⟩ := h.purges
  have hpurges : ∀ e ∈ s'.purges, e.tag ≠ e.epoch := by
    intro e he
    rw [hnew] at he
    exact (mem_append.mp he).elim (hs.purges e) (hstale e)
  rcases h.task with ht | ⟨hplain, hrace⟩
  · refine ⟨?_, h.purging.trans hs.purging, by rw [ht]; exact hs.raced, hpurges⟩
    rw [ht, h.epoch]
    exact hs.racing
  · refine ⟨?_, h.purging.trans hs.purging, hplain, hpurges⟩
    intro b msg pulsed hr
    obtain ⟨rfl, he⟩ := hrace b msg pulsed hr
    rw [h.epoch]
    exact he

theorem Clean.noStale (h : s.Clean s') (hs : s.NoStale) : s'.NoStale := by
  obtain ⟨new, hnew, hlive⟩ := h.handed
  intro e he
  rw [hnew] at he
  exact (mem_append.mp he).elim (hs e) (hlive e)

theorem Clean.quiet (he : s'.disconnectEpoch = s.disconnectEpoch)
    (hp : s'.purgeOnReconnect = s.purgeOnReconnect) (hh : s'.handed = s.handed)
    (hu : s'.purges = s.purges) (ht : s'.task = s.task ∨ (∀ b msg, s'.task ≠ .writing b msg) ∧
      ∀ b msg pulsed, s'.task ≠ .racing b msg pulsed) : s.Clean s' where
  epoch := he
  purging := hp
  handed := ⟨[], by rw [hh, append_nil], by simp⟩
  purges := ⟨[], by rw [hu, append_nil], by simp⟩
  task := ht.imp id fun h => ⟨h.1, fun b msg pulsed hr => absurd hr (h.2 b msg pulsed)⟩

theorem Clean.after {r : LegChannel} (h : r.Clean s') (he : r.disconnectEpoch = s.disconnectEpoch)
    (hp : r.purgeOnReconnect = s.purgeOnReconnect) (hh : r.handed = s.handed)
    (hu : r.purges = s.purges) (ht : r.task = s.task) : s.Clean s' where
  epoch := h.epoch.trans he
  purging := h.purging.trans hp
  handed := hh ▸ h.handed
  purges := hu ▸ h.purges
  task := by rw [← ht, ← he]; exact h.task

theorem startOver_clean (s : LegChannel) (b : WritableOrigin) : s.Clean (s.startOver b) :=
  .quiet rfl rfl rfl rfl (.inr ⟨by simp [startOver], by simp [startOver]⟩)

variable {msg : Inbound} {b : WritableOrigin} {arm : Arm} {a : LegAct}

theorem purge_clean (hm : s.disconnectEpoch ≠ msg.epoch)
    (he : s'.disconnectEpoch = s.disconnectEpoch) (hp : s'.purgeOnReconnect = s.purgeOnReconnect)
    (hh : s'.handed = s.handed) (hu : s'.purges = (s.purge msg).purges) (ht : s'.task = .top) :
    s.Clean s' where
  epoch := he
  purging := hp
  handed := ⟨[], by rw [hh, append_nil], by simp⟩
  purges := ⟨[⟨msg.epoch, s.disconnectEpoch⟩], hu, by simpa using hm.symm⟩
  task := .inr ⟨by simp [ht], by simp [ht]⟩

theorem accept_spec (s : LegChannel) (b : WritableOrigin) (msg : Inbound) (queue : Channel Chunk) :
    (s.accept b msg queue).disconnectEpoch = s.disconnectEpoch ∧
      (s.accept b msg queue).purgeOnReconnect = s.purgeOnReconnect ∧
      (s.accept b msg queue).handed = s.handed ++ [⟨msg.epoch, s.disconnectEpoch⟩] ∧
      (s.accept b msg queue).purges = s.purges ∧ (s.accept b msg queue).task = .top := by
  unfold accept
  dsimp only
  split_ifs
  · exact ⟨rfl, rfl, rfl, rfl, rfl⟩
  · exact ⟨rfl, rfl, rfl, rfl, rfl⟩

theorem write_clean (hm : msg.epoch = s.disconnectEpoch) :
    s.Clean (s.write b msg (.racing b msg false)) := by
  unfold write
  split
  · next queue _ =>
    obtain ⟨he, hp, hh, hu, ht⟩ := s.accept_spec b msg queue
    refine ⟨he, hp, ⟨_, hh, by simpa using hm⟩, ⟨[], by simp [hu], by simp⟩, .inr ?_⟩
    exact ⟨by simp [ht], by simp [ht]⟩
  · exact .quiet rfl rfl rfl rfl (.inr ⟨by simp [startOver], by simp [startOver]⟩)
  · refine ⟨rfl, rfl, ⟨[], by simp, by simp⟩, ⟨[], by simp, by simp⟩, .inr ⟨by simp, ?_⟩⟩
    intro b' msg' pulsed h
    obtain ⟨-, rfl, rfl⟩ : b = b' ∧ msg = msg' ∧ false = pulsed := by simpa using h
    exact ⟨rfl, hm⟩

theorem startWrite_clean (hp : s.purgeOnReconnect = true) (b : WritableOrigin) (msg : Inbound) :
    s.Clean (s.startWrite b msg) := by
  unfold startWrite
  dsimp only
  split_ifs with hstale
  · exact purge_clean hstale.2 rfl rfl rfl rfl rfl
  · have hm : msg.epoch = s.disconnectEpoch := by
      by_contra hne
      exact hstale ⟨hp, Ne.symm hne⟩
    exact Clean.after (write_clean hm) rfl rfl rfl rfl rfl

theorem attempt_clean (hp : s.purgeOnReconnect = true) (b : WritableOrigin) (msg : Inbound) :
    s.Clean (s.attempt b msg) := by
  unfold attempt
  dsimp only
  split
  · exact Clean.after (startWrite_clean (s := s.setLock b.lock _) hp b msg) rfl rfl rfl rfl rfl
  · exact .quiet rfl rfl rfl rfl (.inr ⟨by simp, by simp⟩)
  · exact .quiet rfl rfl rfl rfl (.inr ⟨by simp, by simp⟩)

theorem letGo_same (s : LegChannel) :
    s.letGo.disconnectEpoch = s.disconnectEpoch ∧
      s.letGo.purgeOnReconnect = s.purgeOnReconnect ∧ s.letGo.handed = s.handed ∧
      s.letGo.purges = s.purges ∧ s.letGo.task = s.task ∧ s.letGo.edge = s.edge := by
  unfold letGo
  split
  · exact ⟨rfl, rfl, rfl, rfl, rfl, rfl⟩
  · exact ⟨rfl, rfl, rfl, rfl, rfl, rfl⟩

theorem handle_clean (hp : s.purgeOnReconnect = true) (b : WritableOrigin) (msg : Inbound) :
    s.Clean (s.handle b msg) := by
  unfold handle
  split_ifs with hstale hmay
  · obtain ⟨h1, h2, h3, h4, -, -⟩ := (s.purge msg).letGo_same
    exact purge_clean hstale.2 h1 h2 h3 h4 rfl
  · exact startWrite_clean hp b msg
  · exact attempt_clean hp b msg

theorem receive_clean {k : LegChannel → Inbound → LegChannel}
    (hk : ∀ inbox msg, Clean { s with inbox } (k { s with inbox } msg)) : s.Clean (s.receive k) := by
  unfold receive
  split
  · next msg inbox _ => exact Clean.after (hk inbox msg) rfl rfl rfl rfl rfl
  · next inbox _ =>
    obtain ⟨h1, h2, h3, h4, -, -⟩ := LegChannel.letGo_same { s with inbox }
    exact .quiet h1 h2 h3 h4 (.inr ⟨by simp, by simp⟩)
  · exact .quiet rfl rfl rfl rfl (.inl rfl)

theorem yieldOldFloor_same (s : LegChannel) :
    s.yieldOldFloor.disconnectEpoch = s.disconnectEpoch ∧
      s.yieldOldFloor.purgeOnReconnect = s.purgeOnReconnect ∧
      s.yieldOldFloor.handed = s.handed ∧ s.yieldOldFloor.purges = s.purges := by
  obtain ⟨h1, h2, h3, h4, -⟩ := s.letGo_same
  unfold yieldOldFloor
  split
  · split_ifs
    · exact ⟨h1, h2, h3, h4⟩
    · exact ⟨rfl, rfl, rfl, rfl⟩
  · exact ⟨h1, h2, h3, h4⟩
  · exact ⟨rfl, rfl, rfl, rfl⟩

theorem readEdge_clean (s : LegChannel) : s.Clean s.readEdge := by
  obtain ⟨h1, h2, h3, h4⟩ := s.yieldOldFloor_same
  unfold readEdge
  split
  · exact .quiet h1 h2 h3 h4 (.inr ⟨by simp, by simp⟩)
  · split_ifs
    · exact .quiet h1 h2 h3 h4 (.inr ⟨by simp, by simp⟩)
    · exact .quiet h1 h2 h3 h4 (.inr ⟨by simp, by simp⟩)

theorem write_stale (ht : s.task = .racing b msg true) :
    (s.disconnectWins (.poll .write) = true ∧ s.Clean (s.write b msg (.racing b msg true))) ∨
      (s.disconnectWins (.poll .write) = false ∧
        (s.write b msg (.racing b msg true)).disconnectEpoch = s.disconnectEpoch ∧
        (s.write b msg (.racing b msg true)).purgeOnReconnect = s.purgeOnReconnect ∧
        (s.write b msg (.racing b msg true)).handed = s.handed ++ [⟨msg.epoch, s.disconnectEpoch⟩] ∧
        (s.write b msg (.racing b msg true)).purges = s.purges ∧
        (s.write b msg (.racing b msg true)).task = .top) := by
  rcases (s.locals b.tx).trySend_cases msg.bytes with ⟨ho, hr, hok, -⟩ | ⟨ho, hcap, hfull⟩ | ⟨ho, hc⟩
  · right
    refine ⟨by simp [disconnectWins, ht, ho, hr], ?_⟩
    have hw : s.write b msg (.racing b msg true) =
        s.accept b msg ((s.locals b.tx).trySend msg.bytes).2 := by
      unfold write
      split
      · next queue he => rw [he]
      · next he => rw [he] at hok; cases hok
      · next he => rw [he] at hok; cases hok
    rw [hw]
    exact s.accept_spec b msg _
  · left
    refine ⟨by simp [disconnectWins, ht, hcap], ?_⟩
    rw [write, hfull]
    exact .quiet rfl rfl rfl rfl (.inl ht.symm)
  · left
    refine ⟨by simp [disconnectWins, ht, ho], ?_⟩
    rw [write, hc]
    exact .quiet rfl rfl rfl rfl (.inr ⟨by simp [startOver], by simp [startOver]⟩)

theorem poll_clean (hs : s.Tracked) (hw : s.disconnectWins (.poll arm) = true) :
    s.Clean (s.poll arm) := by
  have hstay : s.Clean s := .quiet rfl rfl rfl rfl (.inl rfl)
  unfold poll
  split
  · exact s.readEdge_clean
  · refine receive_clean fun inbox msg => .quiet rfl rfl rfl rfl (.inr ⟨by simp, by simp⟩)
  · exact receive_clean fun inbox msg => handle_clean (s := { s with inbox }) hs.purging _ msg
  · split
    · exact receive_clean fun inbox msg => handle_clean (s := { s with inbox }) hs.purging _ msg
    · exact s.startOver_clean _
    · split_ifs
      · exact s.startOver_clean _
      · exact hstay
    · exact hstay
  · exact attempt_clean hs.purging _ _
  · next b msg pulsed ht =>
    have hrace := hs.racing b msg pulsed ht
    split
    · cases pulsed with
      | false => exact write_clean hrace
      | true =>
        rcases write_stale ht with ⟨-, hclean⟩ | ⟨hloses, -⟩
        · exact hclean
        · rw [hloses] at hw
          cases hw
    · cases pulsed with
      | false => exact hstay
      | true => exact purge_clean (ne_of_gt hrace) rfl rfl rfl rfl rfl
    · exact hstay
    · exact hstay
  · next b msg ht => exact absurd ht (hs.raced b msg)
  · exact hstay

theorem clearConnectionState_tracked (hs : s.Tracked) : s.clearConnectionState.Tracked := by
  refine ⟨?_, hs.purging, ?_, hs.purges⟩
  · intro b msg pulsed ht
    change notifyWaiters s.task = .racing b msg pulsed at ht
    cases htask : s.task with
    | racing b' msg' pulsed' =>
      have hrace := hs.racing b' msg' pulsed' htask
      rw [htask] at ht
      obtain ⟨-, rfl, rfl⟩ : b' = b ∧ msg' = msg ∧ true = pulsed := by
        simpa [notifyWaiters] using ht
      change msg'.epoch < s.disconnectEpoch + 1
      cases pulsed' with
      | false => exact (show msg'.epoch = s.disconnectEpoch from hrace) ▸ Nat.lt_succ_self _
      | true => exact Nat.lt_succ_of_lt hrace
    | _ => rw [htask] at ht; cases ht
  · intro b msg ht
    change notifyWaiters s.task = .writing b msg at ht
    cases htask : s.task with
    | writing b' msg' => exact hs.raced b' msg' htask
    | _ => rw [htask] at ht; cases ht

theorem enqueue_same (s : LegChannel) :
    s.enqueue.disconnectEpoch = s.disconnectEpoch ∧
      s.enqueue.purgeOnReconnect = s.purgeOnReconnect ∧ s.enqueue.handed = s.handed ∧
      s.enqueue.purges = s.purges ∧ s.enqueue.task = s.task := by
  unfold enqueue
  split
  · split <;> exact ⟨rfl, rfl, rfl, rfl, rfl⟩
  · exact ⟨rfl, rfl, rfl, rfl, rfl⟩
  · exact ⟨rfl, rfl, rfl, rfl, rfl⟩

theorem others_clean (hp : ∀ arm, a ≠ .poll arm) (hd : a ≠ .disconnect) : s.Clean (s.step a) := by
  cases a with
  | poll arm => exact absurd rfl (hp arm)
  | disconnect => exact absurd rfl hd
  | enqueue =>
    obtain ⟨h1, h2, h3, h4, h5⟩ := s.enqueue_same
    exact .quiet h1 h2 h3 h4 (.inl h5)
  | _ => exact .quiet rfl rfl rfl rfl (.inl rfl)

theorem disconnectWins_of_ne_poll (hp : ∀ arm, a ≠ .poll arm) : s.disconnectWins a = true := by
  unfold disconnectWins
  split
  · exact absurd rfl (hp _)
  · rfl

theorem of_disconnectWins_eq_false (h : s.disconnectWins (.poll arm) = false) :
    ∃ b msg, s.task = .racing b msg true ∧ arm = .write := by
  unfold disconnectWins at h
  split at h
  · next b msg ht ha =>
    cases ha
    exact ⟨b, msg, ht, rfl⟩
  · cases h

theorem step_tracked (hs : s.Tracked) (a : LegAct) :
    (s.step a).Tracked ∧ (s.NoStale → ((s.step a).NoStale ↔ s.disconnectWins a = true)) := by
  by_cases hpoll : ∃ arm, a = .poll arm
  · obtain ⟨arm, rfl⟩ := hpoll
    cases hw : s.disconnectWins (.poll arm) with
    | true =>
      have hclean := poll_clean hs hw
      exact ⟨hclean.tracked hs, fun h => ⟨fun _ => rfl, fun _ => hclean.noStale h⟩⟩
    | false =>
      obtain ⟨b, msg, ht, rfl⟩ := of_disconnectWins_eq_false hw
      have hlt : msg.epoch < s.disconnectEpoch := hs.racing b msg true ht
      have hstep : s.step (.poll .write) = s.write b msg (.racing b msg true) := by
        change s.poll .write = _
        unfold poll
        rw [ht]
      rcases write_stale ht with ⟨hwins, -⟩ | ⟨-, he, hp, hh, hu, htop⟩
      · rw [hwins] at hw
        cases hw
      · rw [hstep]
        refine ⟨⟨by simp [htop], hp.trans hs.purging, by simp [htop], hu ▸ hs.purges⟩, fun _ => ?_⟩
        refine ⟨fun h => ?_, fun h => by cases h⟩
        have := h ⟨msg.epoch, s.disconnectEpoch⟩ (by rw [hh]; simp)
        exact absurd this hlt.ne
  · have hp : ∀ arm, a ≠ .poll arm := fun arm h => hpoll ⟨arm, h⟩
    have hw : s.disconnectWins a = true := disconnectWins_of_ne_poll hp
    by_cases hd : a = .disconnect
    · subst hd
      exact ⟨clearConnectionState_tracked hs, fun h => ⟨fun _ => hw, fun _ => h⟩⟩
    · have hclean := others_clean (s := s) hp hd
      exact ⟨hclean.tracked hs, fun h => ⟨fun _ => hw, fun _ => hclean.noStale h⟩⟩

/-! ### Whole runs -/

theorem start_tracked (inboxCap : ℕ) (edge : Option WritableOrigin) (locks : ℕ → LockCell)
    (locals : ℕ → Channel Chunk) : (start true inboxCap edge locks locals).Tracked :=
  ⟨by simp [start], rfl, by simp [start], by simp [start]⟩

theorem legal (s : LegChannel) (as : List LegAct) : machine.Legal s as :=
  Runs.Machine.legal_of_forall (fun _ _ _ => trivial) s

theorem stale_handed_iff (inboxCap : ℕ) (edge : Option WritableOrigin) (locks : ℕ → LockCell)
    (locals : ℕ → Channel Chunk) (as : List LegAct) :
    (machine.Always NoStale (start true inboxCap edge locks locals) as ↔
      machine.Each (fun s a => s.disconnectWins a = true)
        (start true inboxCap edge locks locals) as) ∧
    ∀ s, machine.Reachable (start true inboxCap edge locks locals) s →
      ∀ e ∈ s.purges, e.tag ≠ e.epoch := by
  have hstart := start_tracked inboxCap edge locks locals
  have hinv : ∀ s a, Tracked s → machine.ok s a → Tracked (machine.step s a) :=
    fun s a hs _ => (step_tracked hs a).1
  refine ⟨?_, ?_⟩
  · refine Runs.Machine.always_iff_each (I := Tracked) hinv ?_ hstart (by simp [NoStale, start])
      (legal _ as)
    intro s a hs _ hn
    exact (step_tracked hs a).2 hn
  · intro s hreach
    exact (hreach.invariant hstart hinv).purges

def consoleLock : LockCell := ⟨(EndpointLock.new .exclusive).register 1 "leg/console" .onDemand, false⟩

def fullQueue : Channel Chunk :=
  ⟨channelCap, List.replicate channelCap [0], true, length_replicate.le, fun h => by cases h⟩

def consoleChannel : LegChannel :=
  start true channelCap (some ⟨0, 0, 1⟩) (fun _ => consoleLock) fun _ => fullQueue

def lostRace : List LegAct :=
  [.poll .message, .arrive [7], .enqueue, .poll .message, .disconnect, .localRecv 0, .poll .write]

theorem stale_chunk_handed :
    let s := machine.run consoleChannel lostRace
    s.handed = [⟨0, 1⟩] ∧ s.disconnectEpoch = 1 ∧ (s.locals 0).queue.getLast? = some [7] ∧
      ¬ s.NoStale := by
  intro s
  have hhanded : s.handed = [⟨0, 1⟩] := by decide +kernel
  refine ⟨hhanded, by decide +kernel, by decide +kernel, ?_⟩
  intro h
  exact absurd (h ⟨0, 1⟩ (by rw [hhanded]; exact mem_singleton.mpr rfl)) (by decide)

end LegChannel

end SerialNexus
