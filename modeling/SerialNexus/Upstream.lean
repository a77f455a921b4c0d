import SerialNexus.ExecNode
import SerialNexus.LegPoll
import SerialNexus.Wiring

/-! # The upstream side of an interior node

How the pumps of codecs and maps write to their upstream (`daemon/src/runtime.rs`): `await_origin`
reads the edge slot, and `forward_targetward` waits for the lock, makes the payload, and sends it
into the queue of the host endpoint.

A send that waits may be passed over although the queue has room, because the room is kept for an
earlier one: `room` says whether it is not.  A poll of a wait tries again, woken or not. -/

namespace SerialNexus

open Function

def TargetEdge.origin (e : TargetEdge) : Option WritableOrigin :=
  match e.writer, e.registered with
  | some tx, some (lock, id) => some ⟨tx, lock, id⟩
  | _, _ => none

def TargetEdge.awaitOrigin (e : TargetEdge) : Option (Option WritableOrigin) :=
  if e.origin.isSome || e.attached then some e.origin else none

def reacquireHeld (cell : LockCell) (id : OriginId) (entering : Bool) : Reacquire × LockCell :=
  if entering && cell.lock.mayWrite id then (.granted, cell)
  else if cell.closed then (.refused, cell)
  else if cell.lock.writeMode id = none then (.refused, cell)
  else if cell.lock.mayWrite id then (.granted, cell)
  else
    match cell.lock.reclaimHeld id with
    | (true, lock) => (.granted, { cell with lock })
    | (false, lock) => (.pending, { cell with lock })

inductive Forward where
  | entering
  | locking
  | sending (chunk : Chunk)
deriving DecidableEq, Repr

def Forward.isSending : Forward → Bool
  | .sending _ => true
  | .entering | .locking => false

inductive Progress where
  | pending (phase : Forward)
  | delivered
  | lost
deriving DecidableEq, Repr

structure Forwarded where
  made : Bool
  progress : Progress
deriving DecidableEq, Repr

structure Upstream where
  edge : TargetEdge
  locks : LockRef → LockCell
  queues : ℕ → Channel Chunk
  sent : List (ℕ × Chunk)

inductive UpstreamAct where
  | setEdge (edge : TargetEdge)
  | lockOp (lock : LockRef) (op : EndpointLock.Op)
  | closeLock (lock : LockRef)
  | put (k : ℕ) (chunk : Chunk)
  | receive (k : ℕ)
  | hangUp (k : ℕ)

namespace Upstream

variable (u : Upstream)

def send (tx : ℕ) (chunk : Chunk) (room : Bool) : Progress × Upstream :=
  match (u.queues tx).trySend chunk with
  | (.ok, queue) =>
    if room then
      (.delivered,
        { u with
          queues := update u.queues tx queue
          sent := u.sent ++ [(tx, chunk)] })
    else (.pending (.sending chunk), u)
  | (.full, _) => (.pending (.sending chunk), u)
  | (.closed, _) => (.lost, u)

/-- What this node counts as sent from `u` to `u'` is what entered the queues, in order. -/
def Hands (u u' : Upstream) : Prop :=
  ∃ puts, u'.sent = u.sent ++ puts ∧ Channel.Handed u.queues u'.queues puts

theorem Hands.refl : u.Hands u := ⟨[], (List.append_nil _).symm, .refl _⟩

theorem Hands.trans {u u' u'' : Upstream} (h : u.Hands u') (h' : u'.Hands u'') : u.Hands u'' := by
  obtain ⟨puts, hsent, hqueues⟩ := h
  obtain ⟨more, hsent', hqueues'⟩ := h'
  exact ⟨puts ++ more, by rw [hsent', hsent, List.append_assoc], hqueues.trans hqueues'⟩

theorem send_hands (tx : ℕ) (chunk : Chunk) (room : Bool) : u.Hands (u.send tx chunk room).2 := by
  unfold send
  split
  · next queue hok =>
    split
    · exact ⟨[(tx, chunk)], rfl, .update hok⟩
    · exact .refl u
  · exact .refl u
  · exact .refl u

theorem send_cases (tx : ℕ) (chunk : Chunk) (room : Bool) :
    (∃ queue, u.send tx chunk room =
      (.delivered, { u with
        queues := update u.queues tx queue
        sent := u.sent ++ [(tx, chunk)] })) ∨
      u.send tx chunk room = (.pending (.sending chunk), u) ∨ u.send tx chunk room = (.lost, u) := by
  unfold send
  rcases (u.queues tx).trySend_cases chunk with ⟨-, -, hok, -⟩ | ⟨-, -, hfull⟩ | ⟨-, hclosed⟩
  · rw [← Prod.mk.eta (p := (u.queues tx).trySend chunk), hok]
    cases room with
    | true => exact .inl ⟨_, rfl⟩
    | false => exact .inr (.inl rfl)
  · rw [hfull]
    exact .inr (.inl rfl)
  · rw [hclosed]
    exact .inr (.inr rfl)

def reacquire (b : WritableOrigin) (entering : Bool) : Reacquire × Upstream :=
  let (answer, cell) := reacquireHeld (u.locks b.lock) b.id entering
  (answer, { u with locks := update u.locks b.lock cell })

def forwardLocking (b : WritableOrigin) (payload : Option Chunk) (entering room : Bool) :
    Forwarded × Upstream :=
  match u.reacquire b entering with
  | (.refused, u) => (⟨false, .lost⟩, u)
  | (.pending, u) => (⟨false, .pending .locking⟩, u)
  | (.granted, u) =>
    match payload with
    | none => (⟨true, .delivered⟩, u)
    | some chunk =>
      let (progress, u) := u.send b.tx chunk room
      (⟨true, progress⟩, u)

def forwardTargetward (b : WritableOrigin) (payload : Option Chunk) (phase : Forward)
    (room : Bool) : Forwarded × Upstream :=
  match phase with
  | .entering => u.forwardLocking b payload true room
  | .locking => u.forwardLocking b payload false room
  | .sending chunk =>
    let (progress, u) := u.send b.tx chunk room
    (⟨false, progress⟩, u)

def step : UpstreamAct → Upstream
  | .setEdge edge => { u with edge }
  | .lockOp lock op =>
    let cell := u.locks lock
    { u with locks := update u.locks lock { cell with lock := cell.lock.apply op } }
  | .closeLock lock =>
    { u with locks := update u.locks lock { u.locks lock with closed := true } }
  | .put k chunk => { u with queues := update u.queues k ((u.queues k).trySend chunk).2 }
  | .receive k => { u with queues := update u.queues k (u.queues k).recv.2 }
  | .hangUp k => { u with queues := update u.queues k (u.queues k).hangUp }

@[simp] theorem step_sent (a : UpstreamAct) : (u.step a).sent = u.sent := by
  cases a <;> rfl

@[simp] theorem reacquire_sent (b : WritableOrigin) (entering : Bool) :
    (u.reacquire b entering).2.sent = u.sent := rfl

@[simp] theorem reacquire_queues (b : WritableOrigin) (entering : Bool) :
    (u.reacquire b entering).2.queues = u.queues := rfl

/-! ### One poll -/

def Sends (payload : Option Chunk) (phase : Forward) (made : Bool) (chunk : Chunk) : Prop :=
  phase = .sending chunk ∧ made = false ∨
    phase.isSending = false ∧ payload = some chunk ∧ made = true

variable {payload : Option Chunk} {phase : Forward} {made : Bool} {chunk : Chunk}

theorem Sends.payload_eq (hs : Sends payload phase made chunk)
    (hphase : ∀ c, phase = .sending c → payload = some c) : payload = some chunk := by
  rcases hs with ⟨hsending, -⟩ | ⟨-, hpayload, -⟩
  · exact hphase chunk hsending
  · exact hpayload

inductive Polled (u : Upstream) (b : WritableOrigin) (payload : Option Chunk) (phase : Forward) :
    Forwarded → List (ℕ × Chunk) → Prop
  | refused : phase.isSending = false → Polled u b payload phase ⟨false, .lost⟩ []
  | parked : phase.isSending = false → Polled u b payload phase ⟨false, .pending .locking⟩ []
  | empty : phase.isSending = false → payload = none → Polled u b payload phase ⟨true, .delivered⟩ []
  | waiting {made : Bool} {chunk : Chunk} : Sends payload phase made chunk →
      (u.queues b.tx).isOpen = true →
      Polled u b payload phase ⟨made, .pending (.sending chunk)⟩ []
  | sent {made : Bool} {chunk : Chunk} : Sends payload phase made chunk →
      (u.queues b.tx).isOpen = true →
      Polled u b payload phase ⟨made, .delivered⟩ [(b.tx, chunk)]
  | closed {made : Bool} {chunk : Chunk} : Sends payload phase made chunk →
      (u.queues b.tx).isOpen = false → Polled u b payload phase ⟨made, .lost⟩ []

theorem send_polled {u u' : Upstream} {b : WritableOrigin} {made : Bool}
    (h : Sends payload phase made chunk) (hqueues : u'.queues = u.queues) (hsent : u'.sent = u.sent)
    (room : Bool) :
    ∃ puts, Polled u b payload phase ⟨made, (u'.send b.tx chunk room).1⟩ puts ∧
      (u'.send b.tx chunk room).2.sent = u.sent ++ puts := by
  unfold send
  rw [hqueues]
  rcases (u.queues b.tx).trySend_cases chunk with
    ⟨hopen, -, hok, -⟩ | ⟨hopen, -, hfull⟩ | ⟨hclosed, hfail⟩
  · rw [← Prod.mk.eta (p := (u.queues b.tx).trySend chunk), hok]
    cases room with
    | true => exact ⟨_, .sent h hopen, by simp [hsent]⟩
    | false => exact ⟨[], .waiting h hopen, by simp [hsent]⟩
  · rw [hfull]
    exact ⟨[], .waiting h hopen, by simp [hsent]⟩
  · rw [hfail]
    exact ⟨[], .closed h hclosed, by simp [hsent]⟩

theorem forwardLocking_polled (b : WritableOrigin) (payload : Option Chunk)
    (hphase : phase.isSending = false) (entering room : Bool) :
    ∃ puts, Polled u b payload phase (u.forwardLocking b payload entering room).1 puts ∧
      (u.forwardLocking b payload entering room).2.sent = u.sent ++ puts := by
  have hsent := u.reacquire_sent b entering
  have hqueues := u.reacquire_queues b entering
  unfold forwardLocking
  generalize u.reacquire b entering = gate at hsent hqueues ⊢
  obtain ⟨answer, u'⟩ := gate
  cases answer with
  | refused => exact ⟨[], .refused hphase, by simpa using hsent⟩
  | pending => exact ⟨[], .parked hphase, by simpa using hsent⟩
  | granted =>
    cases payload with
    | none => exact ⟨[], .empty hphase rfl, by simpa using hsent⟩
    | some chunk => exact send_polled (.inr ⟨hphase, rfl, rfl⟩) hqueues hsent room

theorem forwardLocking_hands (b : WritableOrigin) (payload : Option Chunk) (entering room : Bool) :
    u.Hands (u.forwardLocking b payload entering room).2 := by
  have hgate : u.Hands (u.reacquire b entering).2 := Hands.refl u
  unfold forwardLocking
  generalize u.reacquire b entering = gate at hgate ⊢
  obtain ⟨answer, u'⟩ := gate
  cases answer with
  | refused | pending => exact hgate
  | granted =>
    cases payload with
    | none => exact hgate
    | some chunk => exact hgate.trans (u'.send_hands b.tx chunk room)

theorem forwardTargetward_hands (b : WritableOrigin) (payload : Option Chunk) (phase : Forward)
    (room : Bool) : u.Hands (u.forwardTargetward b payload phase room).2 := by
  cases phase with
  | entering => exact u.forwardLocking_hands b payload true room
  | locking => exact u.forwardLocking_hands b payload false room
  | sending chunk => exact u.send_hands b.tx chunk room

theorem forwardTargetward_polled (b : WritableOrigin) (payload : Option Chunk) (phase : Forward)
    (room : Bool) :
    ∃ puts, Polled u b payload phase (u.forwardTargetward b payload phase room).1 puts ∧
      (u.forwardTargetward b payload phase room).2.sent = u.sent ++ puts := by
  cases phase with
  | entering => exact u.forwardLocking_polled b payload rfl true room
  | locking => exact u.forwardLocking_polled b payload rfl false room
  | sending chunk => exact send_polled (.inl ⟨rfl, rfl⟩) rfl rfl room

end Upstream
end SerialNexus
