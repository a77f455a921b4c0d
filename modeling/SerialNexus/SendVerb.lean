import SerialNexus.Daemon

/-! # The send verb

`Daemon::send` (`daemon/src/daemon.rs`) registers a transient origin on the lock of an endpoint,
takes the lock or waits for it, puts one line into the endpoint's channel and takes its origin back.
If it is dropped at one of its two awaits, `WaiterGuard` and `TransientOrigin` clean up.  A step is
what one `send` does between two awaits, or what anybody else does; the deadline is a choice of each
poll. -/

namespace SerialNexus

open Function

structure SendParams where
  endpoint : String
  line : String
  timeoutMs : ℕ
  steal : Bool
deriving DecidableEq

def SendParams.bytes (p : SendParams) : Chunk := p.line.toUTF8.data.toList ++ [10]

structure SendReply where
  endpoint : String
  sent : ℕ
deriving DecidableEq

/-- Where a `send` is. -/
inductive SendPhase where
  | waiting (notified : Bool)
  | delivering
  | done (reply : Except RpcError SendReply)
  | dropped

def SendPhase.over : SendPhase → Bool
  | .waiting _ | .delivering => false
  | .done _ | .dropped => true

structure SendVerb where
  params : SendParams
  id : Option OriginId
  phase : SendPhase

def SendVerb.notify (v : SendVerb) : SendVerb :=
  match v.phase with
  | .waiting _ => { v with phase := .waiting true }
  | _ => v

structure SendWorld where
  cell : LockCell
  listed : Bool
  path : Bool
  queue : Channel Chunk
  nextSendOrigin : ℕ
  verbs : ℕ → Option SendVerb
  entered : List (Option ℕ × Chunk)
  left : List Chunk
  wakes : ℕ
  attached : List OriginId

namespace SendWorld

variable (debug : String → String) (s : SendWorld)

/-! ### Errors -/

def tornDown (endpoint : String) : RpcError :=
  { code := .locked, message := "endpoint " ++ debug endpoint ++ " was torn down while sending" }

def timedOut (endpoint : String) : RpcError :=
  { code := .locked, message := "endpoint " ++ debug endpoint ++ " is locked; send timed out" }

def notAccepted (p : SendParams) : RpcError :=
  { code := .locked
    message := "endpoint " ++ debug p.endpoint ++ " did not accept the write within " ++
      toString p.timeoutMs ++ "ms (targetward backpressure); nothing was sent" }

def notLocked (endpoint : String) : RpcError :=
  .invalidParams (debug endpoint ++ " is not a host-facing endpoint with a write lock")

def noPath : RpcError := { code := .internalError, message := "endpoint has no targetward path" }

def notWritable (endpoint : String) : RpcError :=
  .invalidParams ("endpoint " ++ debug endpoint ++ " cannot accept targetward writes (its interior " ++
    "node has no writable path to the device)")

def neverWrites : RpcError :=
  { code := .internalError, message := "send origin registered write=never" }

def lock : EndpointLock := s.cell.lock

def withLock (l : EndpointLock) : SendWorld := { s with cell := { s.cell with lock := l } }

def setVerb (k : ℕ) (v : SendVerb) : SendWorld := { s with verbs := update s.verbs k (some v) }

@[simp] theorem setVerb_self (k : ℕ) (v : SendVerb) : (s.setVerb k v).verbs k = some v :=
  update_self _ _ _

theorem setVerb_of_ne {j k : ℕ} (hj : j ≠ k) (v : SendVerb) : (s.setVerb k v).verbs j = s.verbs j :=
  update_of_ne hj _ _

def wake : SendWorld :=
  { s with wakes := s.wakes + 1, verbs := fun k => (s.verbs k).map SendVerb.notify }

def wakeIfFree : SendWorld := if s.lock.holder = none then s.wake else s

def dropWaiter (id : OriginId) : SendWorld := (s.withLock (s.lock.dequeue id)).wakeIfFree

def dropTransient (id : OriginId) : SendWorld := (s.withLock (s.lock.unregister id).2).wakeIfFree

def cleanUp (id : OriginId) : SendWorld := (s.withLock (s.lock.unregister id).2).wake

/-! ### One send -/

def deliver (k : ℕ) (v : SendVerb) (id : OriginId) (room expired : Bool) : SendWorld :=
  match s.queue.trySend v.params.bytes, room with
  | (.ok, queue), true =>
    (({ s with queue, entered := s.entered ++ [(some k, v.params.bytes)] }).cleanUp id).setVerb k
      { v with phase := .done (.ok ⟨v.params.endpoint, v.params.bytes.length⟩) }
  | (.closed, _), _ =>
    (s.cleanUp id).setVerb k { v with phase := .done (.error (tornDown debug v.params.endpoint)) }
  | _, _ =>
    if expired then
      (s.dropTransient id).setVerb k { v with phase := .done (.error (notAccepted debug v.params)) }
    else s.setVerb k { v with phase := .delivering }

def turn (k : ℕ) (v : SendVerb) (id : OriginId) (room expired : Bool) : SendWorld :=
  if s.cell.closed then
    ((s.dropWaiter id).dropTransient id).setVerb k
      { v with phase := .done (.error (tornDown debug v.params.endpoint)) }
  else
    match s.lock.acquire id with
    | (.granted, l) | (.alreadyHeld, l) => (s.withLock l).deliver debug k v id room expired
    | (.readOnly, l) =>
      ((s.withLock l).dropTransient id).setVerb k { v with phase := .done (.error neverWrites) }
    | (.unregistered, l) =>
      ((s.withLock l).dropTransient id).setVerb k
        { v with phase := .done (.error (tornDown debug v.params.endpoint)) }
    | (.denied _, l) => (s.withLock (l.enqueue id)).setVerb k { v with phase := .waiting false }

def expire (k : ℕ) (v : SendVerb) (id : OriginId) : SendWorld :=
  ((s.dropWaiter id).dropTransient id).setVerb k
    { v with phase := .done (.error (timedOut debug v.params.endpoint)) }

def start (k : ℕ) (p : SendParams) (late room expired : Bool) : SendWorld :=
  if s.listed = false then s.setVerb k ⟨p, none, .done (.error (notLocked debug p.endpoint))⟩
  else if s.path = false then s.setVerb k ⟨p, none, .done (.error noPath)⟩
  else if s.queue.isOpen = false then
    s.setVerb k ⟨p, none, .done (.error (notWritable debug p.endpoint))⟩
  else
    let id := s.nextSendOrigin
    let s' := ({ s with nextSendOrigin := wrappingAdd id 1 }).withLock
      (s.lock.register id "send" .onDemand)
    let v : SendVerb := ⟨p, some id, .waiting false⟩
    if p.steal then ((s'.withLock (s'.lock.steal id).2).wake).deliver debug k v id room expired
    else if late then s'.expire debug k v id
    else s'.turn debug k v id room expired

def poll (k : ℕ) (late room expired : Bool) : SendWorld :=
  match s.verbs k with
  | some v =>
    match v.id, v.phase with
    | some id, .waiting notified =>
      if late then s.expire debug k v id
      else if notified then s.turn debug k v id room expired
      else s
    | some id, .delivering => s.deliver debug k v id room expired
    | _, _ => s
  | none => s

def cancel (k : ℕ) : SendWorld :=
  match s.verbs k with
  | some v =>
    match v.id, v.phase with
    | some id, .waiting _ =>
      ((s.dropWaiter id).dropTransient id).setVerb k { v with phase := .dropped }
    | some id, .delivering => (s.dropTransient id).setVerb k { v with phase := .dropped }
    | _, _ => s
  | none => s

def use (op : EndpointLock.Op) (wakes : Bool) : SendWorld :=
  let s' := { s.withLock (s.lock.apply op) with
    attached := match op with | .register id _ _ => s.attached ++ [id] | _ => s.attached }
  if wakes then s'.wake else s'

def put (chunk : Chunk) : SendWorld :=
  match s.queue.trySend chunk with
  | (.ok, queue) => { s with queue, entered := s.entered ++ [(none, chunk)] }
  | _ => s

end SendWorld

/-- Who moves. -/
inductive SendVerbAct where
  | start (k : ℕ) (p : SendParams) (late room expired : Bool)
  | poll (k : ℕ) (late room expired : Bool)
  | cancel (k : ℕ)
  | use (op : EndpointLock.Op) (wakes : Bool)
  | put (chunk : Chunk)
  | receive
  | hangUp
  | close
  | list (listed path : Bool)
  | elsewhere

def SendVerbAct.sends : SendVerbAct → Bool
  | .start _ _ _ _ _ | .elsewhere => true
  | _ => false

namespace SendWorld

variable (debug : String → String)

def step (s : SendWorld) : SendVerbAct → SendWorld
  | .start k p late room expired => s.start debug k p late room expired
  | .poll k late room expired => s.poll debug k late room expired
  | .cancel k => s.cancel k
  | .use op wakes => s.use op wakes
  | .put chunk => s.put chunk
  | .receive => { s with queue := s.queue.recv.2, left := s.left ++ s.queue.recv.1.toList }
  | .hangUp => { s with queue := s.queue.hangUp, left := s.left ++ s.queue.queue }
  | .close => ({ s with cell := { s.cell with closed := true } }).wake
  | .list listed path => { s with listed, path }
  | .elsewhere => { s with nextSendOrigin := wrappingAdd s.nextSendOrigin 1 }

def machine : Runs.Machine SendWorld SendVerbAct where
  step := step debug
  ok s a := ∀ k p late room expired, a = .start k p late room expired → s.verbs k = none

def initial (arbitration : Arbitration) (cap : ℕ) : SendWorld where
  cell := ⟨.new arbitration, false⟩
  listed := true
  path := true
  queue := .new cap
  nextSendOrigin := sendOriginBase
  verbs _ := none
  entered := []
  left := []
  wakes := 0
  attached := []

end SendWorld
end SerialNexus
