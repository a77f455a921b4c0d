import SerialNexus.Channel
import SerialNexus.LockInvariant

/-! # Contention for one endpoint

The tasks that want to write to one exclusive endpoint, its lock with the `Notify` they park on, and
its bounded targetward channel (`daemon/src/runtime.rs`, `daemon.rs`, `nodes/leg.rs`): `lock --wait`
and `send`, the pumps of codecs and maps, and the channels of a leg.

All of them park in `await_grant`: an attempt in one critical section and, if it is denied, a wait
for the next `notify_waiters`.  All run on one thread, so a step is what one of them does between
two awaits.  What follows a delivery in the same poll (`send` unregistering itself, a leg giving the
floor back) is a step of its own here, which only adds interleavings. -/

namespace SerialNexus

open Function

inductive Job where
  | lock
  | send (line : Chunk)
  | pump (payload : Option Chunk)
  | leg (chunk : Chunk)
deriving DecidableEq

namespace Job

def queues : Job → Bool
  | lock | send _ | leg _ => true
  | pump _ => false

def chunk : Job → Option Chunk
  | lock => none
  | send line => some line
  | pump payload => payload
  | leg chunk => some chunk

def acquireOrQueue (id : OriginId) (l : EndpointLock) : Option Bool × EndpointLock :=
  match l.acquire id with
  | (.granted, l') | (.alreadyHeld, l') => (some true, l')
  | (.readOnly, l') | (.unregistered, l') => (some false, l')
  | (.denied _, l') => (none, l'.enqueue id)

def attempt (job : Job) (id : OriginId) (l : EndpointLock) : Option Bool × EndpointLock :=
  match job with
  | pump _ =>
    if l.writeMode id = none then (some false, l)
    else if l.mayWrite id then (some true, l)
    else
      match l.reclaimHeld id with
      | (true, l') => (some true, l')
      | (false, l') => (none, l')
  | lock | send _ | leg _ => acquireOrQueue id l

def looksFirst : Job → Bool
  | pump _ | leg _ => true
  | lock | send _ => false

end Job

/-- Where a worker is. -/
inductive Worker where
  | idle
  | parked (job : Job) (id : OriginId) (notified : Bool)
  | sending (job : Job) (id : OriginId) (chunk : Chunk)
  | sent (id : OriginId)
deriving DecidableEq

def Worker.notify : Worker → Worker
  | parked job id _ => parked job id true
  | w => w

def Worker.origin : Worker → Option OriginId
  | idle => none
  | parked _ id _ | sending _ id _ | sent id => some id

inductive Fate where
  | enter
  | wait
  | purge
deriving DecidableEq

structure Contention where
  cell : LockCell
  queue : Channel Chunk
  workers : ℕ → Worker

namespace Contention

variable (s : Contention)

def lock : EndpointLock := s.cell.lock

def withLock (l : EndpointLock) : Contention := { s with cell := { s.cell with lock := l } }

def setWorker (i : ℕ) (w : Worker) : Contention := { s with workers := update s.workers i w }

@[simp] theorem setWorker_self (i : ℕ) (w : Worker) : (s.setWorker i w).workers i = w :=
  update_self _ _ _

theorem setWorker_of_ne {i j : ℕ} (hj : j ≠ i) (w : Worker) :
    (s.setWorker i w).workers j = s.workers j :=
  update_of_ne hj _ _

def wake : Contention := { s with workers := fun i => (s.workers i).notify }

def wakeIfFree : Contention := if s.lock.holder = none then s.wake else s

def release (id : OriginId) : Contention :=
  match s.lock.release id with
  | (true, l) => (s.withLock l).wake
  | (false, l) => s.withLock l

def detach (id : OriginId) : Contention := (s.withLock (s.lock.unregister id).2).wake

def dropWaiter (id : OriginId) : Contention := (s.withLock (s.lock.dequeue id)).wakeIfFree

def dropTransient (id : OriginId) : Contention := (s.withLock (s.lock.unregister id).2).wakeIfFree

def write (i : ℕ) (job : Job) (id : OriginId) (chunk : Chunk) (fate : Fate) : Contention :=
  match fate, job with
  | .enter, _ =>
    match s.queue.trySend chunk, job with
    | (.ok, queue), .send _ => ({ s with queue }).setWorker i (.sent id)
    | (.ok, queue), _ => ({ s with queue }).setWorker i .idle
    | (.full, _), _ => s.setWorker i (.sending job id chunk)
    | (.closed, _), .send _ => s.setWorker i (.sent id)
    | (.closed, _), .leg _ => (s.release id).setWorker i .idle
    | (.closed, _), _ => s.setWorker i .idle
  | .purge, .leg _ => (s.release id).setWorker i .idle
  | _, _ => s.setWorker i (.sending job id chunk)

def goOn (i : ℕ) (job : Job) (id : OriginId) (fate : Fate) : Contention :=
  match job.chunk with
  | some chunk => s.write i job id chunk fate
  | none => s.setWorker i .idle

def refused (job : Job) (id : OriginId) : Contention :=
  match job with
  | .send _ => s.dropTransient id
  | .lock | .pump _ | .leg _ => s

def foundClosed (job : Job) (id : OriginId) : Contention :=
  match job with
  | .lock => s.dropWaiter id
  | .send _ => (s.dropWaiter id).dropTransient id
  | .pump _ | .leg _ => s

def turn (i : ℕ) (job : Job) (id : OriginId) (fate : Fate) : Contention :=
  if s.cell.closed then (s.foundClosed job id).setWorker i .idle
  else
    match job.attempt id s.lock with
    | (some true, l) => (s.withLock l).goOn i job id fate
    | (some false, l) => ((s.withLock l).refused job id).setWorker i .idle
    | (none, l) => (s.withLock l).setWorker i (.parked job id false)

def start (i : ℕ) (job : Job) (id : OriginId) (fate : Fate) : Contention :=
  if job.looksFirst ∧ s.lock.mayWrite id then s.goOn i job id fate else s.turn i job id fate

def startSend (i : ℕ) (line : Chunk) (id : OriginId) (steal : Bool) (fate : Fate) : Contention :=
  let s' := s.withLock (s.lock.register id "send" .onDemand)
  if steal then ((s'.withLock (s'.lock.steal id).2).wake).goOn i (.send line) id fate
  else s'.turn i (.send line) id fate

def poll (i : ℕ) (fate : Fate) : Contention :=
  match s.workers i with
  | .parked job id true => s.turn i job id fate
  | .sending job id chunk => s.write i job id chunk fate
  | .sent id => (s.detach id).setWorker i .idle
  | .idle | .parked _ _ false => s

def cancel (i : ℕ) : Contention :=
  match s.workers i with
  | .parked .lock id _ => (s.dropWaiter id).setWorker i .idle
  | .parked (.send _) id _ => ((s.dropWaiter id).dropTransient id).setWorker i .idle
  | .sending (.send _) id _ | .sent id => (s.dropTransient id).setWorker i .idle
  | .parked (.pump _) _ _ | .parked (.leg _) _ _ | .sending _ _ _ | .idle => s.setWorker i .idle

def steal (id : OriginId) : Contention :=
  match s.lock.steal id with
  | (.stolen _, l) => (s.withLock l).wake
  | (.alreadyHeld, l) | (.readOnly, l) => s.withLock l

def close : Contention := ({ s with cell := { s.cell with closed := true } }).wake

end Contention

/-- Who moves. -/
inductive ContentionStep where
  | start (i : ℕ) (job : Job) (id : OriginId) (fate : Fate)
  | startSend (i : ℕ) (line : Chunk) (id : OriginId) (steal : Bool) (fate : Fate)
  | poll (i : ℕ) (fate : Fate)
  | cancel (i : ℕ)
  | attach (id : OriginId) (label : String) (mode : WriteMode)
  | detach (id : OriginId)
  | release (id : OriginId)
  | steal (id : OriginId)
  | acquire (id : OriginId)
  | reclaim (id : OriginId)
  | renew (id : OriginId)
  | recordPurge (id : OriginId) (bytes : ℕ)
  | close
  | receive
  | hangUp

namespace Contention

def step (s : Contention) : ContentionStep → Contention
  | .start i job id fate => s.start i job id fate
  | .startSend i line id steal fate => s.startSend i line id steal fate
  | .poll i fate => s.poll i fate
  | .cancel i => s.cancel i
  | .attach id label mode => (s.withLock (s.lock.register id label mode)).wake
  | .detach id => s.detach id
  | .release id => s.release id
  | .steal id => s.steal id
  | .acquire id => s.withLock (s.lock.acquire id).2
  | .reclaim id => s.withLock (s.lock.reclaimHeld id).2
  | .renew id => s.withLock (s.lock.renew id).2
  | .recordPurge id bytes => s.withLock (s.lock.recordPurge id bytes)
  | .close => s.close
  | .receive => { s with queue := s.queue.recv.2 }
  | .hangUp => { s with queue := s.queue.hangUp }

def Fresh (s : Contention) (id : OriginId) : Prop :=
  s.lock.writeMode id = none ∧ ∀ i, (s.workers i).origin ≠ some id

def Enabled (s : Contention) : ContentionStep → Prop
  | .start i job id _ =>
    s.workers i = .idle ∧ (∀ line, job ≠ .send line) ∧
      (∀ payload, job = .pump payload →
        s.lock.writeMode id = none ∨ s.lock.writeMode id = some .held)
  | .startSend i _ id _ _ => s.workers i = .idle ∧ s.Fresh id
  | .attach id _ _ => s.Fresh id
  | _ => True

def EndsWithNode (s : Contention) : ContentionStep → Prop
  | .cancel i =>
    match s.workers i with
    | .parked (.leg _) id _ => s.cell.closed = true ∨ s.lock.writeMode id = none
    | _ => True
  | _ => True

def machine : Runs.Machine Contention ContentionStep := ⟨step, Enabled⟩

def tidy : Runs.Machine Contention ContentionStep :=
  ⟨step, fun s a => s.Enabled a ∧ s.EndsWithNode a⟩

def initial (cap : ℕ) : Contention where
  cell := ⟨.new .exclusive, false⟩
  queue := .new cap
  workers _ := .idle

end Contention
end SerialNexus
