import SerialNexus.Upstream

/-! # The reader of a pty

`read_and_poll` of `daemon/src/nodes/pty.rs`: one loop that reads the master, hands what it reads to
the host endpoint of the pty's edge, and watches for the client's last close.

A pass of the loop runs without a suspension up to its one await (`pass`).  A payload that the
endpoint has no room for is held, and the pass then ends in `tx.reserve()` with a timeout; `settle`
is a poll of that wait.  Between two steps others change what they share with the reader
(`UpstreamAct`).  How long the waits are is not modelled. -/

namespace SerialNexus

inductive MasterRead where
  | packet (control : UInt8) (payload : Chunk)
  | eof
  | wouldBlock
  | eio
  | failed
deriving DecidableEq, Repr

def tiocpktData : UInt8 := 0

def tiocpktIoctl : UInt8 := 64

def MasterRead.data : MasterRead → Chunk
  | .packet control payload => if control = tiocpktData then payload else []
  | .eof | .wouldBlock | .eio | .failed => []

structure ClientTermios where
  baud : String
  charBits : ℕ
  parity : String
  echo : Bool
  icanon : Bool
  extproc : Bool
deriving DecidableEq, Repr

inductive PtyEvent where
  | read (result : MasterRead) (held : Option Chunk)
  | put (tx : ℕ) (chunk : Chunk)
  | lost (n : ℕ)
  | purged (lock : LockRef) (id : OriginId) (n : ℕ)
deriving DecidableEq, Repr

structure PtyReader where
  up : Upstream
  present : Bool
  sawSession : Bool
  pending : Option Chunk
  parked : Option WritableOrigin
  clientTermios : Option ClientTermios
  targetward : ℕ
  atLastClose : ℕ
  session : List PtyEvent
  past : List (List PtyEvent)

structure PtyPass where
  pollin : Bool
  pollhup : Bool
  reads : List (MasterRead × Bool)
  retryRoom : Bool
  offerRoom : Bool
  tookEdge : Bool
  termios : Option ClientTermios
  flushed : ℕ
  reconcileDue : Bool

inductive Handoff where
  | taken
  | full (chunk : Chunk)
  | lost
deriving DecidableEq, Repr

def mayWriteReclaiming (l : EndpointLock) (id : OriginId) : Bool × EndpointLock :=
  if l.mayWrite id then (true, l) else l.reclaimHeld id

namespace PtyReader

variable (s : PtyReader)

def initial (up : Upstream) : PtyReader where
  up := { up with sent := [] }
  present := false
  sawSession := false
  pending := none
  parked := none
  clientTermios := none
  targetward := 0
  atLastClose := 0
  session := []
  past := []

def log : List PtyEvent := s.past.flatten ++ s.session

def event (e : PtyEvent) : PtyReader := { s with session := s.session ++ [e] }

def lose (n : ℕ) : PtyReader :=
  ({ s with targetward := wrappingAdd s.targetward n }).event (.lost n)

def withLock (lock : LockRef) (l : EndpointLock) : PtyReader :=
  { s with up := { s.up with
    locks := Function.update s.up.locks lock { s.up.locks lock with lock := l } } }

def lockOf (o : WritableOrigin) : EndpointLock := (s.up.locks o.lock).lock

def recordPurge (o : WritableOrigin) (n : ℕ) : PtyReader :=
  let s' := s.withLock o.lock ((s.lockOf o).recordPurge o.id n)
  if ((s.lockOf o).writeMode o.id).isSome then s'.event (.purged o.lock o.id n) else s'

def tryForwardTargetward (o : WritableOrigin) (chunk : Chunk) (room : Bool) : Handoff × PtyReader :=
  match s.up.send o.tx chunk room with
  | (.delivered, up) => (.taken, ({ s with up }).event (.put o.tx chunk))
  | (.pending _, up) => (.full chunk, { s with up })
  | (.lost, up) => (.lost, ({ s with up }).lose chunk.length)

def reconcileTermios (termios : Option ClientTermios) : PtyReader :=
  match termios with
  | some t => { s with clientTermios := some t }
  | none => s

def gate (origin : Option WritableOrigin) : Bool × PtyReader :=
  match origin with
  | some o =>
    let (may, l) := mayWriteReclaiming (s.lockOf o) o.id
    (may, s.withLock o.lock l)
  | none => (s.up.edge.attached, s)

def retry (origin : Option WritableOrigin) (room : Bool) : PtyReader :=
  match s.pending with
  | none => s
  | some chunk =>
    let s' := { s with pending := none }
    match origin with
    | none => s'.lose chunk.length
    | some o =>
      match s'.tryForwardTargetward o chunk room with
      | (.taken, s') => s'
      | (.full chunk, s') => { s' with pending := some chunk }
      | (.lost, s') => s'

def packet (origin : Option WritableOrigin) (now : Bool) (termios : Option ClientTermios)
    (control : UInt8) (payload : Chunk) (room : Bool) : Bool × PtyReader :=
  let s' := { s with sawSession := true }
  if control = tiocpktData then
    if payload = [] then (true, s')
    else
      match origin with
      | none => (true, s'.lose payload.length)
      | some o =>
        match s'.tryForwardTargetward o payload room with
        | (.taken, s') => (true, s')
        | (.full chunk, s') => (false, { s' with pending := some chunk })
        | (.lost, s') => (false, s')
  else if control &&& tiocpktIoctl ≠ 0 ∧ now = true then (true, s'.reconcileTermios termios)
  else (true, s')

def drain (origin : Option WritableOrigin) (now : Bool) (termios : Option ClientTermios) :
    List (MasterRead × Bool) → PtyReader → Bool × List (MasterRead × Bool) × PtyReader
  | [], s => (false, [], s.event (.read .wouldBlock s.pending))
  | (result, room) :: rest, s =>
    let s' := s.event (.read result s.pending)
    match result with
    | .eof | .eio => (true, rest, s')
    | .wouldBlock | .failed => (false, rest, s')
    | .packet control payload =>
      match s'.packet origin now termios control payload room with
      | (true, s') => drain origin now termios rest s'
      | (false, s') => (false, rest, s')

def drainAndDiscard :
    List (MasterRead × Bool) → PtyReader → ℕ × List (MasterRead × Bool) × PtyReader
  | [], s => (0, [], s.event (.read .wouldBlock s.pending))
  | (result, _) :: rest, s =>
    let s' := s.event (.read result s.pending)
    match result with
    | .packet _ _ =>
      let (n, rest, s') := drainAndDiscard rest s'
      (result.data.length + n, rest, s')
    | .eof | .wouldBlock | .eio | .failed => (0, rest, s')

def offer (origin : Option WritableOrigin) (room : Bool) : ℕ × PtyReader :=
  match s.pending with
  | none => (0, s)
  | some chunk =>
    let s' := { s with pending := none }
    match origin with
    | none => (0, s'.lose chunk.length)
    | some o =>
      match s'.tryForwardTargetward o chunk room with
      | (.taken, s') => (0, s')
      | (.full chunk, s') => (chunk.length, s')
      | (.lost, s') => (0, s')

def handleLastClose (origin : Option WritableOrigin) (flushed : ℕ)
    (reads : List (MasterRead × Bool)) : List (MasterRead × Bool) × PtyReader :=
  let s' := { s with atLastClose := wrappingAdd s.atLastClose flushed, clientTermios := none }
  match origin with
  | none => (reads, s')
  | some o =>
    let l := s'.lockOf o
    if l.holder = some o.id ∧ l.writeMode o.id ≠ some .held then
      (reads, s'.withLock o.lock (l.release o.id).2)
    else if l.holder ≠ some o.id ∧ l.arbitration = .exclusive then
      let (n, rest, s') := s'.drainAndDiscard reads
      (rest, if 0 < n then s'.recordPurge o n else s')
    else (reads, s')

def recordDetachPurge (n : ℕ) (origin : Option WritableOrigin) : PtyReader :=
  if n = 0 then s
  else
    match origin with
    | some o => s.recordPurge o n
    | none => s.lose n

def residual (may : Bool) (reads : List (MasterRead × Bool)) : ℕ × PtyReader :=
  if may then
    let (n, _, s') := s.drainAndDiscard reads
    (n, s')
  else (0, s)

def close (origin : Option WritableOrigin) (may : Bool) (p : PtyPass)
    (reads : List (MasterRead × Bool)) : PtyReader :=
  let (held, s') := s.offer origin p.offerRoom
  let (reads, s') := s'.handleLastClose origin p.flushed reads
  let (n, s') := ({ s' with sawSession := false }).residual may reads
  let s' := s'.recordDetachPurge (held + n) origin
  { s' with past := s'.past ++ [s'.session], session := [] }

def park (origin : Option WritableOrigin) : PtyReader :=
  match s.pending, origin with
  | some chunk, none => ({ s with pending := none }).lose chunk.length
  | some _, some o => { s with parked := some o }
  | none, _ => s

def data (origin : Option WritableOrigin) (p : PtyPass) :
    Bool × Bool × List (MasterRead × Bool) × PtyReader :=
  let (may, s') := s.gate origin
  let s' := s'.retry origin p.retryRoom
  if s'.pending = none ∧ may = true ∧ p.pollin = true then
    (may, s'.drain origin (!p.pollhup) p.termios p.reads)
  else (may, false, p.reads, s')

def closeDue (p : PtyPass) (closed : Bool) : Bool :=
  (p.pollhup || closed) && (s.present || (s.sawSession || p.tookEdge))

def seen (p : PtyPass) (closed : Bool) : PtyReader :=
  { s with sawSession := s.sawSession || p.tookEdge, present := !p.pollhup && !closed }

def backstop (p : PtyPass) : PtyReader :=
  if s.present && p.reconcileDue then s.reconcileTermios p.termios else s

def lifecycle (origin : Option WritableOrigin) (p : PtyPass) (may closed : Bool)
    (reads : List (MasterRead × Bool)) : PtyReader :=
  if s.closeDue p closed then ((s.seen p closed).close origin may p reads).backstop p
  else (s.seen p closed).backstop p

def pass (p : PtyPass) : PtyReader :=
  let origin := s.up.edge.origin
  let (may, closed, reads, s') := s.data origin p
  (s'.lifecycle origin p may closed reads).park origin

def handlesClose (p : PtyPass) : Bool :=
  let (_, closed, _, s') := s.data s.up.edge.origin p
  s'.closeDue p closed

def settle (room expired : Bool) : PtyReader :=
  match s.parked, s.pending with
  | some o, some chunk =>
    match ({ s with parked := none, pending := none }).tryForwardTargetward o chunk room with
    | (.taken, s') => s'
    | (.lost, s') => s'
    | (.full chunk, s') =>
      { s' with pending := some chunk, parked := if expired then none else some o }
  | _, _ => s

end PtyReader

/-! ### Runs -/

def EndpointLock.Op.unregisters (id : OriginId) : EndpointLock.Op → Bool
  | .unregister id' => id' = id
  | _ => false

def Upstream.bound (u : Upstream) : Bool :=
  u.edge.origin.all fun o => ((u.locks o.lock).lock.writeMode o.id).isSome

def Upstream.orderly (u : Upstream) : UpstreamAct → Bool
  | .setEdge edge => ({ u with edge }).bound
  | .lockOp lock op => u.edge.origin.all fun o => lock ≠ o.lock || !op.unregisters o.id
  | .closeLock _ | .put _ _ | .receive _ | .hangUp _ => true

inductive PtyAct where
  | pass (p : PtyPass)
  | settle (room expired : Bool)
  | other (a : UpstreamAct)

namespace PtyReader

def step (s : PtyReader) : PtyAct → PtyReader
  | .pass p => s.pass p
  | .settle room expired => s.settle room expired
  | .other a => { s with up := s.up.step a }

def ok (s : PtyReader) : PtyAct → Bool
  | .pass _ => s.parked = none
  | .settle _ _ => s.parked ≠ none
  | .other a => s.up.orderly a

def machine : Runs.Machine PtyReader PtyAct where
  step := step
  ok s a := ok s a

instance (s : PtyReader) (a : PtyAct) : Decidable (machine.ok s a) :=
  inferInstanceAs (Decidable (s.ok a = true))

end PtyReader
end SerialNexus
