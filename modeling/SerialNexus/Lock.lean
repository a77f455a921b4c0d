import SerialNexus.Words
import SerialNexus.Graph

/-! # The endpoint write lock

The state machine of `core/src/lock.rs`: the origins attached to one host-facing endpoint, which of
them (if any) holds the exclusive write lock, the FIFO queue of waiters, the grant generation and
the most recent steal.  The lock only compares ids, so they are plain naturals; `generation` wraps
at `2 ^ 64` and `purged` saturates there. -/

namespace SerialNexus

open Std (ExtTreeMap)

abbrev OriginId := ℕ

inductive Acquire where
  | granted
  | alreadyHeld
  | denied (heldBy : OriginId)
  | readOnly
  | unregistered
deriving DecidableEq, Repr

inductive Steal where
  | stolen (previous : Option OriginId)
  | alreadyHeld
  | readOnly
deriving DecidableEq, Repr

structure Origin where
  label : String
  writeMode : WriteMode
  purged : ℕ
deriving DecidableEq

structure StealRecord where
  fro : String
  by_ : String
deriving DecidableEq

structure EndpointLock where
  arbitration : Arbitration
  origins : ExtTreeMap OriginId Origin
  holder : Option OriginId
  waiters : List OriginId
  generation : ℕ
  stolen : Option StealRecord

structure OriginState where
  origin : String
  writeMode : WriteMode
  holdsLock : Bool
  purged : ℕ
deriving DecidableEq

structure LockSnapshot where
  arbitration : Arbitration
  holder : Option String
  origins : List OriginState
  waiters : List String
  lastSteal : Option StealRecord

namespace EndpointLock

def new (arbitration : Arbitration) : EndpointLock :=
  { arbitration, origins := ∅, holder := none, waiters := [], generation := 0, stolen := none }

variable (l : EndpointLock)

def label (id : OriginId) : Option String := l.origins[id]?.map (·.label)

def writeMode (id : OriginId) : Option WriteMode := l.origins[id]?.map (·.writeMode)

def purged (id : OriginId) : ℕ := (l.origins[id]?.map (·.purged)).getD 0

def register (id : OriginId) (label : String) (mode : WriteMode) : EndpointLock :=
  let l' := { l with origins := l.origins.insert id ⟨label, mode, 0⟩ }
  if mode = .held ∧ l.arbitration = .exclusive ∧ l.holder = none then
    { l' with holder := some id, generation := wrappingAdd l.generation 1 }
  else l'

def unregister (id : OriginId) : Bool × EndpointLock :=
  let l' := { l with origins := l.origins.erase id, waiters := l.waiters.filter (· ≠ id) }
  if l.holder = some id then (true, { l' with holder := none }) else (false, l')

def mayWrite (id : OriginId) : Bool :=
  match l.origins[id]? with
  | none => false
  | some o =>
    if o.writeMode = .never then false
    else match l.arbitration with
      | .freeForAll => true
      | .exclusive => decide (l.holder = some id)

def grantTo (id : OriginId) : EndpointLock :=
  { l with
    holder := some id
    waiters := l.waiters.filter (· ≠ id)
    generation := wrappingAdd l.generation 1 }

def heldOriginOtherThan (except : OriginId) : Option OriginId :=
  l.origins.toList.findSome? fun (id, o) =>
    if id ≠ except ∧ o.writeMode = .held then some id else none

def acquire (id : OriginId) : Acquire × EndpointLock :=
  match l.origins[id]? with
  | none => (.unregistered, l)
  | some o =>
    if o.writeMode = .never then (.readOnly, l)
    else if l.arbitration = .freeForAll then (.granted, l)
    else match l.holder with
      | some h => if h = id then (.alreadyHeld, l) else (.denied h, l)
      | none =>
        -- the caller's own mode is settled before the queue is consulted
        if o.writeMode = .held then (.granted, l.grantTo id)
        else match l.heldOriginOtherThan id with
          | some held => (.denied held, l)
          | none =>
            match l.waiters.head? with
            | some front => if front ≠ id then (.denied front, l) else (.granted, l.grantTo id)
            | none => (.granted, l.grantTo id)

def enqueue (id : OriginId) : EndpointLock :=
  match l.origins[id]? with
  | some o =>
    if o.writeMode ≠ .never then
      if l.holder = some id ∨ id ∈ l.waiters then l
      else { l with waiters := l.waiters ++ [id] }
    else l
  | none => l

def dequeue (id : OriginId) : EndpointLock := { l with waiters := l.waiters.filter (· ≠ id) }

def steal (id : OriginId) : Steal × EndpointLock :=
  match l.origins[id]? with
  | none => (.readOnly, l)
  | some o =>
    if o.writeMode = .never then (.readOnly, l)
    else if l.arbitration = .freeForAll then (.stolen none, l)
    else if l.holder = some id then (.alreadyHeld, l)
    else
      let previous := l.holder
      let stolen := match previous with
        | some prev => some ⟨(l.label prev).getD "", (l.label id).getD ""⟩
        | none => l.stolen
      (.stolen previous,
        { l with
          stolen
          waiters := l.waiters.filter (· ≠ id)
          holder := some id
          generation := wrappingAdd l.generation 1 })

def reclaimHeld (id : OriginId) : Bool × EndpointLock :=
  match l.origins[id]? with
  | some o =>
    if o.writeMode = .held then
      if l.arbitration = .freeForAll then (true, l)
      else if l.holder = none then (true, l.grantTo id)
      else (false, l)
    else (false, l)
  | none => (false, l)

def release (id : OriginId) : Bool × EndpointLock :=
  if l.holder = some id then (true, { l with holder := none }) else (false, l)

def renew (id : OriginId) : Option ℕ × EndpointLock :=
  if l.holder = some id then
    (some (wrappingAdd l.generation 1), { l with generation := wrappingAdd l.generation 1 })
  else (none, l)

def recordPurge (id : OriginId) (bytes : ℕ) : EndpointLock :=
  { l with origins := l.origins.modify id fun o => { o with purged := saturatingAdd o.purged bytes } }

def snapshot : LockSnapshot where
  arbitration := l.arbitration
  holder := l.holder.bind l.label
  origins := l.origins.toList.map fun (id, o) =>
    { origin := o.label, writeMode := o.writeMode, holdsLock := decide (l.holder = some id),
      purged := o.purged }
  waiters := l.waiters.filterMap l.label
  lastSteal := l.stolen

end EndpointLock

structure LockCell where
  lock : EndpointLock
  closed : Bool

end SerialNexus
