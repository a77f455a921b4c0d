import Mathlib.Tactic

/-! # The vocabulary of the graph

The types of `core` that every other part of the development speaks about: byte chunks, the
orientation of an endpoint (`Facing`), the write capability of an edge (`WriteMode`), and the
write-arbitration policy of a host-facing endpoint (`Arbitration`). -/

namespace SerialNexus

abbrev Chunk := List UInt8

inductive Facing where
  | target
  | host
deriving DecidableEq, Repr

def Facing.opposite : Facing → Facing
  | .target => .host
  | .host => .target

inductive WriteMode where
  | never
  | onDemand
  | held
deriving DecidableEq, Repr

inductive Arbitration where
  | exclusive
  | freeForAll
deriving DecidableEq, Repr

instance : Inhabited WriteMode := ⟨.onDemand⟩
instance : Inhabited Arbitration := ⟨.exclusive⟩

inductive NodeStatus where
  | active
  | waiting (reason : String)
  | faulted (reason : String)
deriving DecidableEq, Repr

def channelCap : ℕ := 256

def maxNameLen : ℕ := 256

end SerialNexus
