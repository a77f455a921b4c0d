import SerialNexus.Graph
import SerialNexus.Runs
import SerialNexus.Words

/-! # The log node

`nodes/log.rs`: an ingest pump enqueues chunks, the control plane asks for rotations and closes the
node, and a writer thread takes the whole queue at a time, writes it to the file and performs each
rotation at its place in the stream.  What the writer does under the mutex, and each system call it
makes without it, is one step. -/

namespace SerialNexus

inductive OverflowPolicy where
  | dropOldest
  | fault
deriving DecidableEq, Repr

/-! ### File names -/

def parseU64 (s : List Char) : Option ℕ :=
  let digits := if s.head? = some '+' then s.tail else s
  if digits ≠ [] ∧ digits.all Char.isDigit then
    let n := Nat.ofDigitChars 10 digits 0
    if n < u64Size then some n else none
  else none

def padded (padding n : ℕ) : List Char :=
  List.replicate (padding - (Nat.toDigits 10 n).length) '0' ++ Nat.toDigits 10 n

structure Directory where
  rotated : List (List Char × List UInt8)
  current : Option (List UInt8)
deriving DecidableEq, Repr

namespace Directory

variable (d : Directory)

def contents : List UInt8 := (d.rotated.map Prod.snd).flatten ++ d.current.getD []

def rename (suffix : List Char) : Directory where
  rotated := (d.rotated.filter fun f => f.1 ≠ suffix) ++ [(suffix, d.current.getD [])]
  current := none

def openAppend : Directory := { d with current := some (d.current.getD []) }

def append (bytes : List UInt8) : Directory := { d with current := d.current.map (· ++ bytes) }

end Directory

def scanRotation (rotated : List (List Char × List UInt8)) : Option ℕ :=
  (rotated.filterMap fun f => parseU64 f.1).max?

/-! ### The queue -/

inductive QueueItem where
  | bytes (chunk : Chunk)
  | rotate
deriving DecidableEq, Repr

def QueueItem.len : QueueItem → ℕ
  | .bytes chunk => chunk.length
  | .rotate => 0

def queueCapBytes : ℕ := 16 * 1024 * 1024

structure Queue where
  items : List QueueItem
  queuedBytes : ℕ
  drainingBytes : ℕ
  droppedBytes : ℕ
  writeErrors : ℕ
  lastWriteError : Option String
  rotatePending : ℕ
  rotation : Option ℕ
  closed : Bool
  writerGone : Bool
  status : NodeStatus
  overflow : OverflowPolicy
deriving DecidableEq, Repr

def removeOldest : List QueueItem → Option (Chunk × List QueueItem)
  | [] => none
  | .bytes chunk :: items => some (chunk, items)
  | .rotate :: items => (removeOldest items).map fun r => (r.1, .rotate :: r.2)

namespace Queue

variable (q : Queue)

def evict (len : ℕ) : ℕ → Queue → Queue
  | 0, q => q
  | fuel + 1, q =>
    if q.queuedBytes + len > queueCapBytes then
      match removeOldest q.items with
      | none => q
      | some (old, items) =>
        evict len fuel { q with
          items
          queuedBytes := q.queuedBytes - old.length
          droppedBytes := q.droppedBytes + old.length }
    else q

def pushChunk (chunk : Chunk) : Queue :=
  { q with queuedBytes := q.queuedBytes + chunk.length, items := q.items ++ [.bytes chunk] }

def enqueue (chunk : Chunk) : Bool × Queue :=
  if q.writerGone then (false, { q with droppedBytes := q.droppedBytes + chunk.length })
  else if q.queuedBytes + chunk.length > queueCapBytes then
    match q.overflow with
    | .dropOldest => (true, (evict chunk.length q.items.length q).pushChunk chunk)
    | .fault =>
      (false, { q with
        droppedBytes := q.droppedBytes + chunk.length
        status := if q.status = .active then .faulted "log queue overflow" else q.status })
  else (true, q.pushChunk chunk)

def nextRotation : ℕ := q.rotation.elim 0 fun n => saturatingAdd n 1

def rotate : Except String ℕ × Queue :=
  match q.status with
  | .faulted reason => (.error ("log node faulted: " ++ reason), q)
  | _ =>
    (.ok (saturatingAdd q.nextRotation q.rotatePending),
      { q with
        rotatePending := (q.rotatePending + 1) % u32Size
        items := q.items ++ [.rotate] })

def countAbandoned (rest : List QueueItem) : Queue :=
  { q with droppedBytes := q.droppedBytes + (rest.map QueueItem.len).sum, drainingBytes := 0 }

def abandonQueue : Queue :=
  ({ q with writerGone := true, items := [], queuedBytes := 0 }).countAbandoned q.items

def rotationFailed (reason : String) : Queue :=
  { q with status := .faulted reason, rotatePending := q.rotatePending - 1 }

end Queue

inductive LogWriter where
  | top
  | waiting
  | batch (todo : List QueueItem) (closing : Bool)
  | writing (rest : Chunk) (todo : List QueueItem) (closing : Bool)
  | refused (rest : Chunk) (error : String) (todo : List QueueItem) (closing : Bool)
  | renaming (next : ℕ) (todo : List QueueItem) (closing : Bool)
  | reopening (next : ℕ) (todo : List QueueItem) (closing : Bool)
  | renameFailed (todo : List QueueItem)
  | reopenFailed (todo : List QueueItem)
  | leaving
  | gone
deriving DecidableEq, Repr

inductive SysResult where
  | stored (n : ℕ)
  | interrupted
  | failed (error : String)
  | done
deriving DecidableEq, Repr

inductive Token where
  | byte (b : UInt8)
  | rotate
deriving DecidableEq, Repr

structure LogConfig where
  directory : String
  current : String
  padding : ℕ
  overflow : OverflowPolicy
deriving DecidableEq, Repr

structure LogWorld where
  cfg : LogConfig
  q : Queue
  writer : LogWriter
  dir : Directory
  before : List UInt8
  offered : List Token
  wrote : List Token
deriving DecidableEq, Repr

def chunkTokens (chunk : Chunk) : List Token := chunk.map .byte

def itemTokens (items : List QueueItem) : List Token :=
  items.flatMap fun item =>
    match item with
    | .bytes chunk => chunkTokens chunk
    | .rotate => [.rotate]

def bytesOf (ts : List Token) : List UInt8 :=
  ts.filterMap fun t =>
    match t with
    | .byte b => some b
    | .rotate => none

def LogWriter.remainder : LogWriter → List Token
  | .batch todo _ => itemTokens todo
  | .writing rest todo _ => chunkTokens rest ++ itemTokens todo
  | .refused rest _ todo _ => chunkTokens rest ++ itemTokens todo
  | .renaming _ todo _ => .rotate :: itemTokens todo
  | .reopening _ todo _ => itemTokens todo
  | .renameFailed todo => .rotate :: itemTokens todo
  | .reopenFailed todo => itemTokens todo
  | .top | .waiting | .leaving | .gone => []

def LogWriter.Finished (w : LogWriter) : Prop := w = .leaving ∨ w = .gone

namespace LogWorld

def create (cfg : LogConfig) (dir : Directory) (opened scanned spawned : Option String) :
    LogWorld :=
  let status : NodeStatus :=
    match opened, scanned with
    | some e, _ => .faulted ("open " ++ cfg.current ++ ": " ++ e)
    | none, some e => .faulted ("scan " ++ cfg.directory ++ " for rotations: " ++ e)
    | none, none => .active
  let q : Queue :=
    { items := [], queuedBytes := 0, drainingBytes := 0, droppedBytes := 0, writeErrors := 0
      lastWriteError := none, rotatePending := 0
      rotation := if scanned.isSome then none else scanRotation dir.rotated
      closed := false, writerGone := true, status, overflow := cfg.overflow }
  let w : LogWorld :=
    { cfg, q, writer := .gone, dir := if opened.isSome then dir else dir.openAppend
      before := dir.contents, offered := [], wrote := [] }
  if status = .active then
    match spawned with
    | none => { w with q := { q with writerGone := false }, writer := .top }
    | some e => { w with q := { q with status := .faulted ("spawn log writer thread: " ++ e) } }
  else w

variable (w : LogWorld)

def drain : LogWorld :=
  if w.q.items = [] ∧ w.q.closed = false then { w with writer := .waiting }
  else { w with
    q := { w.q with items := [], drainingBytes := w.q.queuedBytes, queuedBytes := 0 }
    writer := .batch w.q.items w.q.closed }

def nextItem (closing : Bool) : List QueueItem → LogWorld
  | [] =>
    if closing then { w with q := { w.q with drainingBytes := 0 }, writer := .leaving }
    else { w with writer := .top }
  | .bytes chunk :: todo => { w with writer := .writing chunk todo closing }
  | .rotate :: todo => { w with writer := .renaming w.q.nextRotation todo closing }

def writeSome (rest : Chunk) (todo : List QueueItem) (closing : Bool) (result : SysResult) :
    LogWorld :=
  if rest = [] then { w with writer := .batch todo closing }
  else
    match result with
    | .stored 0 => { w with writer := .refused rest "write returned zero bytes" todo closing }
    | .stored n =>
      { w with
        dir := w.dir.append (rest.take n)
        wrote := w.wrote ++ chunkTokens (rest.take n)
        writer := .writing (rest.drop n) todo closing }
    | .failed e => { w with writer := .refused rest e todo closing }
    | .interrupted | .done => w

def refuse (rest : Chunk) (error : String) (todo : List QueueItem) (closing : Bool) : LogWorld :=
  let q := { w.q with droppedBytes := w.q.droppedBytes + rest.length }
  let reason := "write " ++ w.cfg.current ++ ": " ++ error
  match w.q.overflow with
  | .fault =>
    { w with q := { q.countAbandoned todo with status := .faulted reason }, writer := .leaving }
  | .dropOldest =>
    { w with
      q := { q with writeErrors := q.writeErrors + 1, lastWriteError := some reason }
      writer := .batch todo closing }

def suffix (next : ℕ) : List Char := padded w.cfg.padding next

def rename (next : ℕ) (todo : List QueueItem) (closing : Bool) (result : SysResult) : LogWorld :=
  match result with
  | .done =>
    { w with
      dir := w.dir.rename (w.suffix next)
      wrote := w.wrote ++ [.rotate]
      writer := .reopening next todo closing }
  | .failed e =>
    { w with
      q := w.q.rotationFailed ("rotate " ++ w.cfg.current ++ " -> " ++ w.cfg.current ++ "." ++
        String.ofList (w.suffix next) ++ ": " ++ e)
      writer := .renameFailed todo }
  | .stored _ | .interrupted => w

def reopen (next : ℕ) (todo : List QueueItem) (closing : Bool) (result : SysResult) : LogWorld :=
  match result with
  | .done =>
    { w with
      dir := w.dir.openAppend
      q := { w.q with rotation := some next, rotatePending := w.q.rotatePending - 1 }
      writer := .batch todo closing }
  | .failed e =>
    { w with
      q := w.q.rotationFailed ("reopen after rotate " ++ w.cfg.current ++ ": " ++ e)
      writer := .reopenFailed todo }
  | .stored _ | .interrupted => w

def stepWriter (result : SysResult) : LogWorld :=
  match w.writer with
  | .top => ({ w with q := { w.q with drainingBytes := 0 } }).drain
  | .waiting => w.drain
  | .batch todo closing => w.nextItem closing todo
  | .writing rest todo closing => w.writeSome rest todo closing result
  | .refused rest error todo closing => w.refuse rest error todo closing
  | .renaming next todo closing => w.rename next todo closing result
  | .reopening next todo closing => w.reopen next todo closing result
  | .renameFailed todo => { w with q := w.q.countAbandoned todo, writer := .leaving }
  | .reopenFailed todo => { w with q := w.q.countAbandoned todo, writer := .leaving }
  | .leaving => { w with q := w.q.abandonQueue, writer := .gone }
  | .gone => w

def offer (chunk : Chunk) : LogWorld :=
  { w with q := (w.q.enqueue chunk).2, offered := w.offered ++ chunkTokens chunk }

def requestRotate : LogWorld :=
  match w.q.rotate with
  | (.error _, q) => { w with q }
  | (.ok _, q) => { w with q, offered := w.offered ++ [.rotate] }

end LogWorld

/-- Who moves. -/
inductive LogAct where
  | offer (chunk : Chunk)
  | rotate
  | close
  | writer (result : SysResult)
deriving DecidableEq, Repr

namespace LogWorld

def step (w : LogWorld) : LogAct → LogWorld
  | .offer chunk => w.offer chunk
  | .rotate => w.requestRotate
  | .close => { w with q := { w.q with closed := true } }
  | .writer result => w.stepWriter result

def possible (w : LogWorld) : LogAct → Bool
  | .writer result =>
    match w.writer, result with
    | .writing rest _ _, .stored n => n ≤ rest.length
    | .writing _ _ _, .done => false
    | .renaming _ _ _, .stored _ | .renaming _ _ _, .interrupted => false
    | .reopening _ _ _, .stored _ | .reopening _ _ _, .interrupted => false
    | _, _ => true
  | _ => true

def machine : Runs.Machine LogWorld LogAct := ⟨step, fun w a => w.possible a = true⟩

instance (w : LogWorld) (a : LogAct) : Decidable (machine.ok w a) :=
  inferInstanceAs (Decidable (w.possible a = true))

end LogWorld

end SerialNexus
