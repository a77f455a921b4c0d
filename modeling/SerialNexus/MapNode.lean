import SerialNexus.ByteMap
import SerialNexus.Upstream

/-! # The targetward side of a map node

`targetward_map` (`daemon/src/nodes/map.rs`) takes the chunks written at the mapped endpoint, one at
a time.  While no upstream is attached it waits with the chunk in hand, a read-only upstream costs
the chunk, and otherwise the chunk is mapped and sent on through `forward_targetward`.

The counters of the direction are moved by `transform`, which `forward_targetward` calls when it has
the lock, before it sends: if the send fails, the chunk has been counted, and is discarded too. -/

namespace SerialNexus

open List Function

inductive MapTask where
  | idle
  | parked (chunk : Chunk)
  | forwarding (b : WritableOrigin) (chunk : Chunk) (phase : Forward)
deriving DecidableEq, Repr

inductive MapFate where
  | delivered
  | discarded
  | failed
deriving DecidableEq, Repr

structure MapPump where
  map : MapDirection
  up : Upstream
  task : MapTask
  bytesIn : ℕ
  bytesOut : ℕ
  ruleCounts : ℕ → ℕ
  discarded : ℕ
  dequeued : List Chunk
  handled : List (Chunk × MapFate)

inductive MapAct where
  | take (chunk : Chunk) (room : Bool)
  | poll (room : Bool)
  | upstream (a : UpstreamAct)

def Forwarded.failed (f : Forwarded) (phase : Forward) : Bool :=
  (f.made || phase.isSending) && decide (f.progress = .lost)

namespace MapPump

section definitions
variable (s : MapPump)

def start (rules : List Mapping) (edge : TargetEdge) (locks : LockRef → LockCell)
    (queues : ℕ → Channel Chunk) : MapPump where
  map := .compile rules
  up := { edge, locks, queues, sent := [] }
  task := .idle
  bytesIn := 0
  bytesOut := 0
  ruleCounts _ := 0
  discarded := 0
  dequeued := []
  handled := []

def bump (counts : ℕ → ℕ) (fired : List ℕ) : ℕ → ℕ :=
  fired.foldl (fun counts rule => update counts rule (wrappingAdd (counts rule) 1)) counts

def transform (chunk : Chunk) : MapPump :=
  let (out, fired) := s.map.apply chunk []
  { s with
    ruleCounts := bump s.ruleCounts fired
    bytesIn := wrappingAdd s.bytesIn chunk.length
    bytesOut := wrappingAdd s.bytesOut out.length }

def payload (chunk : Chunk) : Option Chunk :=
  let mapped := (s.map.apply chunk []).1
  if mapped.isEmpty then none else some mapped

def finish (chunk : Chunk) (fate : MapFate) : MapPump :=
  { s with task := .idle, handled := s.handled ++ [(chunk, fate)] }

/-- A chunk is lost. -/
def discard (chunk : Chunk) (fate : MapFate) : MapPump :=
  { s with discarded := wrappingAdd s.discarded chunk.length }.finish chunk fate

def forward (b : WritableOrigin) (chunk : Chunk) (phase : Forward) (room : Bool) : MapPump :=
  let (f, up) := s.up.forwardTargetward b (s.payload chunk) phase room
  let s := { if f.made then s.transform chunk else s with up }
  match f.progress with
  | .pending phase => { s with task := .forwarding b chunk phase }
  | .delivered => s.finish chunk .delivered
  | .lost => s.discard chunk (if f.failed phase then .failed else .discarded)

def handle (chunk : Chunk) (room : Bool) : MapPump :=
  match s.up.edge.awaitOrigin with
  | none => { s with task := .parked chunk }
  | some none => s.discard chunk .discarded
  | some (some b) => s.forward b chunk .entering room

def step : MapAct → MapPump
  | .take chunk room => { s with dequeued := s.dequeued ++ [chunk] }.handle chunk room
  | .poll room =>
    match s.task with
    | .idle => s
    | .parked chunk => s.handle chunk room
    | .forwarding b chunk phase => s.forward b chunk phase room
  | .upstream a => { s with up := s.up.step a }

def Allowed : MapAct → Prop
  | .take _ _ => s.task = .idle
  | .poll _ | .upstream _ => True

instance : ∀ a, Decidable (s.Allowed a)
  | .take _ _ => inferInstanceAs (Decidable (s.task = .idle))
  | .poll _ | .upstream _ => .isTrue trivial

def machine : Runs.Machine MapPump MapAct := ⟨step, Allowed⟩

instance (a : MapAct) : Decidable (machine.ok s a) := inferInstanceAs (Decidable (s.Allowed a))

def chunksOf (fate : MapFate) : List Chunk := (s.handled.filter (·.2 = fate)).map (·.1)

def handledBytes : ℕ := (s.handled.map (·.1.length)).sum

def sentBytes : List UInt8 := (s.up.sent.map (·.2)).flatten

def bytesOf (fate : MapFate) : ℕ := (s.chunksOf fate).flatten.length

/-- The chunk the task has taken and not yet handled. -/
def hand : List Chunk :=
  match s.task with
  | .idle => []
  | .parked chunk | .forwarding _ chunk _ => [chunk]

/-- The origin this step forwards through, the chunk and where the call stands, if it forwards. -/
def forwards : MapAct → Option (WritableOrigin × Chunk × Forward)
  | .take chunk _ => s.up.edge.awaitOrigin.join.map (·, chunk, .entering)
  | .poll _ =>
    match s.task with
    | .idle => none
    | .parked chunk => s.up.edge.awaitOrigin.join.map (·, chunk, .entering)
    | .forwarding b chunk phase => some (b, chunk, phase)
  | .upstream _ => none

end definitions

def mapping (rules : List Mapping) (chunks : List Chunk) : List UInt8 :=
  chunks.flatten.flatMap (MapDirection.rewriteByte rules)

/-- Before this step the queue it forwards to is closed, and either the call is already sending, or
the lock grants it and some byte of the chunk is left by the rules. -/
def meetsClosed (rules : List Mapping) (s : MapPump) (a : MapAct) : Bool :=
  (s.forwards a).any fun (b, chunk, phase) =>
    !(s.up.queues b.tx).isOpen && (phase.isSending || !(mapping rules [chunk]).isEmpty &&
      (reacquireHeld (s.up.locks b.lock) b.id (phase = .entering)).1 = .granted)

def matched (rules : List Mapping) (r : ℕ) (chunks : List Chunk) : ℕ :=
  chunks.flatten.countP fun b => MapDirection.firstRule rules b = some r

@[simp] theorem matched_nil (rules : List Mapping) (r : ℕ) : matched rules r [] = 0 := rfl

@[simp] theorem matched_append (rules : List Mapping) (r : ℕ) (as bs : List Chunk) :
    matched rules r (as ++ bs) = matched rules r as + matched rules r bs := by
  simp [matched]

@[simp] theorem mapping_append (rules : List Mapping) (as bs : List Chunk) :
    mapping rules (as ++ bs) = mapping rules as ++ mapping rules bs := by
  simp [mapping]

theorem bump_apply {counts : ℕ → ℕ} {r n : ℕ} (h : counts r = n % u64Size) (fired : List ℕ) :
    bump counts fired r = (n + fired.count r) % u64Size := by
  induction fired generalizing counts n with
  | nil => exact h
  | cons i fired ih =>
    change bump (update counts i (wrappingAdd (counts i) 1)) fired r = _
    rw [count_cons]
    by_cases hi : r = i
    · subst hi
      have hnext : update counts r (wrappingAdd (counts r) 1) r = (n + 1) % u64Size := by
        rw [update_self, h, wrappingAdd_mod]
      rw [ih hnext, if_pos (beq_self_eq_true r), Nat.add_assoc, Nat.add_comm 1]
    · have hne : ¬ (i == r) = true := fun h => hi (beq_iff_eq.mp h).symm
      rw [ih ((update_of_ne hi _ _).trans h), if_neg hne, Nat.add_zero]

variable {s : MapPump} {rules : List Mapping}

theorem transform_ruleCounts (hmap : s.map = .compile rules) (chunk : Chunk) {r n : ℕ}
    (h : s.ruleCounts r = n % u64Size) :
    (s.transform chunk).ruleCounts r = (n + matched rules r [chunk]) % u64Size := by
  change bump s.ruleCounts (s.map.apply chunk []).2 r = _
  rw [bump_apply h, hmap, MapDirection.apply_eq, MapDirection.count_filterMap_firstRule]
  simp [matched]

theorem apply_eq_mapping (hmap : s.map = .compile rules) (chunk : Chunk) :
    (s.map.apply chunk []).1 = mapping rules [chunk] := by
  rw [hmap, MapDirection.apply_eq]
  simp [mapping]

theorem payload_eq_some (hmap : s.map = .compile rules) {chunk c : Chunk}
    (h : s.payload chunk = some c) : c = mapping rules [chunk] ∧ chunk ≠ [] := by
  rw [payload, apply_eq_mapping hmap] at h
  by_cases hempty : (mapping rules [chunk]).isEmpty = true
  · rw [if_pos hempty] at h
    cases h
  · rw [if_neg hempty] at h
    refine ⟨(Option.some.inj h).symm, fun hnil => hempty ?_⟩
    rw [hnil]
    rfl

theorem payload_eq_none (hmap : s.map = .compile rules) {chunk : Chunk}
    (h : s.payload chunk = none) : mapping rules [chunk] = [] := by
  rw [payload, apply_eq_mapping hmap] at h
  by_contra hne
  rw [if_neg (by simpa using hne)] at h
  cases h

/-! ### The books -/

theorem chunksOf_finish (chunk : Chunk) (fate fate' : MapFate) :
    (s.finish chunk fate).chunksOf fate' =
      s.chunksOf fate' ++ if fate = fate' then [chunk] else [] := by
  by_cases h : fate = fate' <;> simp [chunksOf, finish, h]

theorem bytesOf_finish (chunk : Chunk) (fate fate' : MapFate) :
    (s.finish chunk fate).bytesOf fate' =
      s.bytesOf fate' + if fate = fate' then chunk.length else 0 := by
  rw [bytesOf, chunksOf_finish, flatten_append, length_append]
  by_cases h : fate = fate' <;> simp [bytesOf, h]

theorem handledBytes_eq (s : MapPump) :
    s.handledBytes = s.bytesOf .delivered + s.bytesOf .discarded + s.bytesOf .failed := by
  unfold handledBytes bytesOf chunksOf
  induction s.handled with
  | nil => rfl
  | cons h handled ih =>
    obtain ⟨chunk, fate⟩ := h
    rw [map_cons, sum_cons, ih]
    cases fate <;> simp <;> omega

theorem matched_le (rules : List Mapping) (r : ℕ) (chunks : List Chunk) :
    matched rules r chunks ≤ chunks.flatten.length :=
  countP_le_length

/-- `counted` is the chunk that has been transformed and is not yet handled, if there is one. -/
structure Books (rules : List Mapping) (counted : List Chunk) (s : MapPump) : Prop where
  map : s.map = .compile rules
  sent : s.sentBytes = mapping rules (s.chunksOf .delivered)
  bytesIn : s.bytesIn =
    (s.bytesOf .delivered + s.bytesOf .failed + counted.flatten.length) % u64Size
  discarded : s.discarded = (s.bytesOf .discarded + s.bytesOf .failed) % u64Size
  counts : ∀ r, s.ruleCounts r =
    (matched rules r (s.chunksOf .delivered) + matched rules r (s.chunksOf .failed) +
      matched rules r counted) % u64Size
  failed : ∀ chunk ∈ s.chunksOf .failed, chunk ≠ []

theorem Books.start (rules : List Mapping) (edge : TargetEdge) (locks : LockRef → LockCell)
    (queues : ℕ → Channel Chunk) : Books rules [] (start rules edge locks queues) where
  map := rfl
  sent := rfl
  bytesIn := rfl
  discarded := rfl
  counts _ := rfl
  failed _ h := by cases h

section books
variable {counted : List Chunk} {chunk : Chunk} {up : Upstream}

theorem Books.move (h : Books rules counted s) (hup : up.sent = s.up.sent)
    (task : MapTask) : Books rules counted { s with up, task } :=
  ⟨h.map, (congrArg (fun sent => (sent.map Prod.snd).flatten) hup).trans h.sent, h.bytesIn,
    h.discarded, h.counts, h.failed⟩

theorem Books.take (h : Books rules counted s) (dequeued : List Chunk) :
    Books rules counted { s with dequeued } :=
  ⟨h.map, h.sent, h.bytesIn, h.discarded, h.counts, h.failed⟩

theorem Books.transform (h : Books rules [] s) (chunk : Chunk) :
    Books rules [chunk] (s.transform chunk) where
  map := h.map
  sent := h.sent
  bytesIn := by
    change wrappingAdd s.bytesIn chunk.length = _
    rw [h.bytesIn, wrappingAdd_mod, flatten_singleton]
    rfl
  discarded := h.discarded
  counts r := by
    rw [transform_ruleCounts h.map chunk (h.counts r), matched_nil]
    rfl
  failed := h.failed

theorem Books.deliver (h : Books rules [chunk] s) {puts : List (ℕ × Chunk)}
    (hup : up.sent = s.up.sent ++ puts) (hputs : (puts.map (·.2)).flatten = mapping rules [chunk]) :
    Books rules [] ({ s with up }.finish chunk .delivered) where
  map := h.map
  sent := by
    rw [chunksOf_finish, if_pos rfl, mapping_append, ← hputs]
    change (up.sent.map (·.2)).flatten = mapping rules (s.chunksOf .delivered) ++ _
    rw [hup, map_append, flatten_append, ← h.sent]
    rfl
  bytesIn := by
    rw [bytesOf_finish, bytesOf_finish, if_pos rfl, if_neg (by decide), flatten_nil]
    refine h.bytesIn.trans (congrArg (· % u64Size) ?_)
    rw [flatten_singleton]
    exact Nat.add_right_comm _ _ _
  discarded := by
    rw [bytesOf_finish, bytesOf_finish, if_neg (by decide), if_neg (by decide)]
    exact h.discarded
  counts r := by
    rw [chunksOf_finish, chunksOf_finish, if_pos rfl, if_neg (by decide), append_nil,
      matched_append, matched_nil, Nat.add_zero]
    exact (h.counts r).trans (congrArg (· % u64Size) (Nat.add_right_comm _ _ _))
  failed := by
    rw [chunksOf_finish, if_neg (by decide), append_nil]
    exact h.failed

/-- A chunk whose send failed was counted as transformed, and is discarded as well. -/
theorem Books.discard (fate : MapFate) (hfate : fate ≠ .delivered)
    (h : Books rules (if fate = .failed then [chunk] else []) s) (hup : up.sent = s.up.sent)
    (hne : fate = .failed → chunk ≠ []) : Books rules [] ({ s with up }.discard chunk fate) where
  map := h.map
  sent := by
    rw [MapPump.discard, chunksOf_finish, if_neg hfate, append_nil]
    exact (h.move hup s.task).sent
  bytesIn := by
    have hlength : (if fate = .failed then [chunk] else []).flatten.length =
        if fate = .failed then chunk.length else 0 := by
      split_ifs <;> simp
    have hin := h.bytesIn
    rw [hlength] at hin
    rw [MapPump.discard, bytesOf_finish, bytesOf_finish, if_neg hfate, Nat.add_zero, ← Nat.add_assoc]
    exact hin
  discarded := by
    rw [MapPump.discard, bytesOf_finish, bytesOf_finish]
    refine (congrArg (wrappingAdd · _) h.discarded).trans ((wrappingAdd_mod _ _).trans ?_)
    refine congrArg (· % u64Size) ?_
    cases fate with
    | delivered => exact absurd rfl hfate
    | discarded => exact Nat.add_right_comm _ _ _
    | failed => exact Nat.add_assoc _ _ _
  counts r := by
    rw [MapPump.discard, chunksOf_finish, chunksOf_finish, if_neg hfate, append_nil, matched_append,
      ← Nat.add_assoc]
    exact h.counts r
  failed := by
    rw [MapPump.discard, chunksOf_finish]
    intro c hc
    rcases mem_append.mp hc with hc | hc
    · exact h.failed c hc
    · split_ifs at hc with hf
      · exact mem_singleton.mp hc ▸ hne hf
      · cases hc

end books

def transformed : MapTask → List Chunk
  | .forwarding _ chunk (.sending _) => [chunk]
  | _ => []

structure Kept (rules : List Mapping) (s : MapPump) : Prop where
  books : Books rules (transformed s.task) s
  payload : ∀ b chunk c, s.task = .forwarding b chunk (.sending c) → s.payload chunk = some c
  dequeued : s.dequeued = s.handled.map (·.1) ++ s.hand

variable {b : WritableOrigin} {chunk : Chunk} {phase : Forward}

theorem Books.sends {c : Chunk} {made : Bool}
    (h : Books rules (transformed (.forwarding b chunk phase)) s)
    (hs : Upstream.Sends (s.payload chunk) phase made c) :
    Books rules [chunk] (if made then s.transform chunk else s) := by
  rcases hs with ⟨rfl, rfl⟩ | ⟨hphase, -, rfl⟩
  · exact h
  · cases phase with
    | entering | locking => exact h.transform chunk
    | sending c' => cases hphase

theorem ite_transform_sent (made : Bool) (chunk : Chunk) :
    (if made then s.transform chunk else s).up.sent = s.up.sent := by
  cases made <;> rfl

theorem ite_transform_payload (made : Bool) (chunk c : Chunk) :
    (if made then s.transform chunk else s).payload c = s.payload c := by
  cases made <;> rfl

theorem Kept.finish {s' : MapPump} {fate : MapFate} (h : Books rules [] (s'.finish chunk fate))
    (hdeq : s'.dequeued = s'.handled.map (·.1) ++ [chunk]) : Kept rules (s'.finish chunk fate) := by
  refine ⟨h, nofun, hdeq.trans ?_⟩
  simp [MapPump.finish, hand]

theorem ite_transform_dequeued (made : Bool) (hdeq : s.dequeued = s.handled.map (·.1) ++ [chunk]) :
    (if made then s.transform chunk else s).dequeued =
      (if made then s.transform chunk else s).handled.map (·.1) ++ [chunk] := by
  cases made <;> exact hdeq

theorem Kept.forward (h : Books rules (transformed (.forwarding b chunk phase)) s)
    (hpay : ∀ c, phase = .sending c → s.payload chunk = some c)
    (hdeq : s.dequeued = s.handled.map (·.1) ++ [chunk]) (room : Bool) :
    Kept rules (s.forward b chunk phase room) := by
  obtain ⟨puts, hpolled, hsent⟩ := s.up.forwardTargetward_polled b (s.payload chunk) phase room
  have hnone (hphase : phase.isSending = false) : Books rules [] s := by
    cases phase with
    | entering | locking => exact h
    | sending c => cases hphase
  unfold MapPump.forward
  generalize s.up.forwardTargetward b (s.payload chunk) phase room = r at hpolled hsent ⊢
  obtain ⟨f, up⟩ := r
  cases hpolled with
  | refused hphase =>
    have hfate : Forwarded.failed ⟨false, .lost⟩ phase = false := by
      simp [Forwarded.failed, hphase]
    dsimp only
    rw [hfate]
    exact .finish (.discard .discarded (by decide) (hnone hphase) (by simpa using hsent) nofun) hdeq
  | parked hphase =>
    refine ⟨(hnone hphase).move (by simpa using hsent) _, ?_, hdeq⟩
    rintro b' chunk' c' heq
    cases heq
  | empty hphase hp =>
    have hputs := payload_eq_none h.map hp
    exact .finish (((hnone hphase).transform chunk).deliver hsent hputs.symm) hdeq
  | @waiting made c hs hopen =>
    refine ⟨(h.sends hs).move (by simpa [ite_transform_sent] using hsent) _, ?_,
      ite_transform_dequeued made hdeq⟩
    rintro b' chunk' c' heq
    cases heq
    exact (ite_transform_payload made chunk chunk).trans (hs.payload_eq hpay)
  | @sent made c hs hopen =>
    have hputs := (payload_eq_some h.map (hs.payload_eq hpay)).1
    rw [← ite_transform_sent made chunk] at hsent
    exact .finish ((h.sends hs).deliver hsent (by simpa using hputs))
      (ite_transform_dequeued made hdeq)
  | @closed made c hs hclosed =>
    have hne := (payload_eq_some h.map (hs.payload_eq hpay)).2
    have hfate : Forwarded.failed ⟨made, .lost⟩ phase = true := by
      rcases hs with ⟨rfl, -⟩ | ⟨-, -, rfl⟩ <;> simp [Forwarded.failed, Forward.isSending]
    rw [← ite_transform_sent made chunk] at hsent
    dsimp only
    rw [hfate]
    exact .finish (.discard .failed (by decide) (h.sends hs) (by simpa using hsent) fun _ => hne)
      (ite_transform_dequeued made hdeq)

theorem Kept.handle (h : Books rules [] s) (hdeq : s.dequeued = s.handled.map (·.1) ++ [chunk])
    (room : Bool) : Kept rules (s.handle chunk room) := by
  unfold MapPump.handle
  split
  · refine ⟨h.move rfl _, ?_, hdeq⟩
    rintro b' chunk' c' heq
    cases heq
  · exact .finish (.discard .discarded (by decide) h rfl nofun) hdeq
  · exact Kept.forward h (fun c hc => by cases hc) hdeq room

theorem Kept.step (h : Kept rules s) {a : MapAct} (ha : s.Allowed a) : Kept rules (s.step a) := by
  obtain ⟨hbooks, hpay, hdeq⟩ := h
  cases a with
  | take chunk room =>
    have hidle : s.task = .idle := ha
    rw [hidle] at hbooks
    refine Kept.handle (hbooks.take _) ?_ room
    rw [hdeq, hand, hidle, append_nil]
  | poll room =>
    unfold MapPump.step
    dsimp only
    cases htask : s.task with
    | idle => exact ⟨hbooks, hpay, hdeq⟩
    | parked chunk =>
      rw [htask] at hbooks
      rw [hand, htask] at hdeq
      exact Kept.handle hbooks hdeq room
    | forwarding b chunk phase =>
      rw [htask] at hbooks
      rw [hand, htask] at hdeq
      exact Kept.forward hbooks (fun c hc => hpay b chunk c (hc ▸ htask)) hdeq room
  | upstream a => exact ⟨hbooks.move (by simp) s.task, hpay, hdeq⟩

def outcome (chunk : Chunk) (phase : Forward) (f : Forwarded) : List (Chunk × MapFate) :=
  match f.progress with
  | .pending _ => []
  | .delivered => [(chunk, .delivered)]
  | .lost => [(chunk, if f.failed phase then .failed else .discarded)]

theorem forward_handled (b : WritableOrigin) (chunk : Chunk) (phase : Forward) (room : Bool) :
    (s.forward b chunk phase room).handled = s.handled ++
      outcome chunk phase (s.up.forwardTargetward b (s.payload chunk) phase room).1 := by
  unfold MapPump.forward
  generalize s.up.forwardTargetward b (s.payload chunk) phase room = r
  obtain ⟨⟨made, progress⟩, up⟩ := r
  have hmade : (if made then s.transform chunk else s).handled = s.handled := by
    cases made <;> rfl
  cases progress with
  | pending phase' => exact hmade.trans (append_nil _).symm
  | delivered => exact congrArg (· ++ [(chunk, MapFate.delivered)]) hmade
  | lost => exact congrArg (· ++ [_]) hmade

theorem forwardTargetward_failed (u : Upstream) (b : WritableOrigin) (payload : Option Chunk)
    (phase : Forward) (room : Bool) :
    (u.forwardTargetward b payload phase room).1.failed phase =
      (!(u.queues b.tx).isOpen && (phase.isSending || payload.isSome &&
        (reacquireHeld (u.locks b.lock) b.id (phase = .entering)).1 = .granted)) := by
  have hsend (u' : Upstream) (hqueues : u'.queues = u.queues) (c : Chunk) :
      decide ((u'.send b.tx c room).1 = .lost) = !(u.queues b.tx).isOpen := by
    unfold Upstream.send
    rw [hqueues]
    rcases (u.queues b.tx).trySend_cases c with ⟨ho, -, hok, -⟩ | ⟨ho, -, hfull⟩ | ⟨ho, hclosed⟩
    · rw [← Prod.mk.eta (p := (u.queues b.tx).trySend c), hok, ho]
      cases room <;> rfl
    · rw [hfull, ho]
      rfl
    · rw [hclosed, ho]
      rfl
  have hlocking (entering : Bool) (hphase : phase.isSending = false) :
      (u.forwardLocking b payload entering room).1.failed phase =
        (!(u.queues b.tx).isOpen && (payload.isSome &&
          (reacquireHeld (u.locks b.lock) b.id entering).1 = .granted)) := by
    unfold Upstream.forwardLocking Upstream.reacquire Forwarded.failed
    generalize reacquireHeld (u.locks b.lock) b.id entering = gate
    obtain ⟨answer, cell⟩ := gate
    cases answer with
    | refused | pending => simp [hphase]
    | granted =>
      cases payload with
      | none => simp
      | some c => simp [← hsend { u with locks := update u.locks b.lock cell } rfl c]
  cases phase with
  | entering => exact hlocking true rfl
  | locking => exact hlocking false rfl
  | sending c =>
    change (true && decide ((u.send b.tx c room).1 = .lost)) = (!(u.queues b.tx).isOpen && true)
    rw [Bool.true_and, Bool.and_true, hsend u rfl c]

theorem forward_failed (hmap : s.map = .compile rules) (b : WritableOrigin) (chunk : Chunk)
    (phase : Forward) (room : Bool) :
    (s.forward b chunk phase room).chunksOf .failed = [] ↔ s.chunksOf .failed = [] ∧
      (!(s.up.queues b.tx).isOpen && (phase.isSending || !(mapping rules [chunk]).isEmpty &&
        (reacquireHeld (s.up.locks b.lock) b.id (phase = .entering)).1 = .granted)) = false := by
  have hpayload : (s.payload chunk).isSome = !(mapping rules [chunk]).isEmpty := by
    rw [payload, apply_eq_mapping hmap]
    cases (mapping rules [chunk]).isEmpty <;> rfl
  rw [← hpayload, ← forwardTargetward_failed s.up b (s.payload chunk) phase room, chunksOf,
    forward_handled, filter_append, map_append, append_eq_nil_iff]
  refine and_congr_right fun _ => ?_
  generalize (s.up.forwardTargetward b (s.payload chunk) phase room).1 = f
  obtain ⟨made, progress⟩ := f
  cases progress with
  | pending | delivered => simp [outcome, Forwarded.failed]
  | lost =>
    cases hf : Forwarded.failed ⟨made, .lost⟩ phase <;> simp [outcome, hf]

theorem handle_failed (hmap : s.map = .compile rules) (chunk : Chunk) (room : Bool) :
    (s.handle chunk room).chunksOf .failed = [] ↔
      s.chunksOf .failed = [] ∧ s.meetsClosed rules (.take chunk room) = false := by
  unfold MapPump.handle meetsClosed forwards
  cases s.up.edge.awaitOrigin with
  | none => exact (and_iff_left rfl).symm
  | some origin =>
    cases origin with
    | none =>
      dsimp only [discard]
      rw [chunksOf_finish, if_neg (by decide), append_nil]
      exact (and_iff_left rfl).symm
    | some b => exact forward_failed hmap b chunk .entering room

theorem step_failed (hmap : s.map = .compile rules) (a : MapAct) :
    (s.step a).chunksOf .failed = [] ↔
      s.chunksOf .failed = [] ∧ s.meetsClosed rules a = false := by
  cases a with
  | take chunk room =>
    exact handle_failed (s := { s with dequeued := s.dequeued ++ [chunk] }) hmap chunk room
  | poll room =>
    have hparked (chunk : Chunk) := handle_failed hmap chunk room
    unfold MapPump.step meetsClosed forwards at *
    dsimp only at *
    cases s.task with
    | idle => exact (and_iff_left rfl).symm
    | parked chunk => exact hparked chunk
    | forwarding b chunk phase => exact forward_failed hmap b chunk phase room
  | upstream a => exact (and_iff_left rfl).symm

theorem run_failed (h : Kept rules s) {as : List MapAct} (hl : machine.Legal s as) :
    (machine.run s as).chunksOf .failed = [] ↔
      s.chunksOf .failed = [] ∧ machine.Each (fun s a => s.meetsClosed rules a = false) s as := by
  induction as generalizing s with
  | nil => exact (and_iff_left trivial).symm
  | cons a as ih =>
    have hstep : Kept rules (machine.step s a) := h.step hl.1
    rw [Runs.Machine.run_cons, ih hstep hl.2, Runs.Machine.Each]
    change (s.step a).chunksOf .failed = [] ∧ _ ↔ _
    rw [step_failed h.books.map, and_assoc]

def Truthful (rules : List Mapping) (s : MapPump) : Prop :=
  s.bytesIn + s.discarded = s.handledBytes ∧
    ∀ r, s.ruleCounts r = matched rules r (s.chunksOf .delivered)

theorem Books.truthful_iff (h : Books rules [] s) (hfew : s.handledBytes < u64Size) :
    s.Truthful rules ↔ s.chunksOf .failed = [] := by
  have hbytes := s.handledBytes_eq
  -- below the limit no counter has wrapped
  have hin : s.bytesIn = s.bytesOf .delivered + s.bytesOf .failed :=
    h.bytesIn.trans (Nat.mod_eq_of_lt (by simp; omega))
  have hdiscarded : s.discarded = s.bytesOf .discarded + s.bytesOf .failed :=
    h.discarded.trans (Nat.mod_eq_of_lt (by omega))
  constructor
  · rintro ⟨heq, -⟩
    have hzero : (s.chunksOf .failed).flatten = [] :=
      eq_nil_of_length_eq_zero (by change s.bytesOf .failed = 0; omega)
    refine eq_nil_iff_forall_not_mem.mpr fun chunk hmem => ?_
    exact h.failed chunk hmem (flatten_eq_nil_iff.mp hzero chunk hmem)
  · intro hnone
    have hzero : s.bytesOf .failed = 0 := by
      rw [bytesOf, hnone]
      rfl
    refine ⟨by omega, fun r => ?_⟩
    have hle : matched rules r (s.chunksOf .delivered) ≤ s.bytesOf .delivered := matched_le ..
    rw [h.counts r, hnone, matched_nil, Nat.add_zero, Nat.mod_eq_of_lt (by omega)]

/-- Whatever a step of the node itself counts as sent enters the queues. -/
def Hands (s : MapPump) : MapAct → Prop
  | .take chunk room => s.up.Hands (s.step (.take chunk room)).up
  | .poll room => s.up.Hands (s.step (.poll room)).up
  | .upstream _ => True

theorem forward_hands (s : MapPump) (b : WritableOrigin) (chunk : Chunk) (phase : Forward)
    (room : Bool) : s.up.Hands (s.forward b chunk phase room).up := by
  have hup := s.up.forwardTargetward_hands b (s.payload chunk) phase room
  unfold MapPump.forward
  dsimp only
  split <;> exact hup

theorem handle_hands (s : MapPump) (chunk : Chunk) (room : Bool) :
    s.up.Hands (s.handle chunk room).up := by
  unfold MapPump.handle
  split
  · exact .refl _
  · exact .refl _
  · exact s.forward_hands _ chunk .entering room

theorem step_hands (s : MapPump) (a : MapAct) : s.Hands a := by
  cases a with
  | take chunk room => exact handle_hands { s with dequeued := s.dequeued ++ [chunk] } chunk room
  | poll room =>
    unfold Hands MapPump.step
    dsimp only
    split
    · exact .refl _
    · exact s.handle_hands _ room
    · exact s.forward_hands _ _ _ room
  | upstream a => trivial

theorem map_counters_iff (rules : List Mapping) (edge : TargetEdge) (locks : LockRef → LockCell)
    (queues : ℕ → Channel Chunk) (as : List MapAct)
    (hl : machine.Legal (start rules edge locks queues) as) :
    let s := machine.run (start rules edge locks queues) as
    s.dequeued = s.handled.map (·.1) ++ s.hand ∧
    s.sentBytes = mapping rules (s.chunksOf .delivered) ∧
    machine.Each Hands (start rules edge locks queues) as ∧
    (s.task = .idle → s.handledBytes < u64Size →
      (s.Truthful rules ↔ machine.Each (fun s a => s.meetsClosed rules a = false)
        (start rules edge locks queues) as)) := by
  intro s
  have hstart : Kept rules (start rules edge locks queues) :=
    ⟨Books.start rules edge locks queues, nofun, rfl⟩
  have hkept : Kept rules s := Runs.Machine.invariant (fun _ _ h ha => h.step ha) hstart hl
  refine ⟨hkept.dequeued, hkept.books.sent, Runs.Machine.each_of_forall step_hands _ _,
    fun hidle hfew => ?_⟩
  have hbooks := hkept.books
  rw [hidle] at hbooks
  rw [hbooks.truthful_iff hfew, run_failed hstart hl]
  exact and_iff_right rfl

def unconnected : MapPump := start [.crlf] {} (fun _ => ⟨.new .exclusive, false⟩) fun _ => .new 1

def connected : List MapAct :=
  [.upstream (.lockOp 0 (.register 7 "map" .held)), .upstream (.setEdge ⟨some (0, 7), some 0, true⟩)]

def stolenRun : List MapAct :=
  connected ++ [.take [0x61, 0x0d] true, .upstream (.receive 0),
    .upstream (.lockOp 0 (.register 9 "send" .onDemand)), .upstream (.lockOp 0 (.steal 9)),
    .take [0x0d] true, .poll true, .upstream (.lockOp 0 (.unregister 9)), .poll true,
    .upstream (.setEdge ⟨some (0, 7), none, true⟩), .take [1, 2] true]

theorem map_counters_iff_stolenRun :
    (machine.run unconnected stolenRun).sentBytes = [0x61, 0x0a, 0x0a] ∧
      (machine.run unconnected stolenRun).bytesIn = 3 ∧
      (machine.run unconnected stolenRun).discarded = 2 ∧
      (machine.run unconnected stolenRun).handled =
        [([0x61, 0x0d], .delivered), ([0x0d], .delivered), ([1, 2], .discarded)] ∧
      (machine.run unconnected stolenRun).Truthful [.crlf] := by
  have hlegal : machine.Legal unconnected stolenRun := by decide +kernel
  have hidle : (machine.run unconnected stolenRun).task = .idle := by decide +kernel
  rw [← and_assoc, ← and_assoc, ← and_assoc]
  refine ⟨by decide +kernel, ?_⟩
  exact ((map_counters_iff _ _ _ _ _ hlegal).2.2.2 hidle (by decide +kernel)).mpr (by decide +kernel)

def closedRun : List MapAct :=
  connected ++ [.upstream (.put 0 [0x78]), .take [0x0d] true, .upstream (.hangUp 0), .poll true]

theorem failed_send_counted_twice :
    machine.Legal unconnected closedRun ∧ (machine.run unconnected closedRun).task = .idle ∧
      (machine.run unconnected closedRun).handledBytes = 1 ∧
      (machine.run unconnected closedRun).bytesIn = 1 ∧
      (machine.run unconnected closedRun).discarded = 1 ∧
      (machine.run unconnected closedRun).ruleCounts 0 = 1 ∧
      (machine.run unconnected closedRun).sentBytes = [] ∧
      (machine.run unconnected closedRun).chunksOf .delivered = [] ∧
      ¬ (machine.run unconnected closedRun).Truthful [.crlf] := by
  have hbytes : (machine.run unconnected closedRun).bytesIn +
      (machine.run unconnected closedRun).discarded ≠
        (machine.run unconnected closedRun).handledBytes := by decide +kernel
  simp only [← and_assoc]
  exact ⟨by decide +kernel, fun h => hbytes h.1⟩

end MapPump
end SerialNexus
