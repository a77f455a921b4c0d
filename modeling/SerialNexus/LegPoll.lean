import SerialNexus.LegChannel

/-! # What a poll of a leg channel does

A poll of `channel_targetward` (`nodes/leg.rs`) ends the handling of at most one chunk, the oldest
one; the chunk is then delivered, purged or discarded. -/

namespace SerialNexus

open List Function

structure LockCell.Tame (c c' : LockCell) : Prop where
  closed : c'.closed = c.closed
  modes : c'.lock.writeMode = c.lock.writeMode
  holder : c.lock.HolderWrites → c'.lock.HolderWrites

theorem LockCell.Tame.refl (c : LockCell) : c.Tame c := ⟨rfl, rfl, id⟩

theorem LockCell.Tame.trans {a b c : LockCell} (h : a.Tame b) (h' : b.Tame c) : a.Tame c :=
  ⟨h'.closed.trans h.closed, h'.modes.trans h.modes, h'.holder ∘ h.holder⟩

theorem LockCell.Tame.writer {a b : LockCell} (h : a.Tame b) (id : OriginId) :
    b.lock.Writer id ↔ a.lock.Writer id := by
  rw [EndpointLock.writer_iff, EndpointLock.writer_iff, h.modes]

theorem LockCell.tame_apply (c : LockCell) (op : EndpointLock.Op) (ha : c.lock.Allowed op)
    (hm : op.modes c.lock.writeMode = c.lock.writeMode) :
    c.Tame { c with lock := c.lock.apply op } :=
  ⟨rfl, (c.lock.apply_writeMode op).trans hm, fun h => EndpointLock.apply_holderWrites h op ha⟩

namespace LegChannel

theorem tryAcquire_spec (cell : LockCell) (id : OriginId) :
    cell.Tame (tryAcquire cell id).2 ∧
      ((tryAcquire cell id).1 = some false ↔ cell.closed = true ∨ ¬ cell.lock.Writer id) := by
  unfold tryAcquire
  by_cases hc : cell.closed = true
  · rw [if_pos hc]
    exact ⟨.refl _, iff_of_true rfl (.inl hc)⟩
  rw [if_neg hc]
  have htame := cell.tame_apply (.acquire id) trivial rfl
  by_cases hw : cell.lock.Writer id
  · have hno : ¬ (cell.closed = true ∨ ¬ cell.lock.Writer id) := by tauto
    have henqueue : ∀ l, LockCell.Tame cell { cell with lock := l } →
        LockCell.Tame cell { cell with lock := l.enqueue id } := fun l hl =>
      hl.trans (LockCell.tame_apply { cell with lock := l } (.enqueue id) trivial rfl)
    change LockCell.Tame cell { cell with lock := (cell.lock.acquire id).2 } at htame
    rcases hacq : cell.lock.acquire id with ⟨answer, l⟩
    rw [hacq] at htame
    rcases EndpointLock.acquire_of_writer hw with h | h | ⟨other, h⟩
    all_goals
      rw [hacq] at h
      obtain rfl : answer = _ := h
    · exact ⟨htame, iff_of_false nofun hno⟩
    · exact ⟨htame, iff_of_false nofun hno⟩
    · exact ⟨henqueue l htame, iff_of_false nofun hno⟩
  · rcases EndpointLock.acquire_refused hw with h | h
    · rw [h]
      exact ⟨.refl _, iff_of_true rfl (.inr hw)⟩
    · rw [h]
      exact ⟨.refl _, iff_of_true rfl (.inr hw)⟩

end LegChannel

inductive ChunkFate where
  | delivered (tx : ℕ)
  | purged
  | discarded
deriving DecidableEq, Repr

namespace ChunkFate

def isDelivered : ChunkFate → Bool
  | .delivered _ => true
  | _ => false

def isPurged : ChunkFate → Bool
  | .purged => true
  | _ => false

def isDiscarded : ChunkFate → Bool
  | .discarded => true
  | _ => false

end ChunkFate

def tally (p : ChunkFate → Bool) (done : List (Inbound × ChunkFate)) : ℕ :=
  (done.map fun x => if p x.2 then x.1.bytes.length else 0).sum

def deliveries (done : List (Inbound × ChunkFate)) : List (ℕ × Chunk) :=
  done.filterMap fun
    | (msg, .delivered tx) => some (tx, msg.bytes)
    | _ => none

theorem tally_append (p : ChunkFate → Bool) (done more : List (Inbound × ChunkFate)) :
    tally p (done ++ more) = tally p done + tally p more := by
  simp [tally]

theorem deliveries_bytes (done : List (Inbound × ChunkFate)) :
    ((deliveries done).map (·.2.length)).sum = tally ChunkFate.isDelivered done := by
  induction done with
  | nil => rfl
  | cons x done ih =>
    obtain ⟨msg, tx | - | -⟩ := x
    all_goals simpa [deliveries, tally, ChunkFate.isDelivered] using ih

theorem tally_partition (done : List (Inbound × ChunkFate)) :
    tally ChunkFate.isDelivered done + tally ChunkFate.isPurged done +
      tally ChunkFate.isDiscarded done = (done.map (·.1.bytes.length)).sum := by
  induction done with
  | nil => rfl
  | cons x done ih =>
    obtain ⟨msg, tx | - | -⟩ := x
    all_goals
      simp only [tally, ChunkFate.isDelivered, ChunkFate.isPurged, ChunkFate.isDiscarded,
        map_cons, sum_cons, if_true, Bool.false_eq_true, if_false] at ih ⊢
      omega

theorem deliveries_append (done more : List (Inbound × ChunkFate)) :
    deliveries (done ++ more) = deliveries done ++ deliveries more :=
  filterMap_append

def ChannelTask.binding : ChannelTask → Option WritableOrigin
  | .idle b | .holding b _ | .acquiring b _ | .racing b _ _ | .writing b _ => some b
  | .top | .unattached | .finished => none

def ChannelTask.inHand : ChannelTask → Option Inbound
  | .acquiring _ msg | .racing _ msg _ | .writing _ msg => some msg
  | _ => none

namespace LegChannel

def Dead (s : LegChannel) (b : WritableOrigin) : Prop :=
  (s.locks b.lock).closed = true ∨ ¬ (s.locks b.lock).lock.Writer b.id ∨
    (s.locals b.tx).isOpen = false

structure Handled (s s' : LegChannel) (b : Option WritableOrigin) (msg : Inbound)
    (fate : Option ChunkFate) : Prop where
  edge : s'.edge = s.edge
  inbox : s'.inbox = s.inbox
  epoch : s'.disconnectEpoch = s.disconnectEpoch
  locks : ∀ k, (s.locks k).Tame (s'.locks k)
  inHand : s'.task.inHand = if fate.isNone then some msg else none
  binding : s'.task.binding = if fate.isNone then b else none
  racing : ∀ b' msg' pulsed, s'.task = .racing b' msg' pulsed →
    s.task = .racing b' msg' pulsed ∨ pulsed = false ∧ msg'.epoch = s.disconnectEpoch
  accepted : s'.acceptedTargetward =
    s.acceptedTargetward + tally ChunkFate.isDelivered (fate.toList.map (Prod.mk msg))
  purged : s'.purgedOnReconnect =
    s.purgedOnReconnect + tally ChunkFate.isPurged (fate.toList.map (Prod.mk msg))
  discarded : s'.discardedTargetward =
    s.discardedTargetward + tally ChunkFate.isDiscarded (fate.toList.map (Prod.mk msg))
  handed : s'.handed.length = s.handed.length + fate.toList.countP ChunkFate.isDelivered
  purges : s'.purges.length = s.purges.length + fate.toList.countP ChunkFate.isPurged
  queues : ∀ k, (s'.locals k).queue =
    (s.locals k).queue ++ receivedBy k (deliveries (fate.toList.map (Prod.mk msg)))
  through : ∀ tx, fate = some (.delivered tx) → ∃ b', b = some b' ∧ b'.tx = tx
  stale : fate = some .purged → msg.epoch ≠ s.disconnectEpoch
  dead : fate = some .discarded → ∀ b', b = some b' → s.Dead b'

section handled
variable {s s₀ s' : LegChannel} {b : WritableOrigin} {msg : Inbound}

theorem setLock_tame (s : LegChannel) {lock : ℕ} {cell : LockCell}
    (h : (s.locks lock).Tame cell) (k : ℕ) : (s.locks k).Tame ((s.setLock lock cell).locks k) := by
  by_cases hk : k = lock
  · subst hk
    simpa [setLock] using h
  · simp only [setLock, update_of_ne hk]
    exact .refl _

theorem release_tame (s : LegChannel) (lock : ℕ) (id : OriginId) (k : ℕ) :
    (s.locks k).Tame ((s.release lock id).locks k) :=
  s.setLock_tame (LockCell.tame_apply _ (.release id) trivial rfl) k

theorem letGo_tame (s : LegChannel) (k : ℕ) : (s.locks k).Tame (s.letGo.locks k) := by
  unfold letGo
  split
  · exact s.release_tame _ _ k
  · exact .refl _

theorem letGo_eq (s : LegChannel) :
    s.letGo = { s with locks := s.letGo.locks, held := s.letGo.held } := by
  unfold letGo
  split <;> rfl

theorem Handled.after {binding : Option WritableOrigin} {fate : Option ChunkFate}
    (h : Handled s₀ s' binding msg fate) (hlocks : ∀ k, (s.locks k).Tame (s₀.locks k))
    (hsame : s₀ = { s with locks := s₀.locks, held := s₀.held }) :
    Handled s s' binding msg fate := by
  rw [hsame] at h
  refine { h with locks := fun k => (hlocks k).trans (h.locks k), dead := fun hf b' hb' => ?_ }
  have hd := h.dead hf b' hb'
  unfold Dead at hd ⊢
  rwa [(hlocks b'.lock).closed, (hlocks b'.lock).writer] at hd

theorem discard_handled (s : LegChannel) {s' : LegChannel} {binding : Option WritableOrigin}
    (msg : Inbound) (hdead : ∀ b', binding = some b' → s.Dead b')
    (hlocks : ∀ k, (s.locks k).Tame (s'.locks k))
    (hsame : s' = { s.discard msg with locks := s'.locks, held := s'.held, task := .top }) :
    Handled s s' binding msg (some .discarded) := by
  rw [hsame]
  exact ⟨rfl, rfl, rfl, hlocks, rfl, rfl, nofun, rfl, rfl, rfl, rfl, rfl,
    fun _ => (append_nil _).symm, nofun, nofun, fun _ => hdead⟩

theorem purge_handled (s : LegChannel) {s' : LegChannel} (binding : Option WritableOrigin)
    (hstale : msg.epoch ≠ s.disconnectEpoch) (hlocks : ∀ k, (s.locks k).Tame (s'.locks k))
    (hsame : s' = { s.purge msg with locks := s'.locks, held := s'.held, task := .top }) :
    Handled s s' binding msg (some .purged) := by
  rw [hsame]
  exact ⟨rfl, rfl, rfl, hlocks, rfl, rfl, nofun, rfl, rfl, rfl, rfl,
    by simp [purge, ChunkFate.isPurged], fun _ => (append_nil _).symm, nofun,
    fun _ => hstale, nofun⟩

theorem accept_eq (s : LegChannel) (b : WritableOrigin) (msg : Inbound) (queue : Channel Chunk) :
    s.accept b msg queue =
      { s with
        locals := update s.locals b.tx queue
        acceptedTargetward := s.acceptedTargetward + msg.bytes.length
        handed := s.handed ++ [⟨msg.epoch, s.disconnectEpoch⟩]
        task := .top
        locks := (s.accept b msg queue).locks
        held := (s.accept b msg queue).held } := by
  unfold accept
  dsimp only
  split_ifs <;> rfl

theorem accept_tame (s : LegChannel) (b : WritableOrigin) (msg : Inbound) (queue : Channel Chunk)
    (k : ℕ) : (s.locks k).Tame ((s.accept b msg queue).locks k) := by
  unfold accept
  dsimp only
  split_ifs
  · exact s.release_tame b.lock b.id k
  · exact .refl _

theorem accept_handled (s : LegChannel) (b : WritableOrigin) (msg : Inbound)
    {queue : Channel Chunk} (hq : queue.queue = (s.locals b.tx).queue ++ [msg.bytes]) :
    Handled s (s.accept b msg queue) (some b) msg (some (.delivered b.tx)) := by
  have hlocks := s.accept_tame b msg queue
  rw [accept_eq] at hlocks ⊢
  refine ⟨rfl, rfl, rfl, hlocks, rfl, rfl, nofun, rfl, rfl, rfl,
    by simp [ChunkFate.isDelivered], rfl, fun k => ?_,
    fun tx htx => ⟨b, rfl, ?_⟩, nofun, nofun⟩
  · by_cases hk : k = b.tx
    · subst hk
      simp [hq, receivedBy, deliveries]
    · simp [update_of_ne hk, Ne.symm hk, receivedBy, deliveries]
  · exact ChunkFate.delivered.inj (Option.some.inj htx)

theorem parked_handled (s : LegChannel) (parked : ChannelTask) (hb : parked.binding = some b)
    (hm : parked.inHand = some msg) (hr : ∀ b' msg' pulsed, parked = .racing b' msg' pulsed →
      s.task = .racing b' msg' pulsed ∨ pulsed = false ∧ msg'.epoch = s.disconnectEpoch) :
    Handled s { s with task := parked } (some b) msg none :=
  ⟨rfl, rfl, rfl, fun _ => .refl _, hm, hb, hr, rfl, rfl, rfl, rfl, rfl,
    fun _ => (append_nil _).symm, nofun, nofun, nofun⟩

theorem write_handled (s : LegChannel) (b : WritableOrigin) (msg : Inbound) (parked : ChannelTask)
    (hb : parked.binding = some b) (hm : parked.inHand = some msg)
    (hr : ∀ b' msg' pulsed, parked = .racing b' msg' pulsed →
      s.task = .racing b' msg' pulsed ∨ pulsed = false ∧ msg'.epoch = s.disconnectEpoch) :
    ∃ fate, Handled s (s.write b msg parked) (some b) msg fate := by
  unfold write
  rcases (s.locals b.tx).trySend_cases msg.bytes with
    ⟨-, -, hok, hq⟩ | ⟨-, -, he⟩ | ⟨hclosed, he⟩
  · rcases h : (s.locals b.tx).trySend msg.bytes with ⟨answer, queue⟩
    rw [h] at hok hq
    obtain rfl : answer = .ok := hok
    exact ⟨_, s.accept_handled b msg hq⟩
  · rw [he]
    exact ⟨none, s.parked_handled parked hb hm hr⟩
  · rw [he]
    refine ⟨_, s.discard_handled msg ?_ (s.release_tame b.lock b.id) rfl⟩
    rintro b' ⟨⟩
    exact .inr (.inr hclosed)

theorem startWrite_handled (s : LegChannel) (b : WritableOrigin) (msg : Inbound) :
    ∃ fate, Handled s (s.startWrite b msg) (some b) msg fate := by
  unfold startWrite
  dsimp only
  split_ifs with hstale hpurge
  · exact ⟨_, s.purge_handled _ (Ne.symm hstale.2) (s.release_tame b.lock b.id) rfl⟩
  · have hlive : msg.epoch = s.disconnectEpoch := by
      by_contra hne
      exact hstale ⟨hpurge, Ne.symm hne⟩
    obtain ⟨fate, h⟩ := write_handled { s with held := some (b.lock, b.id) } b msg
      (.racing b msg false) rfl rfl (by
        rintro b' msg' pulsed ⟨⟩
        exact .inr ⟨rfl, hlive⟩)
    exact ⟨fate, h.after (fun _ => .refl _) rfl⟩
  · obtain ⟨fate, h⟩ := write_handled { s with held := some (b.lock, b.id) } b msg
      (.writing b msg) rfl rfl nofun
    exact ⟨fate, h.after (fun _ => .refl _) rfl⟩

theorem attempt_handled (s : LegChannel) (b : WritableOrigin) (msg : Inbound) :
    ∃ fate, Handled s (s.attempt b msg) (some b) msg fate := by
  obtain ⟨htame, hrefused⟩ := tryAcquire_spec (s.locks b.lock) b.id
  have hlocks := s.setLock_tame htame
  unfold attempt
  dsimp only
  rcases hr : (tryAcquire (s.locks b.lock) b.id).1 with - | - | -
  · exact ⟨none, Handled.after (parked_handled _ (.acquiring b msg) rfl rfl nofun) hlocks rfl⟩
  · refine ⟨_, s.discard_handled msg ?_ hlocks rfl⟩
    rintro b' ⟨⟩
    exact (hrefused.mp hr).imp id .inl
  · obtain ⟨fate, h⟩ := (s.setLock b.lock _).startWrite_handled b msg
    exact ⟨fate, h.after hlocks rfl⟩

theorem handle_handled (s : LegChannel) (b : WritableOrigin) (msg : Inbound) :
    ∃ fate, Handled s (s.handle b msg) (some b) msg fate := by
  unfold handle
  split_ifs with hstale
  · refine ⟨_, s.purge_handled _ (Ne.symm hstale.2) (s.purge msg).letGo_tame ?_⟩
    rw [letGo_eq]
  · exact s.startWrite_handled b msg
  · exact s.attempt_handled b msg

def lostFate (s : LegChannel) (binding : Option WritableOrigin) (msg : Inbound) : ChunkFate :=
  if binding.isSome ∧ s.purgeOnReconnect ∧ s.disconnectEpoch ≠ msg.epoch then .purged
  else .discarded

theorem lostFate_cases (s : LegChannel) (binding : Option WritableOrigin) (msg : Inbound) :
    s.lostFate binding msg = .purged ∧ msg.epoch ≠ s.disconnectEpoch ∨
      s.lostFate binding msg = .discarded := by
  unfold lostFate
  split_ifs with h
  · exact .inl ⟨rfl, Ne.symm h.2.2⟩
  · exact .inr rfl

theorem handle_lost (s : LegChannel) (b : WritableOrigin) (msg : Inbound)
    (hb : ¬ (s.locks b.lock).lock.Writer b.id) :
    Handled s (s.handle b msg) (some b) msg (some (s.lostFate (some b) msg)) := by
  obtain ⟨htame, hrefused⟩ := tryAcquire_spec (s.locks b.lock) b.id
  unfold handle lostFate
  simp only [Option.isSome_some, true_and]
  split_ifs with hstale hmay
  · refine s.purge_handled _ (Ne.symm hstale.2) (s.purge msg).letGo_tame ?_
    rw [letGo_eq]
  · exact absurd (EndpointLock.mayWrite_writer hmay) hb
  · unfold attempt
    dsimp only
    rw [hrefused.mpr (.inr hb)]
    refine s.discard_handled msg ?_ (s.setLock_tame htame) rfl
    rintro b' ⟨⟩
    exact .inr (.inl hb)

end handled

def queued (s : LegChannel) : List Inbound := (s.inbox.slot.map (·.queue)).getD []

def slotOpen (s : LegChannel) : Bool := s.inbox.slot.any (·.isOpen)

def pending (s : LegChannel) : List Inbound := s.task.inHand.toList ++ s.queued

def taken (s : LegChannel) (arm : Arm) : Option Inbound :=
  match s.task, arm with
  | .unattached, _ | .idle _, _ | .holding _ _, .message => s.queued.head?
  | _, _ => none

def Raced (s : LegChannel) : Prop :=
  ∀ b msg pulsed, s.task = .racing b msg pulsed →
    if pulsed then msg.epoch < s.disconnectEpoch else msg.epoch = s.disconnectEpoch

structure Polls (s s' : LegChannel) (done : Option (Inbound × ChunkFate)) : Prop where
  edge : s'.edge = s.edge
  epoch : s'.disconnectEpoch = s.disconnectEpoch
  slotOpen : s'.slotOpen = s.slotOpen
  locks : ∀ k, (s.locks k).Tame (s'.locks k)
  pending : s.pending = done.toList.map Prod.fst ++ s'.pending
  inHand : done.isSome → s'.task.inHand = none
  writer : s.task.inHand = none → s'.task.inHand.isSome →
    ∃ b, s.task.binding = some b ∧ (s.locks b.lock).lock.Writer b.id
  binding : s'.task.binding = s.task.binding ∨
    s'.task.inHand = none ∧ (s'.task.binding = none ∨ s'.task.binding = s.edge)
  racing : ∀ b msg pulsed, s'.task = .racing b msg pulsed →
    s.task = .racing b msg pulsed ∨ pulsed = false ∧ msg.epoch = s.disconnectEpoch
  accepted : s'.acceptedTargetward = s.acceptedTargetward + tally ChunkFate.isDelivered done.toList
  purged : s'.purgedOnReconnect = s.purgedOnReconnect + tally ChunkFate.isPurged done.toList
  discarded : s'.discardedTargetward = s.discardedTargetward + tally ChunkFate.isDiscarded done.toList
  handed : s'.handed.length = s.handed.length + done.toList.countP (·.2.isDelivered)
  purges : s'.purges.length = s.purges.length + done.toList.countP (·.2.isPurged)
  queues : ∀ k, (s'.locals k).queue = (s.locals k).queue ++ receivedBy k (deliveries done.toList)
  through : ∀ msg tx, done = some (msg, .delivered tx) → ∃ b, s.task.binding = some b ∧ b.tx = tx
  stale : ∀ msg, done = some (msg, .purged) → msg.epoch ≠ s.disconnectEpoch
  dead : ∀ msg, done = some (msg, .discarded) → ∀ b, s.task.binding = some b → s.Dead b

section polls
variable {s s' : LegChannel}

theorem Polls.idle (hs : s.task.inHand = none) (hs' : s'.task.inHand = none)
    (hbinding : s'.task.binding = s.task.binding ∨ s'.task.binding = none ∨
      s'.task.binding = s.edge) (hqueued : s'.queued = s.queued) (hopen : s'.slotOpen = s.slotOpen)
    (hlocks : ∀ k, (s.locks k).Tame (s'.locks k))
    (hsame : s' = { s with inbox := s'.inbox, locks := s'.locks, held := s'.held,
                           task := s'.task }) :
    s.Polls s' none where
  edge := by rw [hsame]
  epoch := by rw [hsame]
  slotOpen := hopen
  locks := hlocks
  pending := by simp [LegChannel.pending, hs, hs', hqueued]
  inHand := nofun
  writer := by simp [hs']
  binding := hbinding.imp id fun h => ⟨hs', h⟩
  racing := by
    intro b msg pulsed ht
    simp [ht, ChannelTask.inHand] at hs'
  accepted := by rw [hsame]; rfl
  purged := by rw [hsame]; rfl
  discarded := by rw [hsame]; rfl
  handed := by rw [hsame]; rfl
  purges := by rw [hsame]; rfl
  queues := fun k => by rw [hsame]; exact (append_nil _).symm
  through := nofun
  stale := nofun
  dead := nofun

variable {msg : Inbound} {rest : List Inbound} {fate : Option ChunkFate}
  {k : LegChannel → Inbound → LegChannel} {arm : Arm}

theorem Handled.polls {inbox : TargetwardInbox Inbound}
    (h : Handled { s with inbox } s' s.task.binding msg fate) (hpending : s.pending = msg :: rest)
    (hrest : ({ s with inbox } : LegChannel).queued = rest)
    (hopen : ({ s with inbox } : LegChannel).slotOpen = s.slotOpen)
    (hw : s.task.inHand = none → fate = none →
      ∃ b, s.task.binding = some b ∧ (s.locks b.lock).lock.Writer b.id) :
    s.Polls s' (fate.map (Prod.mk msg)) := by
  have hqueued : s'.queued = rest :=
    (congrArg (fun i => (i.slot.map (·.queue)).getD []) h.inbox).trans hrest
  have hopen' : s'.slotOpen = s.slotOpen :=
    (congrArg (fun i => i.slot.any (·.isOpen)) h.inbox).trans hopen
  cases fate with
  | none =>
    refine ⟨h.edge, h.epoch, hopen', h.locks, ?_, nofun, fun hm _ => hw hm rfl, .inl h.binding,
      h.racing, h.accepted, h.purged, h.discarded, h.handed, h.purges, h.queues, nofun, nofun,
      nofun⟩
    rw [hpending, pending, h.inHand, hqueued]
    rfl
  | some fate =>
    refine ⟨h.edge, h.epoch, hopen', h.locks, ?_, fun _ => h.inHand, by simp [h.inHand],
      .inr ⟨h.inHand, .inl h.binding⟩, h.racing, h.accepted, h.purged, h.discarded, h.handed,
      h.purges, h.queues, ?_, ?_, ?_⟩
    · rw [hpending, pending, h.inHand, hqueued]
      rfl
    · rintro _ tx ⟨⟩
      exact h.through tx rfl
    · rintro _ ⟨⟩
      exact h.stale rfl
    · rintro _ ⟨⟩
      exact h.dead rfl

theorem Handled.polls_inHand {b : WritableOrigin} (h : s.Handled s' (some b) msg fate)
    (hb : s.task.binding = some b) (hm : s.task.inHand = some msg) :
    s.Polls s' (fate.map (Prod.mk msg)) := by
  rw [← hb] at h
  refine Handled.polls h ?_ rfl rfl (by simp [hm])
  rw [pending, hm]
  rfl

theorem receive_idle (hm : s.task.inHand = none) (hq : s.queued = []) :
    s.Polls (s.receive k) none := by
  have hfinish : ∀ inbox : TargetwardInbox Inbound, inbox.slot = s.inbox.slot →
      s.Polls { ({ s with inbox }).letGo with task := .finished } none := by
    intro inbox hslot
    have hsame := ({ s with inbox } : LegChannel).letGo_eq
    have hlocks := ({ s with inbox } : LegChannel).letGo_tame
    rw [hsame] at hlocks ⊢
    refine .idle hm rfl (.inr (.inl rfl)) ?_ ?_ hlocks rfl
    · simp only [queued, hslot]
    · simp only [slotOpen, hslot]
  unfold receive TargetwardInbox.pollRecv
  dsimp only [TargetwardInbox.settleHeld]
  cases hslot : s.inbox.slot with
  | none => exact hfinish _ hslot.symm
  | some rx =>
    have hnil : rx.queue = [] := by simpa [queued, hslot] using hq
    dsimp only
    rw [rx.recv_of_nil hnil]
    dsimp only
    by_cases hs : s.senders = true
    · rw [if_pos hs]
      refine .idle hm hm (.inl rfl) ?_ ?_ (fun _ => .refl _) rfl
      · simp only [queued, hslot]
      · simp only [slotOpen, hslot]
    · rw [if_neg hs]
      exact hfinish _ hslot.symm

theorem receive_message (hq : s.queued = msg :: rest) :
    ∃ inbox, s.receive k = k { s with inbox } msg ∧ ({ s with inbox } : LegChannel).queued = rest ∧
      ({ s with inbox } : LegChannel).slotOpen = s.slotOpen := by
  unfold receive TargetwardInbox.pollRecv
  dsimp only [TargetwardInbox.settleHeld]
  cases hslot : s.inbox.slot with
  | none => simp [queued, hslot] at hq
  | some rx =>
    have hcons : rx.queue = msg :: rest := by simpa [queued, hslot] using hq
    have hopen := rx.recv_isOpen
    obtain ⟨hitem, hrest⟩ := rx.recv_of_cons hcons
    rcases hr : rx.recv with ⟨item, rx'⟩
    rw [hr] at hitem hrest hopen
    obtain rfl : item = some msg := hitem
    dsimp only
    refine ⟨⟨some rx', teardownBytes msg⟩, ?_, hrest, ?_⟩
    · rw [hr]
    · simpa [slotOpen, hslot] using hopen

theorem poll_of_taken (h : s.taken arm = some msg) :
    s.task.inHand = none ∧ s.queued.head? = some msg ∧
      s.poll arm = s.receive fun s' msg =>
        match s.task.binding with
        | none => { s'.discard msg with task := .top }
        | some b => s'.handle b msg := by
  unfold taken at h
  unfold poll
  split at h
  · next ht =>
    rw [ht]
    exact ⟨rfl, h, rfl⟩
  · next ht =>
    rw [ht]
    exact ⟨rfl, h, rfl⟩
  · next ht =>
    rw [ht]
    exact ⟨rfl, h, rfl⟩
  · cases h

theorem poll_taken (h : s.taken arm = some msg) :
    ∃ fate, s.Polls (s.poll arm) (fate.map (Prod.mk msg)) ∧
      ((∀ b, s.task.binding = some b → ¬ (s.locks b.lock).lock.Writer b.id) →
        fate = some (s.lostFate s.task.binding msg)) := by
  obtain ⟨hm, hhead, hpoll⟩ := poll_of_taken h
  obtain ⟨rest, hq⟩ := head?_eq_some_iff.mp hhead
  obtain ⟨inbox, hrec, hrest, hopen⟩ := receive_message
    (k := fun s' msg =>
      match s.task.binding with
      | none => { s'.discard msg with task := .top }
      | some b => s'.handle b msg) hq
  have hpending : s.pending = msg :: rest := by
    rw [pending, hm, hq]
    rfl
  rw [hpoll, hrec]
  have hpolls : ∀ {s' fate}, Handled { s with inbox } s' s.task.binding msg fate →
      (fate = none → ∃ b, s.task.binding = some b ∧ (s.locks b.lock).lock.Writer b.id) →
      s.Polls s' (fate.map (Prod.mk msg)) := fun hh hw =>
    hh.polls hpending hrest hopen fun _ => hw
  cases hb : s.task.binding with
  | none =>
    rw [hb] at hpolls
    refine ⟨some .discarded, hpolls ?_ nofun, fun _ => rfl⟩
    exact discard_handled _ msg nofun (fun _ => .refl _) rfl
  | some b =>
    rw [hb] at hpolls
    by_cases hw : (s.locks b.lock).lock.Writer b.id
    · obtain ⟨fate, hh⟩ := handle_handled { s with inbox } b msg
      exact ⟨fate, hpolls hh fun _ => ⟨b, rfl, hw⟩, fun hno => absurd hw (hno b rfl)⟩
    · exact ⟨_, hpolls (handle_lost { s with inbox } b msg hw) nofun, fun _ => rfl⟩

theorem Polls.refl (hm : s.task.inHand = none) : s.Polls s none :=
  .idle hm hm (.inl rfl) rfl rfl (fun _ => .refl _) rfl

theorem startOver_polls (hm : s.task.inHand = none) (b : WritableOrigin) :
    s.Polls (s.startOver b) none :=
  .idle hm rfl (.inr (.inl rfl)) rfl rfl (s.release_tame b.lock b.id) rfl

theorem yieldOldFloor_spec (s : LegChannel) :
    s.yieldOldFloor = { s with locks := s.yieldOldFloor.locks, held := s.yieldOldFloor.held } ∧
      ∀ k, (s.locks k).Tame (s.yieldOldFloor.locks k) := by
  unfold yieldOldFloor
  split
  · split_ifs
    · exact ⟨s.letGo_eq, s.letGo_tame⟩
    · exact ⟨rfl, fun _ => .refl _⟩
  · exact ⟨s.letGo_eq, s.letGo_tame⟩
  · exact ⟨rfl, fun _ => .refl _⟩

theorem readEdge_polls (hm : s.task.inHand = none) : s.Polls s.readEdge none := by
  obtain ⟨hsame, hlocks⟩ := s.yieldOldFloor_spec
  unfold readEdge
  cases he : s.edge with
  | none =>
    dsimp only
    rw [hsame] at hlocks ⊢
    exact .idle hm rfl (.inr (.inl rfl)) rfl rfl hlocks rfl
  | some b =>
    dsimp only
    rw [hsame] at hlocks ⊢
    split_ifs
    · exact .idle hm rfl (.inr (.inr he.symm)) rfl rfl hlocks rfl
    · exact .idle hm rfl (.inr (.inr he.symm)) rfl rfl hlocks rfl

theorem poll_untaken (hr : s.Raced) (h : s.taken arm = none) :
    ∃ done, s.Polls (s.poll arm) done ∧ (done.isSome → s.task.inHand.isSome) := by
  have hidle : s.task.inHand = none → s.queued.head? = none → ∀ k,
      ∃ done, s.Polls (s.receive k) done ∧ (done.isSome → s.task.inHand.isSome) := fun hm hq k =>
    ⟨none, receive_idle hm (head?_eq_none_iff.mp hq), nofun⟩
  have hrefl : s.task.inHand = none →
      ∃ done, s.Polls s done ∧ (done.isSome → s.task.inHand.isSome) := fun hm =>
    ⟨none, .refl hm, nofun⟩
  have hover : s.task.inHand = none → ∀ b,
      ∃ done, s.Polls (s.startOver b) done ∧ (done.isSome → s.task.inHand.isSome) := fun hm b =>
    ⟨none, startOver_polls hm b, nofun⟩
  have hhand : ∀ {b msg s'}, s.task.binding = some b → s.task.inHand = some msg →
      (∃ fate, s.Handled s' (some b) msg fate) →
      ∃ done, s.Polls s' done ∧ (done.isSome → s.task.inHand.isSome) := by
    rintro b msg s' hb hm ⟨fate, hh⟩
    exact ⟨_, hh.polls_inHand hb hm, fun _ => by rw [hm]; rfl⟩
  unfold taken at h
  unfold poll
  cases ht : s.task with
  | top => exact ⟨none, readEdge_polls (by rw [ht]; rfl), nofun⟩
  | unattached | idle =>
    rw [ht] at h hidle
    exact hidle rfl h _
  | holding b pulsed =>
    rw [ht] at h hidle hrefl hover
    cases arm with
    | message => exact hidle rfl h _
    | idleTimer => exact hover rfl b
    | disconnect =>
      dsimp only
      split_ifs
      · exact hover rfl b
      · exact hrefl rfl
    | write => exact hrefl rfl
  | acquiring b msg =>
    rw [ht] at hhand
    exact hhand rfl rfl (s.attempt_handled b msg)
  | racing b msg pulsed =>
    have hwait : ∃ fate, s.Handled s (some b) msg fate :=
      ⟨none, s.parked_handled s.task (by rw [ht]; rfl) (by rw [ht]; rfl) fun _ _ _ => .inl⟩
    rw [ht] at hhand
    cases arm with
    | write =>
      refine hhand rfl rfl (s.write_handled b msg _ rfl rfl ?_)
      rintro b' msg' pulsed' ⟨⟩
      exact .inl ht
    | disconnect =>
      dsimp only
      split_ifs with hp
      · have hlt := hr b msg pulsed ht
        rw [if_pos hp] at hlt
        exact hhand rfl rfl ⟨_, s.purge_handled _ hlt.ne (s.release_tame b.lock b.id) rfl⟩
      · exact hhand rfl rfl hwait
    | message | idleTimer => exact hhand rfl rfl hwait
  | writing b msg =>
    rw [ht] at hhand
    exact hhand rfl rfl (s.write_handled b msg _ rfl rfl nofun)
  | finished =>
    rw [ht] at hrefl
    exact hrefl rfl

end polls

structure Aside (s s' : LegChannel) (new : List Inbound) : Prop where
  edge : s'.edge = s.edge
  inHand : s'.task.inHand = s.task.inHand
  binding : s'.task.binding = s.task.binding
  raced : s.Raced → s'.Raced
  slotOpen : s'.slotOpen = s.slotOpen
  queued : s'.queued = s.queued ++ new
  accepted : s'.acceptedTargetward = s.acceptedTargetward
  purged : s'.purgedOnReconnect = s.purgedOnReconnect
  discarded : s'.discardedTargetward = s.discardedTargetward

theorem enqueue_aside {s : LegChannel} (h : s.slotOpen = true) : ∃ new, s.Aside s.enqueue new := by
  have hsame : s.Aside s [] := ⟨rfl, rfl, rfl, id, rfl, (append_nil _).symm, rfl, rfl, rfl⟩
  unfold enqueue
  cases ha : s.arriving with
  | none => exact ⟨[], hsame⟩
  | some msg =>
    cases hslot : s.inbox.slot with
    | none => simp [slotOpen, hslot] at h
    | some rx =>
      have hopen : rx.isOpen = true := by simpa [slotOpen, hslot] using h
      dsimp only
      by_cases hr : rx.queue.length < rx.cap
      · obtain ⟨hok, hq⟩ := rx.trySend_of_room hopen hr msg
        have hopen' := rx.trySend_isOpen msg
        rcases hsend : rx.trySend msg with ⟨answer, rx'⟩
        rw [hsend] at hok hq hopen'
        obtain rfl : answer = .ok := hok
        refine ⟨[msg], rfl, rfl, rfl, id, ?_, ?_, rfl, rfl, rfl⟩
        · simpa [slotOpen, hslot] using hopen'
        · simpa [queued, hslot] using hq
      · rw [rx.trySend_of_full hopen hr msg]
        exact ⟨[], hsame⟩

theorem enqueue_locks (s : LegChannel) : s.enqueue.locks = s.locks := by
  unfold enqueue
  split
  · split <;> rfl
  · rfl
  · rfl

theorem clearConnectionState_aside (s : LegChannel) : s.Aside s.clearConnectionState [] := by
  refine ⟨rfl, ?_, ?_, fun h b msg pulsed hr => ?_, rfl, (append_nil _).symm, rfl, rfl, rfl⟩
  · cases ht : s.task <;> simp [clearConnectionState, notifyWaiters, ht, ChannelTask.inHand]
  · cases ht : s.task <;> simp [clearConnectionState, notifyWaiters, ht, ChannelTask.binding]
  · -- Only a race can become a race; its peer is the one that just left, or an earlier one.
    cases ht : s.task <;>
      simp only [clearConnectionState, notifyWaiters, ht, reduceCtorEq,
        ChannelTask.racing.injEq] at hr
    case racing b' msg' pulsed' =>
      obtain ⟨rfl, rfl, rfl⟩ := hr
      have hle := h _ _ _ ht
      simp only [clearConnectionState, if_true]
      split_ifs at hle <;> omega

theorem step_aside {s : LegChannel} (h : s.slotOpen = true) {a : LegAct}
    (hpoll : ∀ arm, a ≠ .poll arm) (hedge : ∀ edge, a ≠ .setEdge edge) :
    ∃ new, s.Aside (s.step a) new := by
  cases a with
  | poll arm => exact absurd rfl (hpoll arm)
  | setEdge edge => exact absurd rfl (hedge edge)
  | enqueue => exact enqueue_aside h
  | disconnect => exact ⟨[], s.clearConnectionState_aside⟩
  | _ => exact ⟨[], rfl, rfl, rfl, id, rfl, (append_nil _).symm, rfl, rfl, rfl⟩

end LegChannel
end SerialNexus
