import SerialNexus.LegPoll

/-! # A leg channel under live edge surgery

The local edge of a leg channel may be connected, disconnected and connected elsewhere while
`channel_targetward` (`nodes/leg.rs`) runs.  A connect registers a fresh origin with the lock of a
host endpoint and fills the edge slot; a disconnect clears the slot and takes the origin off the
lock again (`detach_edge_runtime`, `daemon.rs`).

The task reads the slot before it waits for a chunk, and does not look again when one comes.  So a
chunk covered by the edge may be discarded: a run keeps every covered chunk exactly if the task
never takes one with an older reading of the slot (`staleReading`). -/

namespace SerialNexus

open List Function
open EndpointLock (writer_iff writeMode)
open LegChannel (setLock poll_untaken poll_taken step_aside)
open ChunkFate (isDelivered isPurged isDiscarded)

structure Outcome where
  fate : ChunkFate
  stale : Bool
  attached : Option WritableOrigin
deriving DecidableEq, Repr

structure EdgeWorld where
  leg : LegChannel
  registered : Option (ℕ × OriginId)
  given : List OriginId
  own : List OriginId
  entered : List Inbound
  handled : List Outcome
  handedTo : List (ℕ × Chunk)
  since : ℕ

/-- Who moves. -/
inductive EdgeAct where
  | leg (a : LegAct)
  | connect (b : WritableOrigin) (label : String) (mode : WriteMode)
  | disconnect

namespace EdgeWorld

def covered (w : EdgeWorld) : Option WritableOrigin :=
  w.leg.edge.filter fun b =>
    w.since ≤ w.handled.length ∧ (w.leg.locks b.lock).closed = false ∧ (w.leg.locals b.tx).isOpen

def puts (s s' : LegChannel) : List (ℕ × Chunk) :=
  match s.task.binding with
  | none => []
  | some b => ((s'.locals b.tx).queue.drop (s.locals b.tx).queue.length).map (Prod.mk b.tx)

def verdict (s s' : LegChannel) : ChunkFate :=
  if s.handed.length < s'.handed.length then .delivered ((s.task.binding.map (·.tx)).getD 0)
  else if s.purges.length < s'.purges.length then .purged
  else .discarded

def pollTo (w : EdgeWorld) (s' : LegChannel) : EdgeWorld :=
  { w with
    leg := s'
    handled := w.handled ++
      if s'.pending.length < w.leg.pending.length then
        [⟨verdict w.leg s', w.leg.pending.head?.any (·.epoch ≠ w.leg.disconnectEpoch), w.covered⟩]
      else []
    handedTo := w.handedTo ++ puts w.leg s' }

def newId : LegAct → Option OriginId
  | .lockOp _ (.register id _ _) => some id
  | _ => none

def step (w : EdgeWorld) : EdgeAct → EdgeWorld
  | .leg (.poll arm) => w.pollTo (w.leg.poll arm)
  | .leg a =>
    { w with
      leg := w.leg.step a
      given := w.given ++ (newId a).toList
      entered := w.entered ++ (w.leg.step a).pending.drop w.leg.pending.length }
  | .connect b label mode =>
    { w with
      leg :=
        { w.leg.step (.lockOp b.lock (.register b.id label mode)) with
          edge := if mode = .never then none else some b }
      registered := some (b.lock, b.id)
      given := w.given ++ [b.id]
      own := w.own ++ [b.id]
      since := w.entered.length }
  | .disconnect =>
    match w.registered with
    | none => w
    | some (lock, id) =>
      { w with
        leg := { w.leg.step (.lockOp lock (.unregister id)) with edge := none }
        registered := none
        since := w.entered.length }

def Allowed (w : EdgeWorld) : EdgeAct → Prop
  | .leg (.setEdge _) => False
  | .leg (.lockOp _ (.register id _ _)) => id ∉ w.given
  | .leg (.lockOp _ (.unregister id)) => id ∉ w.own
  | .leg _ => True
  | .connect b _ _ => w.registered = none ∧ b.id ∉ w.given
  | .disconnect => w.registered.isSome

instance (w : EdgeWorld) (a : EdgeAct) : Decidable (w.Allowed a) := by
  unfold Allowed
  split <;> infer_instance

def machine : Runs.Machine EdgeWorld EdgeAct := ⟨step, Allowed⟩

instance (w : EdgeWorld) (a : EdgeAct) : Decidable (machine.ok w a) :=
  inferInstanceAs (Decidable (w.Allowed a))

def start (purgeOnReconnect : Bool) (inboxCap : ℕ) (arbitration : ℕ → Arbitration)
    (locals : ℕ → Channel Chunk) : EdgeWorld where
  leg := .start purgeOnReconnect inboxCap none (fun k => ⟨.new (arbitration k), false⟩) locals
  registered := none
  given := []
  own := []
  entered := []
  handled := []
  handedTo := []
  since := 0

def done (w : EdgeWorld) : List (Inbound × ChunkFate) := w.entered.zip (w.handled.map (·.fate))

def Followed (w : EdgeWorld) : Prop :=
  ∀ o ∈ w.handled, ∀ b, o.attached = some b →
    o.fate = .delivered b.tx ∨ o.fate = .purged ∧ o.stale = true

def staleReading (w : EdgeWorld) : EdgeAct → Bool
  | .leg (.poll arm) =>
    match w.leg.taken arm, w.covered with
    | some msg, some b =>
      decide (w.leg.task.binding ≠ some b) &&
        decide (w.leg.lostFate w.leg.task.binding msg = .discarded)
    | _, _ => false
  | _ => false

structure Wired (w : EdgeWorld) : Prop where
  holders : ∀ k, (w.leg.locks k).lock.HolderWrites
  known : ∀ k id, (w.leg.locks k).lock.writeMode id ≠ none → id ∈ w.given
  own : ∀ id ∈ w.own, id ∈ w.given
  registered : ∀ k id, w.registered = some (k, id) → id ∈ w.own
  lone : ∀ k, ∀ id ∈ w.own, (w.leg.locks k).lock.writeMode id ≠ none → w.registered = some (k, id)
  edge : ∀ e, w.leg.edge = some e →
    w.registered = some (e.lock, e.id) ∧ (w.leg.locks e.lock).lock.Writer e.id
  readOnly : w.leg.edge = none → ∀ k id, w.registered = some (k, id) →
    ¬ (w.leg.locks k).lock.Writer id
  bound : ∀ b, w.leg.task.binding = some b →
    b.id ∈ w.own ∧ ∀ e, w.leg.edge = some e → e.id = b.id → e = b

section wired
variable {w w' : EdgeWorld}

variable {b : WritableOrigin} {id : OriginId} {lock : ℕ} {op : EndpointLock.Op}

theorem Wired.not_writer (h : w.Wired) (hb : w.leg.task.binding = some b)
    (hne : w.leg.edge ≠ some b) : ¬ (w.leg.locks b.lock).lock.Writer b.id := by
  intro hw
  obtain ⟨hown, hsame⟩ := h.bound b hb
  have hreg : w.registered = some (b.lock, b.id) := by
    obtain ⟨mode, hm, -⟩ := (writer_iff _ _).mp hw
    exact h.lone _ _ hown (by simp [hm])
  cases he : w.leg.edge with
  | none => exact h.readOnly he _ _ hreg hw
  | some e =>
    have hid : (e.lock, e.id) = (b.lock, b.id) := Option.some.inj ((h.edge e he).1.symm.trans hreg)
    rw [hsame e he (congrArg Prod.snd hid)] at he
    exact hne he

theorem Wired.holder (h : w.Wired) {k : ℕ} (hk : (w.leg.locks k).lock.holder = some id)
    (hid : id ∈ w.own) : w.registered = some (k, id) := by
  obtain ⟨mode, hm, -⟩ := (writer_iff _ _).mp (h.holders k id hk)
  exact h.lone k id hid (by simp [hm])

theorem Wired.keep (h : w.Wired) (hown : w'.own = w.own) (hreg : w'.registered = w.registered)
    (hedge : w'.leg.edge = w.leg.edge) (hgiven : ∀ id ∈ w.given, id ∈ w'.given)
    (hholders : ∀ k, (w'.leg.locks k).lock.HolderWrites)
    (hknown : ∀ k id, (w'.leg.locks k).lock.writeMode id ≠ none → id ∈ w'.given)
    (hmodes : ∀ k, ∀ id ∈ w.own,
      (w'.leg.locks k).lock.writeMode id = (w.leg.locks k).lock.writeMode id)
    (hbinding : ∀ b, w'.leg.task.binding = some b →
      w.leg.task.binding = some b ∨ w.leg.edge = some b) : w'.Wired := by
  have hwriter : ∀ k id, w.registered = some (k, id) →
      ((w'.leg.locks k).lock.Writer id ↔ (w.leg.locks k).lock.Writer id) := by
    intro k id hr
    rw [writer_iff, writer_iff, hmodes k id (h.registered k id hr)]
  refine ⟨hholders, hknown, ?_, ?_, ?_, ?_, ?_, ?_⟩
  · rw [hown]
    exact fun id hid => hgiven id (h.own id hid)
  · rw [hreg, hown]
    exact h.registered
  · rw [hreg, hown]
    intro k id hid hm
    rw [hmodes k id hid] at hm
    exact h.lone k id hid hm
  · rw [hedge, hreg]
    intro e he
    obtain ⟨hr, hw⟩ := h.edge e he
    exact ⟨hr, (hwriter _ _ hr).mpr hw⟩
  · rw [hedge, hreg]
    intro he k id hr hw
    exact h.readOnly he k id hr ((hwriter k id hr).mp hw)
  · rw [hedge, hown]
    intro b hb
    rcases hbinding b hb with hb | hb
    · exact h.bound b hb
    · refine ⟨h.registered _ _ (h.edge b hb).1, fun e he _ => ?_⟩
      exact Option.some.inj (he.symm.trans hb)

theorem lockOp_modes (s : LegChannel) (lock : ℕ) (op : EndpointLock.Op) (k : ℕ) :
    ((s.step (.lockOp lock op)).locks k).lock.writeMode =
      if k = lock then op.modes (s.locks k).lock.writeMode else (s.locks k).lock.writeMode := by
  by_cases hk : k = lock
  · subst hk
    rw [if_pos rfl, ← EndpointLock.apply_writeMode]
    simp [LegChannel.step, setLock]
  · rw [if_neg hk]
    simp [LegChannel.step, setLock, update_of_ne hk]

theorem lockOp_holders {s : LegChannel} (h : ∀ k, (s.locks k).lock.HolderWrites) (lock : ℕ)
    (op : EndpointLock.Op) (ha : (s.locks lock).lock.Allowed op) (k : ℕ) :
    ((s.step (.lockOp lock op)).locks k).lock.HolderWrites := by
  by_cases hk : k = lock
  · subst hk
    simpa [LegChannel.step, setLock] using EndpointLock.apply_holderWrites (h k) op ha
  · simpa [LegChannel.step, setLock, update_of_ne hk] using h k

theorem Wired.fresh (h : w.Wired) (hid : id ∉ w.given) (k : ℕ) :
    (w.leg.locks k).lock.writeMode id = none := by
  by_contra hne
  exact hid (h.known k id hne)

theorem Wired.lockOp (h : w.Wired) (hallowed : (w.leg.locks lock).lock.Allowed op)
    (hown : ∀ modes, ∀ id ∈ w.own, op.modes modes id = modes id)
    (hknown : ∀ modes id, op.modes modes id ≠ none →
      modes id ≠ none ∨ id ∈ (newId (.lockOp lock op)).toList) :
    (w.step (.leg (.lockOp lock op))).Wired := by
  refine h.keep rfl rfl rfl (fun id hid => mem_append_left _ hid)
    (lockOp_holders h.holders lock op hallowed) ?_ ?_ fun _ => .inl
  · intro k id hm
    change ((w.leg.step (.lockOp lock op)).locks k).lock.writeMode id ≠ none at hm
    rw [lockOp_modes] at hm
    refine mem_append.mpr ?_
    split_ifs at hm
    · exact (hknown _ id hm).imp_left (h.known k id)
    · exact .inl (h.known k id hm)
  · intro k id hid
    change ((w.leg.step (.lockOp lock op)).locks k).lock.writeMode id = _
    rw [lockOp_modes]
    split_ifs
    · exact hown _ id hid
    · rfl

theorem Wired.lockOp_allowed (h : w.Wired) (ha : w.Allowed (.leg (.lockOp lock op))) :
    (w.step (.leg (.lockOp lock op))).Wired := by
  cases op with
  | register id label mode =>
    have hid : id ∉ w.own := fun hid => ha (h.own id hid)
    refine h.lockOp ?_ ?_ ?_
    · exact Option.map_eq_none_iff.mp (h.fresh ha lock)
    · intro modes i hi
      have hne : i ≠ id := fun he => hid (he ▸ hi)
      exact update_of_ne hne _ _
    · intro modes i hm
      by_cases hi : i = id
      · exact .inr (by simp [newId, hi])
      · exact .inl (by simpa [EndpointLock.Op.modes, update_of_ne hi] using hm)
  | unregister id =>
    refine h.lockOp trivial ?_ ?_
    · intro modes i hi
      have hne : i ≠ id := fun he => ha (he ▸ hi)
      exact update_of_ne hne _ _
    · intro modes i hm
      by_cases hi : i = id
      · simp [EndpointLock.Op.modes, hi] at hm
      · exact .inl (by simpa [EndpointLock.Op.modes, update_of_ne hi] using hm)
  | _ => exact h.lockOp trivial (fun _ _ _ => rfl) fun _ _ hm => .inl hm

theorem Wired.connect (h : w.Wired) {label : String} {mode : WriteMode}
    (ha : w.Allowed (.connect b label mode)) : (w.step (.connect b label mode)).Wired := by
  obtain ⟨hnone, hfresh⟩ := ha
  have hmodes : ∀ k id, ((w.step (.connect b label mode)).leg.locks k).lock.writeMode id =
      if k = b.lock ∧ id = b.id then some mode else (w.leg.locks k).lock.writeMode id := by
    intro k id
    change ((w.leg.step (.lockOp b.lock (.register b.id label mode))).locks k).lock.writeMode id = _
    rw [lockOp_modes]
    by_cases hk : k = b.lock
    · by_cases hid : id = b.id
      · simp [hk, hid, EndpointLock.Op.modes]
      · simp [hk, hid, EndpointLock.Op.modes]
    · simp [hk]
  have hwriter : ((w.step (.connect b label mode)).leg.locks b.lock).lock.Writer b.id ↔
      mode ≠ .never := by
    rw [writer_iff, hmodes]
    simp
  have hown : b.id ∉ w.own := fun hid => hfresh (h.own _ hid)
  refine ⟨?_, ?_, ?_, ?_, ?_, ?_, ?_, ?_⟩
  · exact lockOp_holders h.holders _ _ (Option.map_eq_none_iff.mp (h.fresh hfresh b.lock))
  · intro k id hm
    rw [hmodes] at hm
    refine mem_append.mpr ?_
    split_ifs at hm with hid
    · exact .inr (by simp [hid.2])
    · exact .inl (h.known k id hm)
  · intro id hid
    exact mem_append.mpr ((mem_append.mp hid).imp_left (h.own id))
  · rintro k id ⟨⟩
    exact mem_append_right _ (by simp)
  · intro k id hid hm
    rw [hmodes] at hm
    split_ifs at hm with hkid
    · rw [hkid.1, hkid.2]
      rfl
    · rcases mem_append.mp hid with hid | hid
      · have := h.lone k id hid hm
        rw [hnone] at this
        cases this
      · obtain rfl : id = b.id := mem_singleton.mp hid
        exact absurd (h.fresh hfresh k) hm
  · intro e he
    change (if mode = .never then none else some b) = some e at he
    split_ifs at he with hn
    obtain rfl := Option.some.inj he
    exact ⟨rfl, hwriter.mpr hn⟩
  · intro he k id hr
    obtain ⟨rfl, rfl⟩ : b.lock = k ∧ b.id = id := by simpa [step] using hr
    change (if mode = .never then none else some b) = none at he
    rw [hwriter]
    split_ifs at he with hn
    simpa using hn
  · intro b' hb'
    obtain ⟨hid, -⟩ := h.bound b' hb'
    refine ⟨mem_append_left _ hid, fun e he heq => ?_⟩
    change (if mode = .never then none else some b) = some e at he
    split_ifs at he
    obtain rfl := Option.some.inj he
    exact absurd (heq ▸ hid) hown

theorem Wired.disconnect (h : w.Wired) (hreg : w.registered = some (lock, id)) :
    (w.step .disconnect).Wired := by
  have hstep : w.step .disconnect = { w with
      leg := { w.leg.step (.lockOp lock (.unregister id)) with edge := none }
      registered := none
      since := w.entered.length } := by
    simp only [step, hreg]
  have hmodes : ∀ k i, ((w.step .disconnect).leg.locks k).lock.writeMode i ≠ none →
      (w.leg.locks k).lock.writeMode i ≠ none ∧ (k, i) ≠ (lock, id) := by
    intro k i hm
    rw [hstep] at hm
    change ((w.leg.step (.lockOp lock (.unregister id))).locks k).lock.writeMode i ≠ none at hm
    rw [lockOp_modes] at hm
    split_ifs at hm with hk
    · by_cases hi : i = id
      · simp [EndpointLock.Op.modes, hi] at hm
      · refine ⟨by simpa [EndpointLock.Op.modes, update_of_ne hi] using hm, ?_⟩
        simp [hi]
    · exact ⟨hm, by simp [hk]⟩
  have hholders := lockOp_holders h.holders lock (.unregister id) trivial
  refine ⟨?_, fun k i hm => ?_, ?_, ?_, fun k i hi hm => ?_, ?_, ?_, ?_⟩
  · rw [hstep]
    exact hholders
  · rw [hstep]
    exact h.known k i (hmodes k i hm).1
  · rw [hstep]
    exact h.own
  · rw [hstep]
    nofun
  · obtain ⟨hm, hne⟩ := hmodes k i hm
    rw [hstep] at hi
    exact absurd (Option.some.inj ((h.lone k i hi hm).symm.trans hreg)) hne
  · rw [hstep]
    nofun
  · rw [hstep]
    nofun
  · rw [hstep]
    exact fun b hb => ⟨(h.bound b hb).1, nofun⟩

end wired

/-! ### The books -/

structure Booked (w : EdgeWorld) : Prop where
  slot : w.leg.slotOpen = true
  raced : w.leg.Raced
  since : w.since ≤ w.entered.length
  handled : w.handled.length ≤ w.entered.length
  pending : w.entered.drop w.handled.length = w.leg.pending
  current : w.leg.task.inHand.isSome → w.since ≤ w.handled.length → w.leg.edge = w.leg.task.binding
  accepted : w.leg.acceptedTargetward = tally isDelivered w.done
  purged : w.leg.purgedOnReconnect = tally isPurged w.done
  discarded : w.leg.discardedTargetward = tally isDiscarded w.done
  handedTo : w.handedTo = deliveries w.done
  stale : ∀ o ∈ w.handled, o.fate = .purged → o.stale = true

section booked
variable {w w' : EdgeWorld}

variable {α β : Type*} {bs : List β} {s' s : LegChannel} {ended : Option (Inbound × ChunkFate)}

theorem zip_append_of_le {as : List α} (h : bs.length ≤ as.length) (more : List α) :
    (as ++ more).zip bs = as.zip bs := by
  induction bs generalizing as with
  | nil => simp
  | cons b bs ih =>
    cases as with
    | nil => simp at h
    | cons a as => simp [ih (Nat.le_of_succ_le_succ h)]

theorem zip_append_next {as rest : List α} {a : α} (b : β) (h : as.drop bs.length = a :: rest) :
    as.zip (bs ++ [b]) = as.zip bs ++ [(a, b)] := by
  induction bs generalizing as with
  | nil => simp_all
  | cons b' bs ih =>
    cases as with
    | nil => simp at h
    | cons a' as => simp [ih h]

theorem Booked.done_fst (h : w.Booked) : w.done.map Prod.fst = w.entered.take w.handled.length := by
  have hlen : (w.entered.take w.handled.length).length = (w.handled.map (·.fate)).length := by
    simpa using h.handled
  have hdone : w.done = (w.entered.take w.handled.length).zip (w.handled.map (·.fate)) := by
    rw [← zip_append_of_le hlen.ge (w.entered.drop w.handled.length), take_append_drop]
    rfl
  rw [hdone]
  exact map_fst_zip hlen.le

theorem Booked.aside (h : w.Booked) {new : List Inbound} (hs : w.leg.Aside s' new)
    {given : List OriginId} :
    Booked { w with
      leg := s'
      given
      entered := w.entered ++ s'.pending.drop w.leg.pending.length } := by
  have hpending : s'.pending = w.leg.pending ++ new := by
    simp only [LegChannel.pending, hs.inHand, hs.queued, append_assoc]
  have hdone : ∀ more, (w.entered ++ more).zip (w.handled.map (·.fate)) = w.done := fun more =>
    zip_append_of_le (by simpa using h.handled) more
  rw [hpending, drop_left]
  constructor
  · exact hs.slotOpen.trans h.slot
  · exact hs.raced h.raced
  · simpa using Nat.le_add_right_of_le h.since
  · simpa using Nat.le_add_right_of_le h.handled
  · dsimp only
    rw [drop_append_of_le_length h.handled, h.pending, hpending]
  · dsimp only
    rw [hs.edge, hs.inHand, hs.binding]
    exact h.current
  · simpa only [done, hdone, hs.accepted] using h.accepted
  · simpa only [done, hdone, hs.purged] using h.purged
  · simpa only [done, hdone, hs.discarded] using h.discarded
  · simpa only [done, hdone] using h.handedTo
  · exact h.stale

theorem Booked.touch (h : w.Booked) (locks : ℕ → LockCell) (edge : Option WritableOrigin)
    (registered : Option (ℕ × OriginId)) (given own : List OriginId) :
    Booked { w with
      leg := { w.leg with locks, edge }
      registered, given, own
      since := w.entered.length } := by
  refine ⟨h.slot, h.raced, le_rfl, h.handled, h.pending, fun hm hle => ?_, h.accepted, h.purged,
    h.discarded, h.handedTo, h.stale⟩
  have hnil : w.leg.pending = [] := by
    rw [← h.pending]
    exact drop_of_length_le hle
  obtain ⟨msg, hmsg⟩ := Option.isSome_iff_exists.mp hm
  have : w.leg.task.inHand = some msg := hmsg
  simp [LegChannel.pending, this] at hnil

theorem puts_eq (hp : s.Polls s' ended) : puts s s' = deliveries ended.toList := by
  have hto : ∀ msg tx, ended = some (msg, .delivered tx) → ∃ b, s.task.binding = some b ∧ b.tx = tx :=
    hp.through
  unfold puts
  cases hb : s.task.binding with
  | none =>
    rcases ended with - | ⟨msg, tx | - | -⟩
    · rfl
    · obtain ⟨b, hb', -⟩ := hto msg tx rfl
      rw [hb] at hb'
      cases hb'
    · rfl
    · rfl
  | some b =>
    dsimp only
    rw [hp.queues b.tx, drop_left]
    rcases ended with - | ⟨msg, tx | - | -⟩
    · rfl
    · obtain ⟨b', hb', rfl⟩ := hto msg tx rfl
      obtain rfl : b = b' := Option.some.inj (hb.symm.trans hb')
      simp [receivedBy, deliveries]
    · rfl
    · rfl

theorem verdict_eq {msg : Inbound} {fate : ChunkFate} (hp : s.Polls s' (some (msg, fate))) :
    verdict s s' = fate := by
  have hh := hp.handed
  have hu := hp.purges
  unfold verdict
  cases fate with
  | delivered tx =>
    obtain ⟨b, hb, rfl⟩ := hp.through msg tx rfl
    rw [if_pos (by simp [hh, isDelivered]), hb]
    rfl
  | purged =>
    rw [if_neg (by simp [hh, isDelivered]), if_pos (by simp [hu, isPurged])]
  | discarded =>
    rw [if_neg (by simp [hh, isDelivered]), if_neg (by simp [hu, isPurged])]

theorem pollTo_eq (hp : w.leg.Polls s' ended) :
    w.pollTo s' = { w with
      leg := s'
      handled := w.handled ++ ended.toList.map fun x =>
        ⟨x.2, decide (x.1.epoch ≠ w.leg.disconnectEpoch), w.covered⟩
      handedTo := w.handedTo ++ deliveries ended.toList } := by
  unfold EdgeWorld.pollTo
  rw [puts_eq hp, hp.pending]
  rcases ended with - | ⟨msg, fate⟩
  · simp
  · rw [verdict_eq hp]
    simp

theorem current_polls (h : w.Booked) (hw : w.Wired) (hp : w.leg.Polls s' ended)
    (hm : s'.task.inHand.isSome) (hle : w.since ≤ w.handled.length) :
    s'.edge = s'.task.binding := by
  have hbinding : s'.task.binding = w.leg.task.binding := by
    rcases hp.binding with hb | ⟨hnone, -⟩
    · exact hb
    · rw [hnone] at hm
      cases hm
  rw [hp.edge, hbinding]
  cases hi : w.leg.task.inHand with
  | some msg => exact h.current (by rw [hi]; rfl) hle
  | none =>
    obtain ⟨b, hb, hwriter⟩ := hp.writer hi hm
    rw [hb]
    by_contra hne
    exact hw.not_writer hb hne hwriter

theorem Booked.pollTo (h : w.Booked) (hw : w.Wired) (hp : w.leg.Polls s' ended) :
    (w.pollTo s').Booked := by
  have hpending := h.pending.trans hp.pending
  have hraced : s'.Raced := by
    intro b msg pulsed ht
    rw [hp.epoch]
    rcases hp.racing b msg pulsed ht with ht | ⟨rfl, he⟩
    · exact h.raced b msg pulsed ht
    · exact he
  rw [pollTo_eq hp]
  have hlen : w.handled.length + ended.toList.length ≤ w.entered.length := by
    have := congrArg List.length hpending
    have := h.handled
    simp only [length_drop, length_append, length_map] at *
    omega
  have hdone : ∀ f : Inbound × ChunkFate → Outcome, (∀ x, (f x).fate = x.2) →
      w.entered.zip ((w.handled ++ ended.toList.map f).map (·.fate)) = w.done ++ ended.toList := by
    intro f hf
    rcases ended with - | ⟨msg, fate⟩
    · simp [done]
    · have hnext : w.entered.drop (w.handled.map (·.fate)).length = msg :: s'.pending := by
        simpa using hpending
      rw [map_append]
      simpa [hf, done] using zip_append_next fate hnext
  constructor
  · exact hp.slotOpen.trans h.slot
  · exact hraced
  · exact h.since
  · simpa using hlen
  · simp only [length_append, length_map]
    rw [← drop_drop, hpending]
    exact drop_left' (length_map _)
  · intro hm hle
    have hnone : ended = none := by
      by_contra hne
      rw [hp.inHand (Option.isSome_iff_ne_none.mpr hne)] at hm
      cases hm
    subst hnone
    exact current_polls h hw hp hm (by simpa using hle)
  · rw [done, hdone _ fun _ => rfl, tally_append, ← h.accepted]
    exact hp.accepted
  · rw [done, hdone _ fun _ => rfl, tally_append, ← h.purged]
    exact hp.purged
  · rw [done, hdone _ fun _ => rfl, tally_append, ← h.discarded]
    exact hp.discarded
  · rw [done, hdone _ fun _ => rfl, deliveries_append, ← h.handedTo]
  · intro o ho hfate
    rcases mem_append.mp ho with ho | ho
    · exact h.stale o ho hfate
    · obtain ⟨⟨msg, fate⟩, hx, rfl⟩ := mem_map.mp ho
      obtain rfl : fate = .purged := hfate
      exact decide_eq_true (hp.stale msg (Option.mem_toList.mp hx))

end booked

section steps
variable {w : EdgeWorld}

/-! ### A step -/

theorem Booked.polls (h : w.Booked) (arm : LegChannel.Arm) :
    ∃ ended, w.leg.Polls (w.leg.poll arm) ended := by
  cases ht : w.leg.taken arm with
  | none =>
    obtain ⟨ended, hp, -⟩ := poll_untaken h.raced ht
    exact ⟨ended, hp⟩
  | some msg =>
    obtain ⟨fate, hp, -⟩ := poll_taken ht
    exact ⟨_, hp⟩

variable {s' : LegChannel} {ended : Option (Inbound × ChunkFate)} {a : EdgeAct} {b : WritableOrigin}
  {msg : Inbound}

theorem Wired.pollTo (h : w.Wired) (hp : w.leg.Polls s' ended) : (w.pollTo s').Wired := by
  refine h.keep rfl rfl hp.edge (fun _ hid => hid) (fun k => (hp.locks k).holder (h.holders k))
    ?_ ?_ ?_
  · intro k id hm
    change (s'.locks k).lock.writeMode id ≠ none at hm
    rw [(hp.locks k).modes] at hm
    exact h.known k id hm
  · intro k id _
    exact congrFun (hp.locks k).modes id
  · intro b hb
    change s'.task.binding = some b at hb
    rcases hp.binding with hsame | ⟨-, hnone | hedge⟩
    · exact .inl (hsame.symm.trans hb)
    · rw [hnone] at hb
      cases hb
    · exact .inr (hedge.symm.trans hb)

theorem Wired.aside (h : w.Wired) {new : List Inbound} (hs : w.leg.Aside s' new)
    (hlocks : ∀ k, (s'.locks k).lock = (w.leg.locks k).lock) (given : List OriginId)
    (entered : List Inbound) : Wired { w with leg := s', given := w.given ++ given, entered } := by
  refine h.keep rfl rfl hs.edge (fun _ hid => mem_append_left _ hid) ?_ ?_ ?_ ?_
  · intro k
    dsimp only
    rw [hlocks]
    exact h.holders k
  · intro k id hm
    dsimp only at hm
    rw [hlocks] at hm
    exact mem_append_left _ (h.known k id hm)
  · intro k id _
    dsimp only
    rw [hlocks]
  · intro b hb
    exact .inl (hs.binding.symm.trans hb)

theorem step_kept (hw : w.Wired) (hb : w.Booked) (ha : w.Allowed a) :
    (w.step a).Wired ∧ (w.step a).Booked := by
  have haside : ∀ {a}, (∀ arm, a ≠ .poll arm) → (∀ edge, a ≠ .setEdge edge) →
      w.step (.leg a) = { w with
        leg := w.leg.step a
        given := w.given ++ (newId a).toList
        entered := w.entered ++ (w.leg.step a).pending.drop w.leg.pending.length } →
      (∀ k, ((w.leg.step a).locks k).lock = (w.leg.locks k).lock) →
      (w.step (.leg a)).Wired ∧ (w.step (.leg a)).Booked := by
    intro a hpoll hedge hstep hlocks
    obtain ⟨new, hs⟩ := step_aside hb.slot hpoll hedge
    rw [hstep]
    exact ⟨hw.aside hs hlocks _ _, hb.aside hs⟩
  cases a with
  | connect b label mode => exact ⟨hw.connect ha, hb.touch _ _ _ _ _⟩
  | disconnect =>
    obtain ⟨⟨lock, id⟩, hreg⟩ := Option.isSome_iff_exists.mp ha
    refine ⟨hw.disconnect hreg, ?_⟩
    simp only [step, hreg]
    exact hb.touch _ _ _ _ _
  | leg a =>
    cases a with
    | poll arm =>
      obtain ⟨ended, hp⟩ := hb.polls arm
      exact ⟨hw.pollTo hp, hb.pollTo hw hp⟩
    | setEdge edge => exact ha.elim
    | lockOp lock op =>
      obtain ⟨new, hs⟩ := step_aside (a := .lockOp lock op) hb.slot (by simp) (by simp)
      exact ⟨hw.lockOp_allowed ha, hb.aside hs⟩
    | closeLock lock =>
      refine haside (by simp) (by simp) rfl fun k => ?_
      by_cases hk : k = lock
      · subst hk
        simp [LegChannel.step, setLock]
      · simp [LegChannel.step, setLock, update_of_ne hk]
    | enqueue =>
      refine haside (by simp) (by simp) rfl fun k => ?_
      rw [LegChannel.step, LegChannel.enqueue_locks]
    | _ => exact haside (by simp) (by simp) rfl fun k => rfl

def Hands (w : EdgeWorld) (a : EdgeAct) : Prop :=
  ∀ arm, a = .leg (.poll arm) → ∃ new, (w.step a).handedTo = w.handedTo ++ new ∧
    ∀ k, ((w.step a).leg.locals k).queue = (w.leg.locals k).queue ++ receivedBy k new

theorem Booked.hands (h : w.Booked) (a : EdgeAct) : w.Hands a := by
  rintro arm rfl
  obtain ⟨ended, hp⟩ := h.polls arm
  refine ⟨deliveries ended.toList, ?_, hp.queues⟩
  rw [step, pollTo_eq hp]

theorem covered_spec (hw : w.Wired) (hc : w.covered = some b) :
    w.leg.edge = some b ∧ w.since ≤ w.handled.length ∧ ¬ w.leg.Dead b := by
  obtain ⟨he, hp⟩ := Option.filter_eq_some_iff.mp hc
  obtain ⟨hle, hclosed, hopen⟩ := of_decide_eq_true hp
  refine ⟨he, hle, ?_⟩
  rintro (hd | hd | hd)
  · rw [hclosed] at hd
    cases hd
  · exact hd (hw.edge b he).2
  · rw [hopen] at hd
    cases hd

theorem fate_of_covered (hw : w.Wired) (hc : w.covered = some b) (hb : w.leg.task.binding = some b)
    {fate : ChunkFate} (hp : w.leg.Polls s' (some (msg, fate))) :
    fate = .delivered b.tx ∨ fate = .purged ∧ decide (msg.epoch ≠ w.leg.disconnectEpoch) = true := by
  cases fate with
  | delivered tx =>
    obtain ⟨b', hb', rfl⟩ := hp.through msg tx rfl
    obtain rfl : b = b' := Option.some.inj (hb.symm.trans hb')
    exact .inl rfl
  | purged => exact .inr ⟨rfl, decide_eq_true (hp.stale msg rfl)⟩
  | discarded => exact absurd (hp.dead msg rfl b hb) (covered_spec hw hc).2.2

theorem followed_pollTo (hp : w.leg.Polls s' ended) (hf : w.Followed) :
    (w.pollTo s').Followed ↔ ∀ msg fate, ended = some (msg, fate) → ∀ b, w.covered = some b →
      fate = .delivered b.tx ∨
        fate = .purged ∧ decide (msg.epoch ≠ w.leg.disconnectEpoch) = true := by
  rw [pollTo_eq hp]
  constructor
  · rintro hall msg fate rfl b hc
    exact hall ⟨fate, decide (msg.epoch ≠ w.leg.disconnectEpoch), w.covered⟩ (by simp) b hc
  · intro hall o ho b hob
    rcases mem_append.mp ho with ho | ho
    · exact hf o ho b hob
    · obtain ⟨⟨msg, fate⟩, hx, rfl⟩ := mem_map.mp ho
      exact hall msg fate (Option.mem_toList.mp hx) b hob

theorem staleReading_poll {arm : LegChannel.Arm} (ht : w.leg.taken arm = some msg)
    (hc : w.covered = some b) :
    w.staleReading (.leg (.poll arm)) =
      (decide (w.leg.task.binding ≠ some b) &&
        decide (w.leg.lostFate w.leg.task.binding msg = .discarded)) := by
  simp [staleReading, ht, hc]

theorem followed_poll (hw : w.Wired) (hb : w.Booked) (hf : w.Followed) (arm : LegChannel.Arm) :
    (w.step (.leg (.poll arm))).Followed ↔ w.staleReading (.leg (.poll arm)) = false := by
  change (w.pollTo (w.leg.poll arm)).Followed ↔ _
  cases ht : w.leg.taken arm with
  | none =>
    obtain ⟨ended, hp, hhand⟩ := poll_untaken hb.raced ht
    rw [followed_pollTo hp hf]
    refine iff_of_true ?_ (by simp [staleReading, ht])
    rintro msg fate rfl b hc
    obtain ⟨he, hle, -⟩ := covered_spec hw hc
    have hbinding := (hb.current (hhand rfl) hle).symm.trans he
    exact fate_of_covered hw hc hbinding hp
  | some msg =>
    obtain ⟨fate, hp, hlost⟩ := poll_taken ht
    rw [followed_pollTo hp hf]
    cases hc : w.covered with
    | none => exact iff_of_true nofun (by simp [staleReading, ht, hc])
    | some b =>
      by_cases hbinding : w.leg.task.binding = some b
      · refine iff_of_true ?_ (by simp [staleReading, ht, hc, hbinding])
        rintro msg' fate' he b' ⟨⟩
        rw [he] at hp
        exact fate_of_covered hw hc hbinding hp
      · -- The edge that was read is off its lock by now, if there was one.
        have hgone : ∀ b', w.leg.task.binding = some b' →
            ¬ (w.leg.locks b'.lock).lock.Writer b'.id := by
          intro b' hb'
          refine hw.not_writer hb' fun he => hbinding ?_
          rw [hb', ← he, (covered_spec hw hc).1]
        rw [hlost hgone, staleReading_poll ht hc]
        rcases w.leg.lostFate_cases w.leg.task.binding msg with ⟨hfate, hne⟩ | hfate
        · simp [hfate, hne]
        · simp [hfate, hbinding]

theorem step_handled (ha : ∀ arm, a ≠ .leg (.poll arm)) : (w.step a).handled = w.handled := by
  unfold step
  split
  · exact absurd rfl (ha _)
  · rfl
  · rfl
  · split <;> rfl

theorem followed_step (hw : w.Wired) (hb : w.Booked) (hf : w.Followed) (a : EdgeAct) :
    (w.step a).Followed ↔ w.staleReading a = false := by
  by_cases ha : ∃ arm, a = .leg (.poll arm)
  · obtain ⟨arm, rfl⟩ := ha
    exact followed_poll hw hb hf arm
  · have hpoll : ∀ arm, a ≠ .leg (.poll arm) := fun arm he => ha ⟨arm, he⟩
    refine iff_of_true ?_ ?_
    · rw [Followed, step_handled hpoll]
      exact hf
    · unfold staleReading
      split
      · exact absurd rfl (hpoll _)
      · rfl

end steps

section runs
variable (purgeOnReconnect : Bool) (inboxCap : ℕ) (arbitration : ℕ → Arbitration)
  (locals : ℕ → Channel Chunk)

/-! ### Runs -/

theorem start_wired : (start purgeOnReconnect inboxCap arbitration locals).Wired where
  holders := fun k => EndpointLock.new_holderWrites (arbitration k)
  known := fun k id h => absurd (by simp [start, LegChannel.start, writeMode, EndpointLock.new]) h
  own := by simp [start]
  registered := nofun
  lone := by simp [start]
  edge := nofun
  readOnly := nofun
  bound := nofun

theorem start_booked : (start purgeOnReconnect inboxCap arbitration locals).Booked :=
  ⟨rfl, nofun, le_rfl, le_rfl, rfl, nofun, rfl, rfl, rfl, rfl, nofun⟩

theorem edge_surgery (as : List EdgeAct)
    (h : machine.Legal (start purgeOnReconnect inboxCap arbitration locals) as) :
    let w₀ := start purgeOnReconnect inboxCap arbitration locals
    let w := machine.run w₀ as
    (w.entered = w.done.map Prod.fst ++ w.leg.pending ∧
      w.leg.acceptedTargetward = tally isDelivered w.done ∧
      w.leg.purgedOnReconnect = tally isPurged w.done ∧
      w.leg.discardedTargetward = tally isDiscarded w.done ∧
      w.leg.acceptedTargetward + w.leg.purgedOnReconnect + w.leg.discardedTargetward =
        (w.done.map (·.1.bytes.length)).sum) ∧
    (w.leg.acceptedTargetward = (w.handedTo.map (·.2.length)).sum ∧ machine.Each Hands w₀ as) ∧
    (∀ k id, (w.leg.locks k).lock.holder = some id → id ∈ w.own → w.registered = some (k, id)) ∧
    (machine.Always Followed w₀ as ↔ machine.Each (fun w a => w.staleReading a = false) w₀ as) := by
  intro w₀ w
  have hstart : w₀.Wired ∧ w₀.Booked :=
    ⟨start_wired purgeOnReconnect inboxCap arbitration locals,
      start_booked purgeOnReconnect inboxCap arbitration locals⟩
  have hstep : ∀ w a, w.Wired ∧ w.Booked → machine.ok w a →
      (machine.step w a).Wired ∧ (machine.step w a).Booked :=
    fun _ _ hw ha => step_kept hw.1 hw.2 ha
  obtain ⟨hwired, hbooked⟩ : w.Wired ∧ w.Booked := Runs.Machine.invariant hstep hstart h
  refine ⟨⟨?_, hbooked.accepted, hbooked.purged, hbooked.discarded, ?_⟩, ⟨?_, ?_⟩,
    fun k id hk hid => hwired.holder hk hid, ?_⟩
  · rw [← hbooked.pending, hbooked.done_fst]
    exact (take_append_drop _ _).symm
  · rw [hbooked.accepted, hbooked.purged, hbooked.discarded, tally_partition]
  · rw [hbooked.accepted, hbooked.handedTo, deliveries_bytes]
  · exact Runs.Machine.each_of_invariant hstep (fun _ a hw _ => hw.2.hands a) hstart h
  · exact Runs.Machine.always_iff_each hstep
      (fun _ a hw _ hf => followed_step hw.1 hw.2 hf a) hstart nofun h

end runs

def idleStart : EdgeWorld := start true 4 (fun _ => .exclusive) fun _ => .new 4

def movedEdge : List EdgeAct :=
  [.connect ⟨0, 0, 7⟩ "leg.a" .onDemand, .leg (.poll .message), .leg (.arrive [1]), .leg .enqueue,
    .leg (.poll .message), .leg (.poll .message), .disconnect,
    .connect ⟨1, 1, 8⟩ "leg.a" .onDemand, .leg (.poll .idleTimer), .leg (.poll .message),
    .leg (.arrive [2]), .leg .enqueue, .leg (.poll .message)]

theorem edge_surgery_movedEdge :
    machine.Legal idleStart movedEdge ∧
      (machine.run idleStart movedEdge).handedTo = [(0, [1]), (1, [2])] ∧
      machine.Always Followed idleStart movedEdge := by
  have hlegal : machine.Legal idleStart movedEdge := by decide +kernel
  refine ⟨hlegal, by decide +kernel, ?_⟩
  exact (edge_surgery true 4 (fun _ => .exclusive) (fun _ => .new 4) movedEdge hlegal).2.2.2.mpr
    (by decide +kernel)

def missedConnect : List EdgeAct :=
  [.leg (.poll .message), .leg (.poll .message), .connect ⟨0, 0, 7⟩ "leg.a" .onDemand,
    .leg (.arrive [1]), .leg .enqueue, .leg (.poll .message)]

theorem connect_missed :
    machine.Legal idleStart missedConnect ∧
      (machine.run idleStart missedConnect).handled = [⟨.discarded, false, some ⟨0, 0, 7⟩⟩] ∧
      (machine.run idleStart missedConnect).leg.discardedTargetward = 1 ∧
      ¬ (machine.run idleStart missedConnect).Followed := by
  have hhandled : (machine.run idleStart missedConnect).handled =
      [⟨.discarded, false, some ⟨0, 0, 7⟩⟩] := by decide +kernel
  refine ⟨by decide +kernel, hhandled, by decide +kernel, fun hf => ?_⟩
  rw [Followed, hhandled] at hf
  simpa using hf _ (mem_singleton.mpr rfl) _ rfl

end EdgeWorld
end SerialNexus
