import SerialNexus.TargetwardInbox
import SerialNexus.Words

/-! # The serial node's targetward side

The reconnect supervisor of a serial node (`daemon/src/nodes/serial.rs`): it writes the chunks of
its targetward queue to the device, and when the device is lost it polls until the device is back,
purges the backlog of the outage if it is configured to, and goes on.  A teardown counts the queue
and aborts the supervisor.

A step is what one party does up to its next await, except that the supervisor comes through the
head of its loop once for every chunk.  Each poll is given the answers of `write(2)` and `poll(2)`
it will see.  Statuses, the hostward side and the line's exclusivity are left out. -/

namespace SerialNexus

open List

inductive Readiness where
  | pollOut
  | pollHup
  | neither
deriving DecidableEq

inductive WriteFd where
  | wrote (n : ℕ)
  | wouldBlock (ready : Readiness)
  | error
deriving DecidableEq

inductive WriteEnd where
  | done
  | asleep (rest : Chunk)
  | failed (rest : Chunk)
deriving DecidableEq

def WriteEnd.rest : WriteEnd → Chunk
  | .done => []
  | .asleep rest => rest
  | .failed rest => rest

def WriteEnd.isFailed : WriteEnd → Bool
  | .failed _ => true
  | _ => false

def writeAll : List WriteFd → Chunk → Chunk × WriteEnd
  | _, [] => ([], .done)
  | [], data => ([], .asleep data)
  | .wrote 0 :: _, data => ([], .failed data)
  | .wrote (n + 1) :: answers, data =>
    let (written, ended) := writeAll answers (data.drop (n + 1))
    (data.take (n + 1) ++ written, ended)
  | .wouldBlock .pollOut :: answers, data => writeAll answers data
  | .wouldBlock .pollHup :: _, data => ([], .failed data)
  | .wouldBlock .neither :: _, data => ([], .asleep data)
  | .error :: _, data => ([], .failed data)

theorem writeAll_rest (answers : List WriteFd) (data : Chunk) :
    (writeAll answers data).1 ++ (writeAll answers data).2.rest = data := by
  induction answers generalizing data with
  | nil => cases data <;> rfl
  | cons answer answers ih =>
    cases data with
    | nil => rfl
    | cons byte data =>
      match answer with
      | .wrote 0 => rfl
      | .wrote (n + 1) =>
        change ((byte :: data).take (n + 1) ++ _) ++
          (writeAll answers ((byte :: data).drop (n + 1))).2.rest = _
        rw [append_assoc, ih, take_append_drop]
      | .wouldBlock .pollOut => exact ih _
      | .wouldBlock .pollHup => rfl
      | .wouldBlock .neither => rfl
      | .error => rfl

theorem writeAll_failed {answers : List WriteFd} {data rest : Chunk}
    (h : (writeAll answers data).2 = .failed rest) : rest ≠ [] := by
  induction answers generalizing data with
  | nil => cases data <;> cases h
  | cons answer answers ih =>
    cases data with
    | nil => cases h
    | cons byte data =>
      match answer with
      | .wrote 0 => cases h; exact cons_ne_nil _ _
      | .wrote (n + 1) => exact ih h
      | .wouldBlock .pollOut => exact ih h
      | .wouldBlock .pollHup => cases h; exact cons_ne_nil _ _
      | .wouldBlock .neither => cases h
      | .error => cases h; exact cons_ne_nil _ _

inductive SerialPhase where
  | created
  | running
  | parked
  | writing (len : ℕ) (rest : Chunk)
  | waiting
  | purging (rounds generation : ℕ)
  | stopped
deriving DecidableEq

namespace SerialPhase

def isActive : SerialPhase → Bool
  | .running | .parked | .writing _ _ => true
  | _ => false

def isPurging : SerialPhase → Bool
  | .purging _ _ => true
  | _ => false

def isWriting : SerialPhase → Bool
  | .writing _ _ => true
  | _ => false

end SerialPhase

/-- Counters are tallies, which `u64` cells show modulo `2 ^ 64`. -/
structure SerialNode where
  inbox : TargetwardInbox Chunk
  senders : Bool
  writer : Bool
  purgeOnReconnect : Bool
  port : Bool
  generation : ℕ
  lost : Bool
  phase : SerialPhase
  purged : ℕ
  discardedAtTeardown : ℕ
  written : Chunk
  accepted : ℕ
  cut : ℕ

inductive Reopen where
  | absent
  | failed
  | opened
deriving DecidableEq

inductive SerialAct where
  | push (chunk : Chunk)
  | sendersGone
  | readerLost
  | adopt (armed : Bool)
  | poll (answers : List WriteFd)
  | reopen (outcome : Reopen) (armed : Bool)
  | resumePurge (armed : Bool)
  | signalStop
deriving DecidableEq

namespace SerialNode

def start (cap : ℕ) (purgeOnReconnect opened : Bool) : SerialNode where
  inbox := .new (.new cap)
  senders := true
  writer := true
  purgeOnReconnect
  port := opened
  generation := 0
  lost := false
  phase := .created
  purged := 0
  discardedAtTeardown := 0
  written := []
  accepted := 0
  cut := 0

variable (s : SerialNode)

def pushChunk (chunk : Chunk) : SerialNode :=
  let (accepted, inbox) := s.inbox.accept chunk
  { s with inbox, accepted := if accepted then s.accepted + chunk.length else s.accepted }

def releasePort : SerialNode := { s with port := false, generation := wrappingAdd s.generation 1 }

def adoptPort : SerialNode := { s with port := true, generation := wrappingAdd s.generation 1 }

def unarmed : SerialNode := { s.releasePort with phase := .waiting, lost := false }

def armReader (armed : Bool) : SerialNode :=
  if armed then { s with phase := .running, lost := false } else s.unarmed

def write (len : ℕ) (data : Chunk) (answers : List WriteFd) : SerialNode :=
  let (written, ended) := writeAll answers data
  let s := { s with written := s.written ++ written }
  match ended with
  | .done => { s with phase := .running }
  | .asleep rest => { s with phase := .writing len rest }
  | .failed _ => s.unarmed

def activeStep (answers : List WriteFd) : SerialNode :=
  if s.lost then s.unarmed
  else if s.writer then
    match s.inbox.settleHeld.pollRecv s.senders with
    | (.ready (some chunk), inbox) => { s with inbox }.write chunk.length chunk answers
    | (.ready none, inbox) => { s with inbox, writer := false, phase := .running }
    | (.pending, inbox) => { s with inbox, phase := .parked }
  else { s with phase := .parked }

def poll (answers : List WriteFd) : SerialNode :=
  match s.phase with
  | .running => if s.port then s.activeStep answers else { s with phase := .waiting }
  | .parked => s.activeStep answers
  | .writing len rest => s.write len rest answers
  | _ => s

def finishReopen (generation : ℕ) (armed : Bool) : SerialNode :=
  if s.generation = generation then s.armReader armed else { s with phase := .waiting }

def purgeRound : Bool × SerialNode :=
  let (bytes, drainedAny, inbox) := s.inbox.purgeRound
  (drainedAny, { s with inbox, purged := if bytes > 0 then s.purged + bytes else s.purged })

def purgeFrom (rounds generation : ℕ) (armed : Bool) : SerialNode :=
  if rounds < purgeRounds then
    if s.purgeRound.1 then { s.purgeRound.2 with phase := .purging (rounds + 1) generation }
    else s.purgeRound.2.finishReopen generation armed
  else s.finishReopen generation armed

def reopen (outcome : Reopen) (armed : Bool) : SerialNode :=
  match outcome with
  | .absent => s
  | .failed => s.unarmed
  | .opened =>
    let s := s.adoptPort
    if s.purgeOnReconnect && s.writer then s.purgeFrom 0 s.generation armed
    else s.finishReopen s.generation armed

def resumePurge (armed : Bool) : SerialNode :=
  match s.phase with
  | .purging rounds generation => s.purgeFrom rounds generation armed
  | _ => s

def adopt (armed : Bool) : SerialNode :=
  if s.port then s.armReader armed else { s with phase := .waiting }

def signalStop : SerialNode :=
  let (lost, inbox) := s.inbox.drainAndCount
  { s with
    inbox
    discardedAtTeardown :=
      if lost > 0 then s.discardedAtTeardown + lost else s.discardedAtTeardown
    phase := .stopped
    cut := match s.phase with
      | .writing len rest => s.cut + (len - rest.length)
      | _ => s.cut }

def step : SerialAct → SerialNode
  | .push chunk => s.pushChunk chunk
  | .sendersGone => { s with senders := false }
  | .readerLost => { s with lost := true }
  | .adopt armed => s.adopt armed
  | .poll answers => s.poll answers
  | .reopen outcome armed => s.reopen outcome armed
  | .resumePurge armed => s.resumePurge armed
  | .signalStop => s.signalStop

def Allowed : SerialAct → Prop
  | .push _ | .sendersGone | .signalStop => s.phase ≠ .running
  | .readerLost => True
  | .adopt _ => s.phase = .created
  | .poll _ => s.phase.isActive = true
  | .reopen _ _ => s.phase = .waiting
  | .resumePurge _ => s.phase.isPurging = true

def machine : Runs.Machine SerialNode SerialAct := ⟨step, Allowed⟩

/-! ### The law -/

def inHand : ℕ :=
  match s.phase with
  | .writing _ rest => rest.length
  | _ => 0

def books : ℕ := s.written.length + s.purged + s.discardedAtTeardown + s.inbox.queuedBytes

def Conserved : Prop :=
  s.written.length + s.purged + s.discardedAtTeardown + s.inbox.queuedBytes + s.inHand =
    s.accepted + s.cut

def Sound : Prop := ∀ len rest, s.phase = .writing len rest → s.inbox.held = len ∧ rest.length ≤ len

def next : Option Chunk :=
  match (s.inbox.settleHeld.pollRecv s.senders).1 with
  | .ready (some chunk) => if !s.lost && s.writer then some chunk else none
  | _ => none

def outgoing : Option Chunk :=
  match s.phase with
  | .running => if s.port then s.next else none
  | .parked => s.next
  | .writing _ rest => some rest
  | _ => none

def Harmless : SerialAct → Prop
  | .poll answers => ∀ data ∈ s.outgoing, (writeAll answers data).2.isFailed = false
  | .signalStop => s.phase.isWriting = true ∨ s.inbox.held = 0
  | _ => True

variable {s}

theorem start_conserved (cap : ℕ) (purge opened : Bool) : (start cap purge opened).Conserved := rfl

theorem start_sound (cap : ℕ) (purge opened : Bool) : (start cap purge opened).Sound := nofun

theorem not_writing_of_isPurging (h : s.phase.isPurging = true) : s.phase.isWriting = false := by
  cases hp : s.phase with
  | writing => rw [hp] at h; cases h
  | created | running | parked | waiting | purging | stopped => rfl

theorem inHand_of_not_writing (h : s.phase.isWriting = false) : s.inHand = 0 := by
  unfold inHand
  split
  · next hp => rw [hp] at h; cases h
  · rfl

structure Quiet (s s' : SerialNode) : Prop where
  books : s'.books = s.books
  accepted : s'.accepted = s.accepted
  cut : s'.cut = s.cut
  idle : s'.phase.isWriting = false

variable {s' : SerialNode} {len : ℕ} {data : Chunk} {a : SerialAct}

theorem Quiet.of_books {s₁ : SerialNode} (h : Quiet s₁ s') (hb : s₁.books = s.books)
    (ha : s₁.accepted = s.accepted) (hc : s₁.cut = s.cut) : Quiet s s' :=
  ⟨h.books.trans hb, h.accepted.trans ha, h.cut.trans hc, h.idle⟩

theorem Quiet.sound (h : Quiet s s') : s'.Sound := by
  intro len rest hp
  have hidle := h.idle
  rw [hp] at hidle
  cases hidle

theorem Quiet.conserved (h : Quiet s s') (hidle : s.phase.isWriting = false) (hs : s.Conserved) :
    s'.Conserved := by
  change s'.books + s'.inHand = s'.accepted + s'.cut
  rw [h.books, h.accepted, h.cut, inHand_of_not_writing h.idle, ← inHand_of_not_writing hidle]
  exact hs

theorem unarmed_quiet (s : SerialNode) : Quiet s s.unarmed := ⟨rfl, rfl, rfl, rfl⟩

theorem armReader_quiet (s : SerialNode) (armed : Bool) : Quiet s (s.armReader armed) := by
  cases armed
  · exact s.unarmed_quiet
  · exact ⟨rfl, rfl, rfl, rfl⟩

theorem finishReopen_quiet (s : SerialNode) (generation : ℕ) (armed : Bool) :
    Quiet s (s.finishReopen generation armed) := by
  unfold finishReopen
  split_ifs
  · exact s.armReader_quiet armed
  · exact ⟨rfl, rfl, rfl, rfl⟩

theorem purgeRound_books (s : SerialNode) : s.purgeRound.2.books = s.books := by
  have hround := s.inbox.purgeRound_spec.1
  change s.written.length +
    (if s.inbox.purgeRound.1 > 0 then s.purged + s.inbox.purgeRound.1 else s.purged) +
      s.discardedAtTeardown + s.inbox.purgeRound.2.2.queuedBytes = s.books
  unfold books
  split_ifs <;> omega

theorem purgeFrom_quiet (s : SerialNode) (rounds generation : ℕ) (armed : Bool) :
    Quiet s (s.purgeFrom rounds generation armed) := by
  unfold purgeFrom
  split_ifs
  · exact ⟨s.purgeRound_books, rfl, rfl, rfl⟩
  · exact (finishReopen_quiet _ generation armed).of_books s.purgeRound_books rfl rfl
  · exact s.finishReopen_quiet generation armed

theorem reopen_quiet (hidle : s.phase.isWriting = false) (outcome : Reopen) (armed : Bool) :
    Quiet s (s.reopen outcome armed) := by
  cases outcome with
  | absent => exact ⟨rfl, rfl, rfl, hidle⟩
  | failed => exact s.unarmed_quiet
  | opened =>
    unfold reopen
    dsimp only
    split_ifs
    · exact (purgeFrom_quiet _ _ _ armed).of_books rfl rfl rfl
    · exact (finishReopen_quiet _ _ armed).of_books rfl rfl rfl

theorem adopt_quiet (s : SerialNode) (armed : Bool) : Quiet s (s.adopt armed) := by
  unfold adopt
  split_ifs
  · exact s.armReader_quiet armed
  · exact ⟨rfl, rfl, rfl, rfl⟩

theorem resumePurge_quiet (hp : s.phase.isPurging = true) (armed : Bool) :
    Quiet s (s.resumePurge armed) := by
  unfold resumePurge
  cases hphase : s.phase with
  | purging rounds generation => exact s.purgeFrom_quiet rounds generation armed
  | created | running | parked | writing | waiting | stopped => rw [hphase] at hp; cases hp

theorem write_sound (hheld : s.inbox.held = len) (hle : data.length ≤ len)
    (answers : List WriteFd) : (s.write len data answers).Sound := by
  have hrest := congrArg List.length (writeAll_rest answers data)
  rw [length_append] at hrest
  unfold write
  dsimp only
  split
  · exact nofun
  · next rest he =>
    intro len' rest' hp
    cases hp
    rw [he, WriteEnd.rest] at hrest
    exact ⟨hheld, by omega⟩
  · exact nofun

theorem write_conserved_iff (hs : s.books + data.length = s.accepted + s.cut)
    (answers : List WriteFd) :
    (s.write len data answers).Conserved ↔ (writeAll answers data).2.isFailed = false := by
  have hrest := congrArg List.length (writeAll_rest answers data)
  rw [length_append] at hrest
  unfold books at hs
  unfold write
  dsimp only
  split
  · next he =>
    rw [he, WriteEnd.rest] at hrest
    simp only [Conserved, inHand, he, WriteEnd.isFailed, length_append, iff_true]
    simp only [length_nil] at hrest
    omega
  · next rest he =>
    rw [he, WriteEnd.rest] at hrest
    simp only [Conserved, inHand, he, WriteEnd.isFailed, length_append, iff_true]
    omega
  · next rest he =>
    have hpos := length_pos_iff.mpr (writeAll_failed he)
    rw [he, WriteEnd.rest] at hrest
    simp only [Conserved, inHand, unarmed, releasePort, he, WriteEnd.isFailed,
      length_append, Bool.true_eq_false, iff_false]
    omega

theorem next_eq_none (h : (!s.lost && s.writer) = false) : s.next = none := by
  unfold next
  rw [h]
  split <;> rfl

theorem activeStep_cases (s : SerialNode) (answers : List WriteFd) :
    (∃ chunk inbox, s.next = some chunk ∧ inbox.held = chunk.length ∧
        chunk.length + inbox.queuedBytes = s.inbox.queuedBytes ∧
        s.activeStep answers = { s with inbox }.write chunk.length chunk answers) ∨
      s.next = none ∧ Quiet s (s.activeStep answers) := by
  by_cases hl : s.lost = true
  · refine .inr ⟨next_eq_none (by simp [hl]), ?_⟩
    rw [activeStep, if_pos hl]
    exact s.unarmed_quiet
  by_cases hw : s.writer = true
  · have hnothing := s.inbox.settleHeld.pollRecv_nothing s.senders
    cases hp : s.inbox.settleHeld.pollRecv s.senders with
    | mk answer inbox =>
      rw [hp] at hnothing
      match answer with
      | .ready (some chunk) =>
        obtain ⟨-, -, hq, hheld⟩ := s.inbox.settleHeld.pollRecv_item s.senders
          (congrArg Prod.fst hp)
        rw [hp] at hq hheld
        refine .inl ⟨chunk, inbox, ?_, hheld, hq, ?_⟩
        · simp [next, hp, hl, hw]
        · rw [activeStep, if_neg hl, if_pos hw, hp]
      | .ready none =>
        obtain rfl := hnothing nofun
        refine .inr ⟨by rw [next, hp], ?_⟩
        rw [activeStep, if_neg hl, if_pos hw, hp]
        exact ⟨rfl, rfl, rfl, rfl⟩
      | .pending =>
        obtain rfl := hnothing nofun
        refine .inr ⟨by rw [next, hp], ?_⟩
        rw [activeStep, if_neg hl, if_pos hw, hp]
        exact ⟨rfl, rfl, rfl, rfl⟩
  · refine .inr ⟨next_eq_none (by simp [hw]), ?_⟩
    rw [activeStep, if_neg hl, if_neg hw]
    exact ⟨rfl, rfl, rfl, rfl⟩

theorem activeStep_sound (s : SerialNode) (answers : List WriteFd) :
    (s.activeStep answers).Sound := by
  rcases s.activeStep_cases answers with ⟨chunk, inbox, -, hheld, -, he⟩ | ⟨-, hquiet⟩
  · rw [he]
    exact write_sound (s := { s with inbox }) hheld le_rfl answers
  · exact hquiet.sound

theorem activeStep_conserved_iff (hidle : s.phase.isWriting = false) (hs : s.Conserved)
    (answers : List WriteFd) : (s.activeStep answers).Conserved ↔
      ∀ data ∈ s.next, (writeAll answers data).2.isFailed = false := by
  rcases s.activeStep_cases answers with ⟨chunk, inbox, hnext, -, hq, he⟩ | ⟨hnext, hquiet⟩
  · have hbooks : ({ s with inbox } : SerialNode).books + chunk.length = s.accepted + s.cut := by
      have hzero := inHand_of_not_writing hidle
      unfold Conserved at hs
      change s.written.length + s.purged + s.discardedAtTeardown + inbox.queuedBytes +
        chunk.length = _
      omega
    rw [he, hnext, write_conserved_iff hbooks]
    simp
  · rw [hnext]
    simp [hquiet.conserved hidle hs]

theorem poll_sound (hs : s.Sound) (answers : List WriteFd) : (s.poll answers).Sound := by
  unfold poll
  split
  · split_ifs
    · exact s.activeStep_sound answers
    · exact nofun
  · exact s.activeStep_sound answers
  · next len rest hp =>
    obtain ⟨hheld, hle⟩ := hs len rest hp
    exact write_sound hheld hle answers
  · exact hs

theorem poll_conserved_iff (hs : s.Conserved) (hok : s.phase.isActive = true)
    (answers : List WriteFd) : (s.poll answers).Conserved ↔ s.Harmless (.poll answers) := by
  unfold poll Harmless outgoing
  split
  · next hp =>
    have hidle : s.phase.isWriting = false := by rw [hp]; rfl
    split_ifs
    · exact activeStep_conserved_iff hidle hs answers
    · have hquiet : Quiet s { s with phase := .waiting } := ⟨rfl, rfl, rfl, rfl⟩
      simp [hquiet.conserved hidle hs]
  · next hp =>
    have hidle : s.phase.isWriting = false := by rw [hp]; rfl
    exact activeStep_conserved_iff hidle hs answers
  · next len rest hp =>
    have hhand : s.inHand = rest.length := by rw [inHand, hp]
    have hbooks : s.books + rest.length = s.accepted + s.cut := hhand ▸ hs
    rw [write_conserved_iff hbooks]
    simp
  · next h1 h2 h3 =>
    exfalso
    cases hp : s.phase with
    | running => exact h1 hp
    | parked => exact h2 hp
    | writing len rest => exact h3 len rest hp
    | created | waiting | purging | stopped => rw [hp] at hok; cases hok

theorem pushChunk_sound (hs : s.Sound) (chunk : Chunk) : (s.pushChunk chunk).Sound := by
  intro len rest hp
  obtain ⟨hheld, hle⟩ := hs len rest hp
  refine ⟨?_, hle⟩
  change (s.inbox.accept chunk).2.held = len
  rcases s.inbox.accept_spec chunk with ⟨-, -, h, -⟩ | ⟨-, h⟩
  · rw [h, hheld]
  · rw [h, hheld]

theorem pushChunk_conserved (hs : s.Conserved) (chunk : Chunk) : (s.pushChunk chunk).Conserved := by
  unfold Conserved at hs
  change s.written.length + s.purged + s.discardedAtTeardown +
    (s.inbox.accept chunk).2.queuedBytes + s.inHand =
      (if (s.inbox.accept chunk).1 then s.accepted + chunk.length else s.accepted) + s.cut
  rcases s.inbox.accept_spec chunk with ⟨hok, -, -, hq⟩ | ⟨hok, h⟩
  · have hbytes : teardownBytes chunk = chunk.length := rfl
    rw [hok, hq, if_pos rfl]
    omega
  · rw [hok, h]
    exact hs

theorem signalStop_conserved_iff (hsound : s.Sound) (hs : s.Conserved) :
    s.signalStop.Conserved ↔ s.Harmless .signalStop := by
  have hcount := s.inbox.drainAndCount_fst
  have hqueue : s.inbox.drainAndCount.2.queuedBytes = 0 := by
    rw [s.inbox.drainAndCount_snd]
    rfl
  have hstop : s.signalStop.Conserved ↔
      s.books + s.inbox.held = s.accepted + s.signalStop.cut := by
    change s.written.length + s.purged + (if s.inbox.drainAndCount.1 > 0 then
        s.discardedAtTeardown + s.inbox.drainAndCount.1 else s.discardedAtTeardown) +
      s.inbox.drainAndCount.2.queuedBytes + 0 = s.accepted + s.signalStop.cut ↔ _
    unfold books
    split_ifs <;> omega
  rw [hstop]
  change s.books + s.inHand = s.accepted + s.cut at hs
  cases hp : s.phase with
  | writing len rest =>
    obtain ⟨hheld, hle⟩ := hsound len rest hp
    have hcut : s.signalStop.cut = s.cut + (len - rest.length) := by simp [signalStop, hp]
    have hhand : s.inHand = rest.length := by simp [inHand, hp]
    simp only [Harmless, hp, SerialPhase.isWriting, true_or, iff_true]
    omega
  | created | running | parked | waiting | purging | stopped =>
    have hcut : s.signalStop.cut = s.cut := by simp [signalStop, hp]
    have hhand : s.inHand = 0 := by simp [inHand, hp]
    simp only [Harmless, hp, SerialPhase.isWriting, Bool.false_eq_true, false_or]
    omega

theorem step_sound (hs : s.Sound) (hok : s.Allowed a) : (s.step a).Sound := by
  cases a with
  | push chunk => exact pushChunk_sound hs chunk
  | sendersGone | readerLost => exact hs
  | adopt armed => exact (s.adopt_quiet armed).sound
  | poll answers => exact poll_sound hs answers
  | reopen outcome armed =>
    have hp : s.phase = .waiting := hok
    exact (reopen_quiet (by rw [hp]; rfl) outcome armed).sound
  | resumePurge armed => exact (resumePurge_quiet hok armed).sound
  | signalStop => exact nofun

theorem step_conserved_iff (hsound : s.Sound) (hok : s.Allowed a) (hs : s.Conserved) :
    (s.step a).Conserved ↔ s.Harmless a := by
  have hquiet {s' : SerialNode} (hidle : s.phase.isWriting = false) (h : Quiet s s') :
      s'.Conserved ↔ True := iff_of_true (h.conserved hidle hs) trivial
  cases a with
  | push chunk => exact iff_of_true (pushChunk_conserved hs chunk) trivial
  | sendersGone | readerLost => exact iff_of_true hs trivial
  | adopt armed =>
    have hp : s.phase = .created := hok
    exact hquiet (by rw [hp]; rfl) (s.adopt_quiet armed)
  | poll answers => exact poll_conserved_iff hs hok answers
  | reopen outcome armed =>
    have hp : s.phase = .waiting := hok
    have hidle : s.phase.isWriting = false := by rw [hp]; rfl
    exact hquiet hidle (reopen_quiet hidle outcome armed)
  | resumePurge armed =>
    exact hquiet (not_writing_of_isPurging hok) (resumePurge_quiet hok armed)
  | signalStop => exact signalStop_conserved_iff hsound hs

theorem serial_conserved_iff (cap : ℕ) (purge opened : Bool) (as : List SerialAct)
    (hl : machine.Legal (start cap purge opened) as) :
    machine.Always Conserved (start cap purge opened) as ↔
      machine.Each Harmless (start cap purge opened) as :=
  Runs.Machine.always_iff_each (I := Sound) (fun _ _ hs hok => step_sound hs hok)
    (fun _ _ hsound hok hs => step_conserved_iff hsound hok hs) (start_sound cap purge opened)
    (start_conserved cap purge opened) hl

instance (s : SerialNode) : ∀ a, Decidable (machine.ok s a)
  | .push _ | .sendersGone | .signalStop => inferInstanceAs (Decidable (s.phase ≠ .running))
  | .readerLost => .isTrue trivial
  | .adopt _ => inferInstanceAs (Decidable (s.phase = .created))
  | .poll _ => inferInstanceAs (Decidable (s.phase.isActive = true))
  | .reopen _ _ => inferInstanceAs (Decidable (s.phase = .waiting))
  | .resumePurge _ => inferInstanceAs (Decidable (s.phase.isPurging = true))

instance (s : SerialNode) : Decidable s.Conserved := inferInstanceAs (Decidable (_ = _))

instance (s : SerialNode) : ∀ a, Decidable (s.Harmless a)
  | .poll answers =>
    inferInstanceAs (Decidable (∀ data ∈ s.outgoing, (writeAll answers data).2.isFailed = false))
  | .signalStop =>
    inferInstanceAs (Decidable (s.phase.isWriting = true ∨ s.inbox.held = 0))
  | .push _ | .sendersGone | .readerLost | .adopt _ | .reopen _ _ | .resumePurge _ =>
    .isTrue trivial

def outage : List SerialAct :=
  [.adopt true, .poll [], .push [1, 2], .poll [.wrote 1, .wouldBlock .neither], .poll [.wrote 1],
    .poll [], .readerLost, .poll [], .push [3, 4, 5], .reopen .absent true, .reopen .opened true,
    .push [6], .resumePurge true, .resumePurge true, .poll [], .push [7, 8], .poll [.wrote 1],
    .push [9], .signalStop]

theorem serial_conserved_iff_outage :
    machine.Always Conserved (start 4 true true) outage ∧
      (machine.run (start 4 true true) outage).written = [1, 2, 7] ∧
      (machine.run (start 4 true true) outage).purged = 4 ∧
      (machine.run (start 4 true true) outage).discardedAtTeardown = 3 := by
  have hl : machine.Legal (start 4 true true) outage := by decide +kernel
  exact ⟨(serial_conserved_iff 4 true true outage hl).mpr (by decide +kernel), by decide +kernel,
    by decide +kernel, by decide +kernel⟩

theorem failed_write_uncounted :
    ∃ as, machine.Legal (start 4 true true) as ∧ ¬ machine.Always Conserved (start 4 true true) as ∧
      (machine.run (start 4 true true) as).accepted = 3 ∧
      (machine.run (start 4 true true) as).written = [1] ∧
      (machine.run (start 4 true true) as).purged = 0 ∧
      (machine.run (start 4 true true) as).discardedAtTeardown = 0 :=
  ⟨[.push [1, 2, 3], .adopt true, .poll [.wrote 1, .error], .reopen .opened true, .poll [],
    .signalStop], by decide +kernel⟩

end SerialNode
end SerialNexus
