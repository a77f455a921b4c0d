import SerialNexus.Runs
import SerialNexus.Words

/-! # The serial node's signal verbs

`send-break`, `pulse-dtr` and `set-modem` (`daemon/src/nodes/serial.rs`) drive the lines of a port
through a handle that remembers the generation at which it was taken, and every access looks the
port up again.  The first two hold a line across a sleep, with a lease on the port's one line slot
and a guard that restores the line when the verb ends, is refused or is cancelled.

A step is what one party does up to its next await: a verb is polled or dropped, or the node's port
changes.  The driver's answer to each operation is part of the step, so any operation may fail. -/

namespace SerialNexus

open List

abbrev PortId := ℕ

abbrev VerbId := ℕ

inductive PortOp where
  | setBreak (on : Bool)
  | setDtr (level : Bool)
  | setRts (level : Bool)
  | setExclusive (on : Bool)
deriving DecidableEq

abbrev Driver := PortOp → Option ℕ

inductive SignalError where
  | io (errno : ℕ)
  | nodeGone
  | lineBusy
deriving DecidableEq

structure SerialShared where
  port : Option PortId
  generation : ℕ
  signalInFlight : Option ℕ
deriving DecidableEq

namespace SerialShared

variable (sh : SerialShared)

def setPort (port : Option PortId) : Option PortId × SerialShared :=
  (sh.port, { sh with port, generation := wrappingAdd sh.generation 1 })

def withScopedPort {α : Type*} (generation : ℕ) (f : PortId → α) : Except SignalError α :=
  match sh.port with
  | some port => if sh.generation = generation then .ok (f port) else .error .nodeGone
  | none => .error .nodeGone

def claimLine (generation : ℕ) : Except SignalError SerialShared :=
  if sh.port.isNone ∨ sh.generation ≠ generation then .error .nodeGone
  else if sh.signalInFlight = some sh.generation then .error .lineBusy
  else .ok { sh with signalInFlight := some sh.generation }

def dropLease (generation : ℕ) : SerialShared :=
  if sh.signalInFlight = some generation then { sh with signalInFlight := none } else sh

theorem dropLease_eq (generation : ℕ) :
    sh.dropLease generation =
      { sh with signalInFlight :=
          if sh.signalInFlight = some generation then none else sh.signalInFlight } := by
  unfold dropLease
  split_ifs <;> rfl

variable {sh}

theorem withScopedPort_eq {α : Type*} {p : PortId} (hp : sh.port = some p) {generation : ℕ}
    (hgen : sh.generation = generation) (f : PortId → α) :
    sh.withScopedPort generation f = .ok (f p) := by
  rw [withScopedPort, hp]
  exact if_pos hgen

theorem withScopedPort_cases {α : Type*} (generation : ℕ) (f : PortId → α) :
    (∃ p, sh.port = some p ∧ sh.generation = generation ∧
      sh.withScopedPort generation f = .ok (f p)) ∨
    ((∀ p, sh.port = some p → sh.generation ≠ generation) ∧
      sh.withScopedPort generation f = .error .nodeGone) := by
  unfold withScopedPort
  cases sh.port with
  | none => exact .inr ⟨nofun, rfl⟩
  | some p =>
    by_cases h : sh.generation = generation
    · exact .inl ⟨p, rfl, h, if_pos h⟩
    · exact .inr ⟨fun _ _ => h, if_neg h⟩

theorem claimLine_cases (generation : ℕ) :
    (∃ p, sh.port = some p ∧ sh.generation = generation ∧ sh.signalInFlight ≠ some sh.generation ∧
      sh.claimLine generation = .ok { sh with signalInFlight := some sh.generation }) ∨
    ∃ e, sh.claimLine generation = .error e := by
  unfold claimLine
  split_ifs with hgone hbusy
  · exact .inr ⟨_, rfl⟩
  · exact .inr ⟨_, rfl⟩
  · push Not at hgone
    obtain ⟨p, hp⟩ := Option.ne_none_iff_exists'.mp (by simpa using hgone.1)
    exact .inl ⟨p, hp, hgone.2, hbusy, rfl⟩

end SerialShared

/-! ### Calls -/

inductive SignalVerb where
  | sendBreak
  | pulseDtr (assert : Bool)
  | setModem (dtr rts : Option Bool)
deriving DecidableEq

inductive RestoreOp where
  | clearBreak
  | setDtr (level : Bool)
deriving DecidableEq

def RestoreOp.op : RestoreOp → PortOp
  | .clearBreak => .setBreak false
  | .setDtr level => .setDtr level

inductive CallPhase where
  | ready
  | holding (restore : RestoreOp) (woken : Bool)
  | ended (result : Option (Except SignalError Unit))

structure Call where
  verb : SignalVerb
  generation : ℕ
  port : PortId
  phase : CallPhase

def Call.isHolding (c : Call) : Bool :=
  match c.phase with
  | .holding _ _ => true
  | _ => false

/-- The port has changed. -/
def Call.wake (c : Call) : Call :=
  match c.phase with
  | .holding restore _ => { c with phase := .holding restore true }
  | _ => c

@[simp] theorem Call.wake_generation (c : Call) : c.wake.generation = c.generation := by
  unfold Call.wake
  split <;> rfl

@[simp] theorem Call.wake_port (c : Call) : c.wake.port = c.port := by
  unfold Call.wake
  split <;> rfl

@[simp] theorem Call.wake_isHolding (c : Call) : c.wake.isHolding = c.isHolding := by
  rcases c with ⟨verb, generation, port, _ | ⟨restore, woken⟩ | result⟩ <;> rfl

inductive IoctlRole where
  | assert
  | restore
  | modem
  | release
deriving DecidableEq

structure Ioctl where
  issuer : Option VerbId
  port : PortId
  role : IoctlRole
  op : PortOp
  error : Option ℕ
deriving DecidableEq

/-! ### The node -/

structure SignalWorld where
  shared : SerialShared
  calls : VerbId → Option Call
  opened : List PortId
  claimed : PortId → Bool
  transitions : ℕ
  log : List Ioctl

inductive SignalAct where
  | take (v : VerbId) (verb : SignalVerb)
  | poll (v : VerbId) (elapsed : Bool) (driver : Driver)
  | cancel (v : VerbId) (driver : Driver)
  | release (driver : Driver)
  | adopt (p : PortId)
  | dropPort (p : PortId) (driver : Driver)

namespace SignalWorld

def start (port : Option PortId) : SignalWorld where
  shared := ⟨port, 0, none⟩
  calls _ := none
  opened := port.toList
  claimed p := decide (port = some p)
  transitions := 0
  log := []

variable (w : SignalWorld)

/-- A call moves on. -/
def setPhase (v : VerbId) (c : Call) (phase : CallPhase) : SignalWorld :=
  { w with calls := Function.update w.calls v (some { c with phase }) }

def takeHandle (v : VerbId) (verb : SignalVerb) : SignalWorld :=
  match w.shared.port with
  | some port =>
    { w with calls := Function.update w.calls v (some ⟨verb, w.shared.generation, port, .ready⟩) }
  | none => w

/-- `send-break` and `pulse-dtr` up to their sleep: claim the line, assert it, set up the guard. -/
def holdLine (v : VerbId) (c : Call) (assert : PortOp) (restore : RestoreOp) (driver : Driver) :
    SignalWorld :=
  match w.shared.claimLine c.generation with
  | .error e => w.setPhase v c (.ended (some (.error e)))
  | .ok shared =>
    match shared.withScopedPort c.generation
      (fun port => (⟨some v, port, .assert, assert, driver assert⟩ : Ioctl)) with
    | .error e =>
      { w with shared := shared.dropLease c.generation }.setPhase v c (.ended (some (.error e)))
    | .ok ioctl =>
      match ioctl.error with
      | some errno =>
        { w with
          shared := shared.dropLease c.generation
          log := w.log ++ [ioctl] }.setPhase v c (.ended (some (.error (.io errno))))
      | none => { w with shared, log := w.log ++ [ioctl] }.setPhase v c (.holding restore false)

def endHold (v : VerbId) (c : Call) (restore : RestoreOp) (driver : Driver)
    (result : Option (Except SignalError Unit)) : SignalWorld :=
  let log := match w.shared.withScopedPort c.generation
      (fun port => (⟨some v, port, .restore, restore.op, driver restore.op⟩ : Ioctl)) with
    | .ok ioctl => w.log ++ [ioctl]
    | .error _ => w.log
  { w with shared := w.shared.dropLease c.generation, log }.setPhase v c (.ended result)

def modemOps (v : VerbId) (port : PortId) (driver : Driver) : List PortOp → List Ioctl × Option ℕ
  | [] => ([], none)
  | op :: ops =>
    match driver op with
    | some errno => ([⟨some v, port, .modem, op, some errno⟩], some errno)
    | none =>
      let (rest, error) := modemOps v port driver ops
      (⟨some v, port, .modem, op, none⟩ :: rest, error)

def setModem (v : VerbId) (c : Call) (dtr rts : Option Bool) (driver : Driver) : SignalWorld :=
  match w.shared.withScopedPort c.generation fun port =>
      modemOps v port driver ((dtr.map PortOp.setDtr).toList ++ (rts.map PortOp.setRts).toList) with
  | .error e => w.setPhase v c (.ended (some (.error e)))
  | .ok (issued, error) =>
    { w with log := w.log ++ issued }.setPhase v c
      (.ended (some (match error with | some errno => .error (.io errno) | none => .ok ())))

/-- Poll a call. -/
def pollCall (v : VerbId) (c : Call) (elapsed : Bool) (driver : Driver) : SignalWorld :=
  match c.phase with
  | .ready =>
    match c.verb with
    | .sendBreak => w.holdLine v c (.setBreak true) .clearBreak driver
    | .pulseDtr assert => w.holdLine v c (.setDtr assert) (.setDtr !assert) driver
    | .setModem dtr rts => w.setModem v c dtr rts driver
  | .holding restore woken =>
    if woken then w.endHold v c restore driver (some (.error .nodeGone))
    else if elapsed then
      w.endHold v c restore driver (some (w.shared.withScopedPort c.generation fun _ => ()))
    else w
  | .ended _ => w

/-- Drop a call. -/
def cancelCall (v : VerbId) (c : Call) (driver : Driver) : SignalWorld :=
  match c.phase with
  | .ready => w.setPhase v c (.ended none)
  | .holding restore _ => w.endHold v c restore driver none
  | .ended _ => w

def releaseClaims (p : PortId) (driver : Driver) : SignalWorld :=
  if w.claimed p then
    { w with
      claimed := Function.update w.claimed p false
      log := w.log ++ [⟨none, p, .release, .setBreak false, driver (.setBreak false)⟩,
        ⟨none, p, .release, .setExclusive false, driver (.setExclusive false)⟩] }
  else w

def transition (port : Option PortId) : SignalWorld :=
  { w with
    shared := (w.shared.setPort port).2
    calls := fun v => (w.calls v).map Call.wake
    opened := port.toList ++ w.opened
    transitions := w.transitions + 1 }

def releasePort (driver : Driver) : SignalWorld :=
  match (w.shared.setPort none).1 with
  | some p => (w.transition none).releaseClaims p driver
  | none => w.transition none

def adoptPort (p : PortId) : SignalWorld :=
  { w.transition (some p) with claimed := Function.update w.claimed p true }

def step : SignalAct → SignalWorld
  | .take v verb => w.takeHandle v verb
  | .poll v elapsed driver =>
    match w.calls v with
    | some c => w.pollCall v c elapsed driver
    | none => w
  | .cancel v driver =>
    match w.calls v with
    | some c => w.cancelCall v c driver
    | none => w
  | .release driver => w.releasePort driver
  | .adopt p => w.adoptPort p
  | .dropPort p driver => w.releaseClaims p driver

def Allowed : SignalAct → Prop
  | .take v _ => w.calls v = none
  | .adopt p => p ∉ w.opened
  | .dropPort p _ => w.shared.port ≠ some p
  | .poll .. | .cancel .. | .release .. => True

def machine : Runs.Machine SignalWorld SignalAct := ⟨step, Allowed⟩

end SignalWorld

namespace Ioctl

variable (p : PortId)

def hold (held : Option VerbId) (e : Ioctl) : Option VerbId :=
  if e.port = p then
    match e.role, e.error with
    | .assert, none => e.issuer
    | .restore, _ => none
    | _, _ => held
  else held

def holder (log : List Ioctl) : Option VerbId := log.foldl (hold p) none

def TakeTurns : Option VerbId → List Ioctl → Prop
  | _, [] => True
  | held, e :: log =>
    (e.port = p → (e.role = .assert → held = none) ∧ (e.role = .restore → held = e.issuer)) ∧
      TakeTurns (hold p held e) log

variable {p}

def Neutral (e : Ioctl) : Prop := e.role ≠ .assert ∧ e.role ≠ .restore

variable {e : Ioctl} {log more : List Ioctl}

theorem hold_of_ne (h : e.port ≠ p) (held : Option VerbId) : hold p held e = held := if_neg h

theorem hold_neutral (h : e.Neutral) (held : Option VerbId) : hold p held e = held := by
  obtain ⟨hassert, hrestore⟩ := h
  unfold hold
  split_ifs
  · split <;> simp_all
  · rfl

theorem foldl_hold_neutral (h : ∀ e ∈ log, e.Neutral) (held : Option VerbId) :
    log.foldl (hold p) held = held := by
  induction log with
  | nil => rfl
  | cons e log ih =>
    rw [foldl_cons, hold_neutral (h e mem_cons_self)]
    exact ih fun e he => h e (mem_cons_of_mem _ he)

theorem holder_append_neutral (log : List Ioctl) {more : List Ioctl} (h : ∀ e ∈ more, e.Neutral) :
    holder p (log ++ more) = holder p log := by
  rw [holder, foldl_append, foldl_hold_neutral h, holder]

theorem holder_concat (log : List Ioctl) (e : Ioctl) :
    holder p (log ++ [e]) = hold p (holder p log) e := by
  rw [holder, foldl_append]
  rfl

theorem takeTurns_append {held : Option VerbId} :
    TakeTurns p held (log ++ more) ↔
      TakeTurns p held log ∧ TakeTurns p (log.foldl (hold p) held) more := by
  induction log generalizing held with
  | nil => simp [TakeTurns]
  | cons e log ih => rw [cons_append, TakeTurns, TakeTurns, ih, and_assoc, foldl_cons]

theorem takeTurns_neutral (h : ∀ e ∈ log, e.Neutral) (held : Option VerbId) :
    TakeTurns p held log := by
  induction log generalizing held with
  | nil => trivial
  | cons e log ih =>
    obtain ⟨hassert, hrestore⟩ := h e mem_cons_self
    exact ⟨fun _ => ⟨fun ha => absurd ha hassert, fun hr => absurd hr hrestore⟩,
      ih (fun e he => h e (mem_cons_of_mem _ he)) _⟩

theorem mem_of_holder {v : VerbId} (h : holder p log = some v) :
    ∃ e ∈ log, e.port = p ∧ e.issuer = some v := by
  induction log using List.reverseRecOn with
  | nil => cases h
  | append_singleton log e ih =>
    rw [holder_concat] at h
    by_cases hold' : holder p log = some v
    · obtain ⟨e', hmem, he'⟩ := ih hold'
      exact ⟨e', mem_append_left _ hmem, he'⟩
    · refine ⟨e, by simp, ?_⟩
      unfold hold at h
      split_ifs at h with hport
      · refine ⟨hport, ?_⟩
        split at h
        · exact h
        · cases h
        · exact absurd h hold'
      · exact absurd h hold'

end Ioctl

namespace SignalWorld

variable {w : SignalWorld}

structure Scoped (w : SignalWorld) : Prop where
  generation : w.shared.generation = w.transitions
  opened : ∀ p, w.shared.port = some p → p ∈ w.opened
  call_opened : ∀ v c, w.calls v = some c → c.port ∈ w.opened
  call_le : ∀ v c, w.calls v = some c → c.generation ≤ w.shared.generation
  current : ∀ v c, w.calls v = some c →
    (w.shared.port = some c.port ↔ c.generation = w.shared.generation)
  issued : ∀ e ∈ w.log, ∀ v, e.issuer = some v → ∃ c, w.calls v = some c ∧ c.port = e.port
  turns : ∀ p, Ioctl.TakeTurns p none w.log
  holds : ∀ v c, w.calls v = some c → c.isHolding = true → Ioctl.holder c.port w.log = some v
  held : ∀ p v, w.shared.port = some p → Ioctl.holder p w.log = some v →
    ∃ c, w.calls v = some c ∧ c.isHolding = true ∧ c.port = p
  slot : ∀ v c, w.calls v = some c → c.isHolding = true → w.shared.port = some c.port →
    w.shared.signalInFlight = some w.shared.generation

theorem start_scoped (port : Option PortId) : (start port).Scoped where
  generation := rfl
  opened p h := by
    change port = some p at h
    simp [start, h]
  call_opened := nofun
  call_le := nofun
  current := nofun
  issued := nofun
  turns _ := trivial
  holds := nofun
  held := nofun
  slot := nofun

theorem Scoped.append (hw : w.Scoped) {more : List Ioctl} (hn : ∀ e ∈ more, e.Neutral)
    (hissued : ∀ e ∈ more, ∀ v, e.issuer = some v → ∃ c, w.calls v = some c ∧ c.port = e.port) :
    Scoped { w with log := w.log ++ more } where
  generation := hw.generation
  opened := hw.opened
  call_opened := hw.call_opened
  call_le := hw.call_le
  current := hw.current
  issued e he := by
    rcases mem_append.mp he with he | he
    · exact hw.issued e he
    · exact hissued e he
  turns p := Ioctl.takeTurns_append.mpr ⟨hw.turns p, Ioctl.takeTurns_neutral hn _⟩
  holds v c hc hh := by
    rw [Ioctl.holder_append_neutral _ hn]
    exact hw.holds v c hc hh
  held p v hp hh := by
    rw [Ioctl.holder_append_neutral _ hn] at hh
    exact hw.held p v hp hh
  slot := hw.slot

theorem Scoped.releaseClaims (hw : w.Scoped) (p : PortId) (driver : Driver) :
    (w.releaseClaims p driver).Scoped := by
  unfold SignalWorld.releaseClaims
  split
  · have hneutral : ∀ e ∈ ([⟨none, p, .release, .setBreak false, driver (.setBreak false)⟩,
        ⟨none, p, .release, .setExclusive false, driver (.setExclusive false)⟩] : List Ioctl),
        e.Neutral := by simp [Ioctl.Neutral]
    exact { hw.append hneutral (by simp) with }
  · exact hw

theorem Scoped.transition (hw : w.Scoped) {port : Option PortId}
    (hnew : ∀ p, port = some p → p ∉ w.opened) (hb : w.transitions + 1 < u64Size) :
    (w.transition port).Scoped := by
  have hgen : wrappingAdd w.shared.generation 1 = w.shared.generation + 1 := by
    rw [hw.generation]
    exact wrappingAdd_of_lt hb
  have hold : ∀ v c, (w.transition port).calls v = some c →
      ∃ c₀, w.calls v = some c₀ ∧ c₀.wake = c := fun v c hc => Option.map_eq_some_iff.mp hc
  have hstale : ∀ v c, w.calls v = some c → port ≠ some c.port := fun v c hc hp =>
    hnew c.port hp (hw.call_opened v c hc)
  constructor
  case generation => exact hgen.trans (congrArg (· + 1) hw.generation)
  case opened =>
    intro p hp
    change port = some p at hp
    exact mem_append_left _ (by simp [hp])
  case call_opened =>
    intro v c hc
    obtain ⟨c₀, hc₀, rfl⟩ := hold v c hc
    rw [Call.wake_port]
    exact mem_append_right _ (hw.call_opened v c₀ hc₀)
  case call_le =>
    intro v c hc
    obtain ⟨c₀, hc₀, rfl⟩ := hold v c hc
    change _ ≤ wrappingAdd w.shared.generation 1
    rw [hgen, Call.wake_generation]
    exact Nat.le_succ_of_le (hw.call_le v c₀ hc₀)
  case current =>
    intro v c hc
    obtain ⟨c₀, hc₀, rfl⟩ := hold v c hc
    have hlt := hw.call_le v c₀ hc₀
    change port = some c₀.wake.port ↔ c₀.wake.generation = wrappingAdd w.shared.generation 1
    rw [hgen, Call.wake_generation, Call.wake_port]
    exact iff_of_false (hstale v c₀ hc₀) (by omega)
  case issued =>
    intro e he v hv
    obtain ⟨c, hc, hport⟩ := hw.issued e he v hv
    exact ⟨c.wake, congrArg (Option.map Call.wake) hc, by rw [Call.wake_port, hport]⟩
  case turns => exact hw.turns
  case holds =>
    intro v c hc hh
    obtain ⟨c₀, hc₀, rfl⟩ := hold v c hc
    rw [Call.wake_isHolding] at hh
    rw [Call.wake_port]
    exact hw.holds v c₀ hc₀ hh
  case held =>
    intro p v hp hh
    obtain ⟨e, he, rfl, hv⟩ := Ioctl.mem_of_holder hh
    obtain ⟨c, hc, hport⟩ := hw.issued e he v hv
    exact absurd (hport ▸ hp) (hstale v c hc)
  case slot =>
    intro v c hc hh hp
    obtain ⟨c₀, hc₀, rfl⟩ := hold v c hc
    rw [Call.wake_port] at hp
    exact absurd hp (hstale v c₀ hc₀)

section calls
variable {v : VerbId} {c : Call}

theorem setPhase_self (phase : CallPhase) :
    (w.setPhase v c phase).calls v = some { c with phase } := Function.update_self ..

variable {u : VerbId} {phase : CallPhase} {d : Call} {p : PortId} {e : Ioctl}

theorem setPhase_other (phase : CallPhase) (hu : u ≠ v) :
    (w.setPhase v c phase).calls u = w.calls u := Function.update_of_ne hu ..

theorem setPhase_calls (h : (w.setPhase v c phase).calls u = some d) :
    (u = v ∧ d = { c with phase }) ∨ (u ≠ v ∧ w.calls u = some d) := by
  by_cases hu : u = v
  · subst hu
    rw [setPhase_self, Option.some.injEq] at h
    exact .inl ⟨rfl, h.symm⟩
  · rw [setPhase_other phase hu] at h
    exact .inr ⟨hu, h⟩

theorem Scoped.advance (hw : w.Scoped) (hc : w.calls v = some c) {slot : Option ℕ}
    {log : List Ioctl}
    (hissued : ∀ e ∈ log, ∀ u, e.issuer = some u → ∃ d, w.calls u = some d ∧ d.port = e.port)
    (hturns : ∀ p, Ioctl.TakeTurns p none log)
    (hother : ∀ p u, u ≠ v → (Ioctl.holder p log = some u ↔ Ioctl.holder p w.log = some u))
    (hslot : ∀ u d, u ≠ v → w.calls u = some d → d.isHolding = true →
      w.shared.port = some d.port → slot = some w.shared.generation)
    (hholding : Call.isHolding { c with phase } = true →
      Ioctl.holder c.port log = some v ∧ slot = some w.shared.generation)
    (hidle : Call.isHolding { c with phase } = false →
      ∀ p, w.shared.port = some p → Ioctl.holder p log ≠ some v) :
    Scoped (setPhase { w with shared := { w.shared with signalInFlight := slot }, log } v c
      phase) := by
  have hcalls : ∀ u d, (setPhase { w with shared := { w.shared with signalInFlight := slot }, log }
      v c phase).calls u = some d → (u = v ∧ d = { c with phase }) ∨ (u ≠ v ∧ w.calls u = some d) :=
    fun u d => setPhase_calls
  constructor
  case generation => exact hw.generation
  case opened => exact hw.opened
  case call_opened =>
    intro u d hd
    obtain ⟨rfl, rfl⟩ | ⟨-, hd⟩ := hcalls u d hd
    · exact hw.call_opened u c hc
    · exact hw.call_opened u d hd
  case call_le =>
    intro u d hd
    obtain ⟨rfl, rfl⟩ | ⟨-, hd⟩ := hcalls u d hd
    · exact hw.call_le u c hc
    · exact hw.call_le u d hd
  case current =>
    intro u d hd
    obtain ⟨rfl, rfl⟩ | ⟨-, hd⟩ := hcalls u d hd
    · exact hw.current u c hc
    · exact hw.current u d hd
  case issued =>
    intro e he u hu
    obtain ⟨d, hd, hport⟩ := hissued e he u hu
    by_cases huv : u = v
    · subst huv
      rw [hc, Option.some.injEq] at hd
      exact ⟨_, setPhase_self phase, hd ▸ hport⟩
    · exact ⟨d, (setPhase_other phase huv).trans hd, hport⟩
  case turns => exact hturns
  case holds =>
    intro u d hd hh
    obtain ⟨rfl, rfl⟩ | ⟨huv, hd⟩ := hcalls u d hd
    · exact (hholding hh).1
    · exact (hother d.port u huv).mpr (hw.holds u d hd hh)
  case held =>
    intro p u hp hh
    by_cases huv : u = v
    · subst huv
      cases hphase : Call.isHolding { c with phase } with
      | false => exact absurd hh (hidle hphase p hp)
      | true =>
        obtain ⟨e, he, rfl, hissuer⟩ := Ioctl.mem_of_holder hh
        obtain ⟨d, hd, hport⟩ := hissued e he u hissuer
        rw [hc, Option.some.injEq] at hd
        exact ⟨_, setPhase_self phase, hphase, hd ▸ hport⟩
    · obtain ⟨d, hd, hdh, hport⟩ := hw.held p u hp ((hother p u huv).mp hh)
      exact ⟨d, (setPhase_other phase huv).trans hd, hdh, hport⟩
  case slot =>
    intro u d hd hh hp
    obtain ⟨rfl, rfl⟩ | ⟨huv, hd⟩ := hcalls u d hd
    · exact (hholding hh).2
    · exact hslot u d huv hd hh hp

theorem Scoped.not_holder (hw : w.Scoped) (hc : w.calls v = some c) (hh : c.isHolding = false)
    (hp : w.shared.port = some p) : Ioctl.holder p w.log ≠ some v := by
  intro hholder
  obtain ⟨d, hd, hdh, -⟩ := hw.held p v hp hholder
  rw [hc, Option.some.injEq] at hd
  rw [← hd, hh] at hdh
  cases hdh

theorem Scoped.settle (hw : w.Scoped) (hc : w.calls v = some c) (hh : c.isHolding = false)
    (result : Option (Except SignalError Unit)) : (w.setPhase v c (.ended result)).Scoped :=
  hw.advance hc hw.issued hw.turns (fun _ _ _ => Iff.rfl) (fun u d _ hd hh hp => hw.slot u d hd hh hp)
    nofun fun _ _ hp => hw.not_holder hc hh hp

theorem Scoped.line_free (hw : w.Scoped) (hp : w.shared.port = some p)
    (hfree : w.shared.signalInFlight ≠ some w.shared.generation) : Ioctl.holder p w.log = none := by
  rw [Option.eq_none_iff_forall_ne_some]
  intro u hu
  obtain ⟨d, hd, hdh, rfl⟩ := hw.held p u hp hu
  exact hfree (hw.slot u d hd hdh hp)

theorem Scoped.issued_concat (hw : w.Scoped) (hc : w.calls v = some c) (hv : e.issuer = some v)
    (hport : e.port = c.port) :
    ∀ e' ∈ w.log ++ [e], ∀ u, e'.issuer = some u → ∃ d, w.calls u = some d ∧ d.port = e'.port := by
  intro e' he' u hu
  rcases mem_append.mp he' with he' | he'
  · exact hw.issued e' he' u hu
  · obtain rfl := mem_singleton.mp he'
    rw [hv, Option.some.injEq] at hu
    exact ⟨c, hu ▸ hc, hport.symm⟩

theorem turns_concat (hw : ∀ p, Ioctl.TakeTurns p none w.log)
    (he : (e.role = .assert → Ioctl.holder e.port w.log = none) ∧
      (e.role = .restore → Ioctl.holder e.port w.log = e.issuer)) (p : PortId) :
    Ioctl.TakeTurns p none (w.log ++ [e]) := by
  refine Ioctl.takeTurns_append.mpr ⟨hw p, ?_, trivial⟩
  rintro rfl
  exact he

theorem Scoped.assert (hw : w.Scoped) (hc : w.calls v = some c) (hp : w.shared.port = some c.port)
    (hfree : w.shared.signalInFlight ≠ some w.shared.generation) (op : PortOp)
    (restore : RestoreOp) :
    Scoped (setPhase { w with
      shared := { w.shared with signalInFlight := some w.shared.generation }
      log := w.log ++ [⟨some v, c.port, .assert, op, none⟩] } v c (.holding restore false)) := by
  have hnone := hw.line_free hp hfree
  have hmine : Ioctl.holder c.port (w.log ++ [⟨some v, c.port, .assert, op, none⟩]) = some v := by
    rw [Ioctl.holder_concat, hnone]
    exact if_pos rfl
  refine hw.advance hc (hw.issued_concat hc rfl rfl) (turns_concat hw.turns ⟨fun _ => hnone, nofun⟩)
    ?_ ?_ (fun _ => ⟨hmine, rfl⟩) nofun
  · intro p u hu
    by_cases hpc : p = c.port
    · rw [hpc, hmine, hnone]
      exact iff_of_false (fun h => hu (Option.some.inj h).symm) nofun
    · rw [Ioctl.holder_concat, Ioctl.hold_of_ne (Ne.symm hpc)]
  · exact fun _ _ _ _ _ _ => rfl

theorem Scoped.assert_failed (hw : w.Scoped) (hc : w.calls v = some c) (hh : c.isHolding = false)
    (hp : w.shared.port = some c.port)
    (hfree : w.shared.signalInFlight ≠ some w.shared.generation) (op : PortOp) (errno : ℕ)
    (result : Option (Except SignalError Unit)) :
    Scoped (setPhase { w with
      shared := { w.shared with signalInFlight := none }
      log := w.log ++ [⟨some v, c.port, .assert, op, some errno⟩] } v c (.ended result)) := by
  have hsame : ∀ p, Ioctl.holder p (w.log ++ [⟨some v, c.port, .assert, op, some errno⟩]) =
      Ioctl.holder p w.log := by
    intro p
    rw [Ioctl.holder_concat]
    exact ite_self _
  refine hw.advance hc (hw.issued_concat hc rfl rfl)
    (turns_concat hw.turns ⟨fun _ => hw.line_free hp hfree, nofun⟩) ?_ ?_ nofun ?_
  · intro p u _
    rw [hsame]
  · intro u d _ hd hdh hdp
    exact absurd (hw.slot u d hd hdh hdp) hfree
  · intro _ p hp
    rw [hsame]
    exact hw.not_holder hc hh hp

theorem Scoped.unique (hw : w.Scoped) (hc : w.calls v = some c) (hh : c.isHolding = true)
    (hd : w.calls u = some d) (hdh : d.isHolding = true) (hport : d.port = c.port) : u = v := by
  have hu := hw.holds u d hd hdh
  rw [hport, hw.holds v c hc hh] at hu
  exact (Option.some.inj hu).symm

theorem Scoped.restore (hw : w.Scoped) (hc : w.calls v = some c) (hh : c.isHolding = true)
    (op : PortOp) (error : Option ℕ) (slot : Option ℕ)
    (hp : w.shared.port = some c.port) (result : Option (Except SignalError Unit)) :
    Scoped (setPhase { w with
      shared := { w.shared with signalInFlight := slot }
      log := w.log ++ [⟨some v, c.port, .restore, op, error⟩] } v c (.ended result)) := by
  have hmine := hw.holds v c hc hh
  have hnone : Ioctl.holder c.port (w.log ++ [⟨some v, c.port, .restore, op, error⟩]) = none := by
    rw [Ioctl.holder_concat]
    exact if_pos rfl
  refine hw.advance hc (hw.issued_concat hc rfl rfl) (turns_concat hw.turns ⟨nofun, fun _ => hmine⟩)
    ?_ ?_ nofun ?_
  · intro p u hu
    by_cases hpc : p = c.port
    · rw [hpc, hmine, hnone]
      exact iff_of_false nofun fun h => hu (Option.some.inj h).symm
    · rw [Ioctl.holder_concat, Ioctl.hold_of_ne (Ne.symm hpc)]
  · intro u d hu hd hdh hdp
    exact absurd (hw.unique hc hh hd hdh (Option.some.inj (hdp.symm.trans hp))) hu
  · intro _ p hp'
    rw [hp, Option.some.injEq] at hp'
    rw [← hp', hnone]
    exact nofun

theorem Scoped.outlived (hw : w.Scoped) (hc : w.calls v = some c)
    (hp : w.shared.port ≠ some c.port) (result : Option (Except SignalError Unit)) :
    Scoped (setPhase { w with shared := w.shared.dropLease c.generation } v c (.ended result)) := by
  have hne : w.shared.generation ≠ c.generation := fun h => hp ((hw.current v c hc).mpr h.symm)
  rw [SerialShared.dropLease_eq]
  refine hw.advance hc hw.issued hw.turns (fun _ _ _ => Iff.rfl) ?_ nofun ?_
  · intro u d _ hd hdh hdp
    have hslot := hw.slot u d hd hdh hdp
    rw [if_neg (by rw [hslot]; simpa using hne), hslot]
  · intro _ p hp' hholder
    obtain ⟨d, hd, -, hport⟩ := hw.held p v hp' hholder
    rw [hc, Option.some.injEq] at hd
    exact hp (by rw [hp', ← hport, hd])

theorem Scoped.holdLine (hw : w.Scoped) (hc : w.calls v = some c) (hh : c.isHolding = false)
    (assert : PortOp) (restore : RestoreOp) (driver : Driver) :
    (w.holdLine v c assert restore driver).Scoped := by
  obtain ⟨p, hp, hgen, hfree, hclaim⟩ | ⟨e, hclaim⟩ := w.shared.claimLine_cases c.generation
  · have hport := (hw.current v c hc).mpr hgen.symm
    rw [hp, Option.some.injEq] at hport
    subst hport
    simp only [SignalWorld.holdLine, hclaim]
    rw [SerialShared.withScopedPort_eq (by exact hp) (by exact hgen)]
    cases hanswer : driver assert with
    | none => exact hw.assert hc hp hfree assert restore
    | some errno =>
      dsimp only
      rw [SerialShared.dropLease_eq, if_pos (congrArg some hgen)]
      exact hw.assert_failed hc hh hp hfree assert errno _
  · simp only [SignalWorld.holdLine, hclaim]
    exact hw.settle hc hh _

theorem Scoped.endHold_eq (hw : w.Scoped) (hc : w.calls v = some c)
    (hp : w.shared.port = some c.port) (restore : RestoreOp) (driver : Driver)
    (result : Option (Except SignalError Unit)) :
    w.endHold v c restore driver result = setPhase { w with
      shared := w.shared.dropLease c.generation
      log := w.log ++ [⟨some v, c.port, .restore, restore.op, driver restore.op⟩] } v c
        (.ended result) := by
  have hgen := (hw.current v c hc).mp hp
  simp only [SignalWorld.endHold, SerialShared.withScopedPort_eq hp hgen.symm]

theorem Scoped.endHold (hw : w.Scoped) (hc : w.calls v = some c) (hh : c.isHolding = true)
    (restore : RestoreOp) (driver : Driver) (result : Option (Except SignalError Unit)) :
    (w.endHold v c restore driver result).Scoped := by
  by_cases hp : w.shared.port = some c.port
  · rw [hw.endHold_eq hc hp, SerialShared.dropLease_eq]
    exact hw.restore hc hh _ _ _ hp result
  · obtain ⟨p, -, hgen, -⟩ | ⟨-, hgone⟩ := w.shared.withScopedPort_cases c.generation
      (fun port => (⟨some v, port, .restore, restore.op, driver restore.op⟩ : Ioctl))
    · exact absurd ((hw.current v c hc).mpr hgen.symm) hp
    · simp only [SignalWorld.endHold, hgone]
      exact hw.outlived hc hp result

theorem modemOps_mem {port : PortId} {driver : Driver} {ops : List PortOp}
    (he : e ∈ (modemOps v port driver ops).1) :
    e.issuer = some v ∧ e.port = port ∧ e.role = .modem := by
  induction ops with
  | nil => cases he
  | cons op ops ih =>
    rw [modemOps] at he
    split at he
    · obtain rfl := mem_singleton.mp he
      exact ⟨rfl, rfl, rfl⟩
    · rcases mem_cons.mp he with rfl | he
      · exact ⟨rfl, rfl, rfl⟩
      · exact ih he

theorem Scoped.setModem (hw : w.Scoped) (hc : w.calls v = some c) (hh : c.isHolding = false)
    (dtr rts : Option Bool) (driver : Driver) : (w.setModem v c dtr rts driver).Scoped := by
  obtain ⟨p, hp, hgen, haccess⟩ | ⟨-, hgone⟩ := w.shared.withScopedPort_cases c.generation
    (fun port => modemOps v port driver
      ((dtr.map PortOp.setDtr).toList ++ (rts.map PortOp.setRts).toList))
  · have hport := (hw.current v c hc).mpr hgen.symm
    rw [hp, Option.some.injEq] at hport
    simp only [SignalWorld.setModem, haccess]
    refine Scoped.settle (hw.append ?_ ?_) hc hh _
    · intro e he
      obtain ⟨-, -, hrole⟩ := modemOps_mem he
      simp [Ioctl.Neutral, hrole]
    · intro e he u hu
      obtain ⟨hissuer, heport, -⟩ := modemOps_mem he
      rw [hissuer, Option.some.injEq] at hu
      exact ⟨c, hu ▸ hc, by rw [heport, hport]⟩
  · simp only [SignalWorld.setModem, hgone]
    exact hw.settle hc hh _

theorem Scoped.pollCall (hw : w.Scoped) (hc : w.calls v = some c) (elapsed : Bool)
    (driver : Driver) : (w.pollCall v c elapsed driver).Scoped := by
  unfold SignalWorld.pollCall
  cases hphase : c.phase with
  | ready =>
    have hh : c.isHolding = false := by rw [Call.isHolding, hphase]
    cases c.verb with
    | sendBreak | pulseDtr => exact hw.holdLine hc hh _ _ driver
    | setModem dtr rts => exact hw.setModem hc hh dtr rts driver
  | holding restore woken =>
    have hh : c.isHolding = true := by rw [Call.isHolding, hphase]
    dsimp only
    split_ifs
    · exact hw.endHold hc hh restore driver _
    · exact hw.endHold hc hh restore driver _
    · exact hw
  | ended result => exact hw

theorem Scoped.cancelCall (hw : w.Scoped) (hc : w.calls v = some c) (driver : Driver) :
    (w.cancelCall v c driver).Scoped := by
  unfold SignalWorld.cancelCall
  cases hphase : c.phase with
  | ready => exact hw.settle hc (by rw [Call.isHolding, hphase]) none
  | holding restore woken => exact hw.endHold hc (by rw [Call.isHolding, hphase]) restore driver none
  | ended result => exact hw

theorem Scoped.takeHandle (hw : w.Scoped) (hv : w.calls v = none) (verb : SignalVerb) :
    (w.takeHandle v verb).Scoped := by
  unfold SignalWorld.takeHandle
  cases hp : w.shared.port with
  | none => exact hw
  | some p =>
    dsimp only
    have hcalls : ∀ u d, Function.update w.calls v
        (some (⟨verb, w.shared.generation, p, .ready⟩ : Call)) u = some d →
        d = ⟨verb, w.shared.generation, p, .ready⟩ ∨ w.calls u = some d := by
      intro u d hd
      by_cases hu : u = v
      · rw [hu, Function.update_self, Option.some.injEq] at hd
        exact .inl hd.symm
      · rw [Function.update_of_ne hu] at hd
        exact .inr hd
    have hkeep : ∀ u d, w.calls u = some d → Function.update w.calls v
        (some (⟨verb, w.shared.generation, p, .ready⟩ : Call)) u = some d := by
      intro u d hd
      rw [Function.update_of_ne (by rintro rfl; simp [hv] at hd), hd]
    constructor
    case generation => exact hw.generation
    case opened => exact hw.opened
    case call_opened =>
      intro u d hd
      obtain rfl | hd := hcalls u d hd
      · exact hw.opened p hp
      · exact hw.call_opened u d hd
    case call_le =>
      intro u d hd
      obtain rfl | hd := hcalls u d hd
      · exact le_rfl
      · exact hw.call_le u d hd
    case current =>
      intro u d hd
      obtain rfl | hd := hcalls u d hd
      · exact iff_of_true hp rfl
      · exact hw.current u d hd
    case issued =>
      intro e he u hu
      obtain ⟨d, hd, hport⟩ := hw.issued e he u hu
      exact ⟨d, hkeep u d hd, hport⟩
    case turns => exact hw.turns
    case holds =>
      intro u d hd hh
      obtain rfl | hd := hcalls u d hd
      · cases hh
      · exact hw.holds u d hd hh
    case held =>
      intro q u hq hh
      obtain ⟨d, hd, hdh, hport⟩ := hw.held q u hq hh
      exact ⟨d, hkeep u d hd, hdh, hport⟩
    case slot =>
      intro u d hd hh hq
      obtain rfl | hd := hcalls u d hd
      · cases hh
      · exact hw.slot u d hd hh hq

end calls

theorem releaseClaims_transitions (w : SignalWorld) (p : PortId) (driver : Driver) :
    (w.releaseClaims p driver).transitions = w.transitions := by
  unfold releaseClaims
  split <;> rfl

theorem releaseClaims_calls (w : SignalWorld) (p : PortId) (driver : Driver) :
    (w.releaseClaims p driver).calls = w.calls := by
  unfold releaseClaims
  split <;> rfl

theorem releasePort_transitions (w : SignalWorld) (driver : Driver) :
    (w.releasePort driver).transitions = w.transitions + 1 := by
  unfold releasePort
  split
  · exact releaseClaims_transitions ..
  · rfl

theorem releasePort_calls (w : SignalWorld) (driver : Driver) :
    (w.releasePort driver).calls = (w.transition none).calls := by
  unfold releasePort
  split
  · exact releaseClaims_calls ..
  · rfl

def Moves (w : SignalWorld) (v : VerbId) (c : Call) (w' : SignalWorld) : Prop :=
  w' = w ∨ ∃ shared log phase, w' = setPhase { w with shared, log } v c phase

section moves
variable {v : VerbId} {c : Call} {w' : SignalWorld}

theorem Moves.transitions (h : w.Moves v c w') : w'.transitions = w.transitions := by
  obtain rfl | ⟨_, _, _, rfl⟩ := h <;> rfl

theorem Moves.calls_other (h : w.Moves v c w') {u : VerbId} (hu : u ≠ v) :
    w'.calls u = w.calls u := by
  obtain rfl | ⟨_, _, phase, rfl⟩ := h
  · rfl
  · exact setPhase_other phase hu

variable (w v c) (driver : Driver)

theorem holdLine_moves (assert : PortOp) (restore : RestoreOp) :
    w.Moves v c (w.holdLine v c assert restore driver) := by
  unfold holdLine
  split
  · exact .inr ⟨_, _, _, rfl⟩
  · split
    · exact .inr ⟨_, _, _, rfl⟩
    · split <;> exact .inr ⟨_, _, _, rfl⟩

theorem setModem_moves (dtr rts : Option Bool) : w.Moves v c (w.setModem v c dtr rts driver) := by
  unfold setModem
  split <;> exact .inr ⟨_, _, _, rfl⟩

theorem pollCall_moves (elapsed : Bool) : w.Moves v c (w.pollCall v c elapsed driver) := by
  unfold pollCall
  split
  · split
    · exact holdLine_moves ..
    · exact holdLine_moves ..
    · exact setModem_moves ..
  · split_ifs
    · exact .inr ⟨_, _, _, rfl⟩
    · exact .inr ⟨_, _, _, rfl⟩
    · exact .inl rfl
  · exact .inl rfl

theorem cancelCall_moves : w.Moves v c (w.cancelCall v c driver) := by
  unfold cancelCall
  split
  · exact .inr ⟨_, _, _, rfl⟩
  · exact .inr ⟨_, _, _, rfl⟩
  · exact .inl rfl

end moves

theorem transitions_le_step (w : SignalWorld) (a : SignalAct) :
    w.transitions ≤ (w.step a).transitions := by
  cases a with
  | take v verb =>
    simp only [step, takeHandle]
    split <;> exact le_rfl
  | poll v elapsed driver =>
    simp only [step]
    split
    · exact (pollCall_moves ..).transitions.ge
    · exact le_rfl
  | cancel v driver =>
    simp only [step]
    split
    · exact (cancelCall_moves ..).transitions.ge
    · exact le_rfl
  | release driver => exact (Nat.le_succ _).trans_eq (releasePort_transitions w driver).symm
  | adopt p => exact Nat.le_succ _
  | dropPort p driver => exact (releaseClaims_transitions w p driver).ge

theorem step_scoped (hw : w.Scoped) (a : SignalAct) (ha : w.Allowed a)
    (hb : (w.step a).transitions < u64Size) : (w.step a).Scoped := by
  cases a with
  | take v verb => exact hw.takeHandle ha verb
  | poll v elapsed driver =>
    simp only [step]
    cases hc : w.calls v with
    | none => exact hw
    | some c => exact hw.pollCall hc elapsed driver
  | cancel v driver =>
    simp only [step]
    cases hc : w.calls v with
    | none => exact hw
    | some c => exact hw.cancelCall hc driver
  | release driver =>
    have ht : (w.transition none).Scoped :=
      hw.transition nofun ((releasePort_transitions w driver).symm.trans_lt hb)
    simp only [step, releasePort]
    split
    · exact ht.releaseClaims _ driver
    · exact ht
  | adopt p =>
    have ht : (w.transition (some p)).Scoped := by
      refine hw.transition ?_ hb
      rintro q ⟨⟩
      exact ha
    exact { ht with }
  | dropPort p driver => exact hw.releaseClaims p driver

theorem step_ends {v : VerbId} {c : Call} (hc : w.calls v = some c) (hh : c.isHolding = true)
    {a : SignalAct} (ha : w.Allowed a)
    (hends : ∀ d, (w.step a).calls v = some d → d.isHolding = false) :
    ∃ restore woken driver result, c.phase = .holding restore woken ∧
      w.step a = w.endHold v c restore driver result := by
  have hstays : ∀ d, (w.step a).calls v = some d → d.isHolding = c.isHolding → False := by
    intro d hd hsame
    have := hends d hd
    rw [hsame, hh] at this
    cases this
  obtain ⟨restore, woken, hphase⟩ : ∃ restore woken, c.phase = .holding restore woken := by
    unfold Call.isHolding at hh
    split at hh
    · next restore woken hphase => exact ⟨restore, woken, hphase⟩
    · cases hh
  refine ⟨restore, woken, ?_⟩
  cases a with
  | take u verb =>
    have hu : v ≠ u := by
      rintro rfl
      rw [Allowed, hc] at ha
      cases ha
    refine (hstays c ?_ rfl).elim
    simp only [step, takeHandle]
    split
    · exact (Function.update_of_ne hu ..).trans hc
    · exact hc
  | poll u elapsed driver =>
    by_cases hu : v = u
    · subst hu
      simp only [step, hc, pollCall, hphase] at hends hstays ⊢
      split_ifs at hends hstays ⊢ with hwoken helapsed
      · exact ⟨driver, _, trivial, rfl⟩
      · exact ⟨driver, _, trivial, rfl⟩
      · exact (hstays c hc rfl).elim
    · refine (hstays c ?_ rfl).elim
      simp only [step]
      split
      · exact ((pollCall_moves ..).calls_other hu).trans hc
      · exact hc
  | cancel u driver =>
    by_cases hu : v = u
    · subst hu
      simp only [step, hc, cancelCall, hphase]
      exact ⟨driver, _, trivial, rfl⟩
    · refine (hstays c ?_ rfl).elim
      simp only [step]
      split
      · exact ((cancelCall_moves ..).calls_other hu).trans hc
      · exact hc
  | release driver =>
    refine (hstays c.wake ?_ c.wake_isHolding).elim
    exact (congrFun (releasePort_calls w driver) v).trans (congrArg (Option.map Call.wake) hc)
  | adopt p => exact (hstays c.wake (congrArg (Option.map Call.wake) hc) c.wake_isHolding).elim
  | dropPort p driver =>
    exact (hstays c ((congrFun (releaseClaims_calls w p driver) v).trans hc) rfl).elim

theorem signals_scoped (port : Option PortId) (as : List SignalAct)
    (hl : machine.Legal (start port) as)
    (hb : (machine.run (start port) as).transitions < u64Size) :
    let w := machine.run (start port) as
    (∀ e ∈ w.log, ∀ v, e.issuer = some v → ∃ c, w.calls v = some c ∧ c.port = e.port) ∧
    (∀ p, Ioctl.TakeTurns p none w.log) ∧
    (∀ v u c d, w.calls v = some c → w.calls u = some d → c.isHolding = true →
      d.isHolding = true → c.port = d.port → v = u) ∧
    (∀ v c a, w.calls v = some c → c.isHolding = true → w.Allowed a →
      (∀ d, (w.step a).calls v = some d → d.isHolding = false) →
      (w.step a).shared.port = some c.port →
      ∃ restore woken error, c.phase = .holding restore woken ∧
        (w.step a).log = w.log ++ [⟨some v, c.port, .restore, restore.op, error⟩]) ∧
    (∀ p v, w.shared.port = some p → Ioctl.holder p w.log = some v →
      ∃ c, w.calls v = some c ∧ c.isHolding = true ∧ c.port = p) ∧
    (∀ v c, w.calls v = some c → c.isHolding = true → w.shared.port = some c.port →
      w.shared.signalInFlight = some w.shared.generation) := by
  intro w
  have hw : w.Scoped := by
    refine Runs.Machine.invariant (m := machine)
      (I := fun w => w.transitions < u64Size → w.Scoped) ?_ (fun _ => start_scoped port) hl hb
    intro w a hw ha hb
    exact step_scoped (hw ((w.transitions_le_step a).trans_lt hb)) a ha hb
  refine ⟨hw.issued, hw.turns, ?_, ?_, hw.held, hw.slot⟩
  · intro v u c d hc hd hch hdh hport
    exact hw.unique hd hdh hc hch hport
  · intro v c a hc hh ha hends hp
    obtain ⟨restore, woken, driver, result, hphase, hstep⟩ := step_ends hc hh ha hends
    have hp' : w.shared.port = some c.port := by
      rw [hstep] at hp
      simpa [endHold, setPhase, SerialShared.dropLease_eq] using hp
    rw [hstep, hw.endHold_eq hc hp']
    exact ⟨restore, woken, driver restore.op, hphase, rfl⟩

def replug : List SignalAct :=
  [.take 1 .sendBreak, .poll 1 false fun _ => none, .take 2 (.pulseDtr true),
    .poll 2 false fun _ => none, .release fun _ => none, .adopt 8, .take 3 (.pulseDtr true),
    .poll 3 false fun _ => none, .poll 1 false fun _ => none, .cancel 3 fun _ => none]

theorem signals_scoped_replug :
    let w := machine.run (start (some 7)) replug
    w.log.map (fun e => (e.issuer, e.port, e.op)) =
        [(some 1, 7, .setBreak true), (none, 7, .setBreak false), (none, 7, .setExclusive false),
          (some 3, 8, .setDtr true), (some 3, 8, .setDtr false)] ∧
      ∀ p, Ioctl.TakeTurns p none w.log := by
  have hlegal : machine.Legal (start (some 7)) replug := by
    refine ⟨rfl, trivial, rfl, trivial, trivial, ?_, rfl, trivial, trivial, trivial, trivial⟩
    change 8 ∉ _
    decide
  refine ⟨by decide, ?_⟩
  exact (signals_scoped (some 7) replug hlegal (by decide)).2.1

end SignalWorld
end SerialNexus
