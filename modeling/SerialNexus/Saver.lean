import SerialNexus.Runs

/-! # The scrollback saver

`makeSaver` (`web/src/assets/saver.mjs`) serializes the writes and deletes of each key.  A queue has
one slot for a delete and one for a snapshot; an async loop drains it.  A call is a step, and so is
one turn of a loop; the promise of an operation settles in another. -/

namespace SerialNexus.Saver

open List

variable {κ σ ω : Type*}

inductive IoOp (σ : Type*) where
  | write (snapshot : σ)
  | remove
  deriving DecidableEq

def IoOp.effect : IoOp σ → Option σ
  | .write snapshot => some snapshot
  | .remove => none

inductive Event (σ ω : Type*) where
  | save (snapshot : σ)
  | remove
  | settled (waiter : ω)
  | started (op : IoOp σ)
  | ended (ok : Bool)
  | onError
  | resolved (waiter : ω)
  deriving DecidableEq

/-- The queue of a key. -/
structure Queue (σ ω : Type*) where
  del : Bool
  pending : Option σ
  running : Bool
  waiters : List ω
  deriving DecidableEq

def Queue.claim (q : Queue σ ω) : Option (IoOp σ × Queue σ ω) :=
  if q.del then some (.remove, { q with del := false })
  else q.pending.map fun snapshot => (.write snapshot, { q with pending := none })

inductive Loop (σ : Type*) where
  | head
  | awaiting (op : IoOp σ) (result : Option Bool)

def Loop.inFlight : Loop σ → Option (IoOp σ)
  | .head => none
  | .awaiting op _ => some op

structure KeyState (σ ω : Type*) where
  queue : Option (Queue σ ω)
  loops : List (Loop σ)
  store : Option σ
  log : List (Event σ ω)

inductive Act (σ ω : Type*) where
  | save (snapshot : σ)
  | remove
  | settled (waiter : ω)
  | turn (i : ℕ)
  | succeed (i : ℕ)
  | fail (i : ℕ) (left : Option σ)
  | resume (i : ℕ)

namespace KeyState

variable (s : KeyState σ ω)

def queueFor : Queue σ ω := s.queue.getD ⟨false, none, false, []⟩

def start (q : Queue σ ω) (called : Event σ ω) : KeyState σ ω :=
  { s with
    queue := some { q with running := true }
    loops := if q.running then s.loops else s.loops ++ [.head]
    log := s.log ++ [called] }

/-- One turn of the loop. -/
def drain (i : ℕ) (q : Queue σ ω) : KeyState σ ω :=
  match q.claim with
  | some (op, q) =>
    { s with
      queue := some q
      loops := s.loops.set i (.awaiting op none)
      log := s.log ++ [.started op] }
  | none =>
    { s with
      queue := none
      loops := s.loops.eraseIdx i
      log := s.log ++ q.waiters.map .resolved }

def settle (i : ℕ) (op : IoOp σ) (ok : Bool) (left : Option σ) : KeyState σ ω :=
  { s with
    loops := s.loops.set i (.awaiting op (some ok))
    store := left
    log := s.log ++ [.ended ok] }

/-- One step. -/
def step : Act σ ω → KeyState σ ω
  | .save x => s.start { s.queueFor with pending := some x } (.save x)
  | .remove => s.start { s.queueFor with del := true, pending := none } .remove
  | .settled w =>
    match s.queue with
    | none => { s with log := s.log ++ [.settled w, .resolved w] }
    | some q =>
      { s with queue := some { q with waiters := q.waiters ++ [w] }, log := s.log ++ [.settled w] }
  | .turn i =>
    match s.queue with
    | none => s
    | some q => s.drain i q
  | .succeed i =>
    match s.loops[i]? with
    | some (.awaiting op none) => s.settle i op true op.effect
    | _ => s
  | .fail i left =>
    match s.loops[i]? with
    | some (.awaiting op none) => s.settle i op false left
    | _ => s
  | .resume i =>
    match s.loops[i]? with
    | some (.awaiting _ (some ok)) =>
      { s with
        loops := s.loops.set i .head
        log := s.log ++ if ok then [] else [.onError] }
    | _ => s

def possible : Act σ ω → Prop
  | .turn i => s.loops[i]? = some .head
  | .succeed i | .fail i _ => ∃ op, s.loops[i]? = some (.awaiting op none)
  | .resume i => ∃ op ok, s.loops[i]? = some (.awaiting op (some ok))
  | _ => True

def happens (a : Act σ ω) : List (Event σ ω) := (s.step a).log.drop s.log.length

def Idle : Prop := s.queue = none ∧ s.loops = []

end KeyState

def makeSaver (stored : κ → Option σ) : κ → KeyState σ ω := fun k => ⟨none, [], stored k, []⟩

def machine [DecidableEq κ] : Runs.Machine (κ → KeyState σ ω) (κ × Act σ ω) where
  step s a := Function.update s a.1 ((s a.1).step a.2)
  ok s a := (s a.1).possible a.2

def Event.asks : Event σ ω → Option (IoOp σ)
  | .save x => some (.write x)
  | .remove => some .remove
  | _ => none

def Event.outcome : Event σ ω → Option Bool
  | .ended ok => some ok
  | _ => none

def lastCall (l : List (Event σ ω)) : Option (IoOp σ) := l.reverse.findSome? Event.asks

def lastEnd (l : List (Event σ ω)) : Option Bool := l.reverse.findSome? Event.outcome

def Unremoved (x : σ) (l : List (Event σ ω)) : Prop := ∃ a b, l = a ++ .save x :: b ∧ .remove ∉ b

def Obeyed (l : List (Event σ ω)) : Prop := ∀ a b, l = a ++ .remove :: b → .started .remove ∈ b

def Ordered (l : List (Event σ ω)) : Prop :=
  ∀ a b x, l = a ++ .started (.write x) :: b → Unremoved x a ∧ Obeyed a

section history

variable {l es : List (Event σ ω)} {x : σ}

theorem findSome?_reverse_append {α β : Type*} {f : α → Option β} {l es : List α}
    (h : ∀ e ∈ es, f e = none) : (l ++ es).reverse.findSome? f = l.reverse.findSome? f := by
  rw [reverse_append, findSome?_append, findSome?_eq_none_iff.mpr (by simpa using h)]
  rfl

theorem mem_split {α : Type*} {l es a b : List α} {e : α} (h : l ++ es = a ++ e :: b) (he : e ∉ es) :
    ∃ c, l = a ++ e :: c ∧ b = c ++ es := by
  rcases append_eq_append_iff.mp h with ⟨c, rfl, hc⟩ | ⟨c, rfl, hc⟩
  · exact absurd (hc ▸ by simp) he
  · cases c with
    | nil =>
      rw [nil_append] at hc
      exact absurd (hc ▸ mem_cons_self) he
    | cons e' c =>
      obtain ⟨rfl, rfl⟩ := List.cons.inj hc
      exact ⟨c, rfl, rfl⟩

theorem Unremoved.append (h : Unremoved x l) (hes : .remove ∉ es) : Unremoved x (l ++ es) := by
  obtain ⟨a, b, rfl, hb⟩ := h
  exact ⟨a, b ++ es, by simp, by simp [hb, hes]⟩

theorem Obeyed.append (h : Obeyed l) (hes : .remove ∉ es) : Obeyed (l ++ es) := by
  intro a b hab
  obtain ⟨c, hc, rfl⟩ := mem_split hab hes
  exact mem_append_left _ (h a c hc)

theorem Obeyed.started (l : List (Event σ ω)) : Obeyed (l ++ [.started .remove]) := by
  intro a b hab
  obtain ⟨c, -, rfl⟩ := mem_split hab (by simp)
  simp

theorem Ordered.append (h : Ordered l) (hes : ∀ x, .started (.write x) ∉ es) : Ordered (l ++ es) := by
  intro a b x hab
  obtain ⟨c, hc, rfl⟩ := mem_split hab (hes x)
  exact h a c x hc

theorem Ordered.started (h : Ordered l) (hx : Unremoved x l) (ho : Obeyed l) :
    Ordered (l ++ [.started (.write x)]) := by
  intro a b y hab
  rcases eq_nil_or_concat b with rfl | ⟨b, e, rfl⟩
  · obtain ⟨rfl, he⟩ := append_inj' hab rfl
    obtain rfl : x = y := by simpa using he
    exact ⟨hx, ho⟩
  · rw [concat_eq_append, ← cons_append, ← append_assoc] at hab
    exact h a b y (append_inj_left' hab rfl)

theorem not_mem_of_asks_eq_none (h : ∀ e ∈ es, e.asks = none) : .remove ∉ es := fun hes =>
  Option.some_ne_none _ (h _ hes)

theorem lastCall_append (h : ∀ e ∈ es, e.asks = none) : lastCall (l ++ es) = lastCall l :=
  findSome?_reverse_append h

theorem lastEnd_append (h : ∀ e ∈ es, e.outcome = none) : lastEnd (l ++ es) = lastEnd l :=
  findSome?_reverse_append h

end history

def Queue.last (q : Queue σ ω) : Option (IoOp σ) :=
  match q.pending with
  | some x => some (.write x)
  | none => if q.del then some .remove else none

def Reflects (store : Option σ) (l : List (Event σ ω)) : Prop :=
  ∀ op, lastCall l = some op → lastEnd l ≠ some false → store = op.effect

structure Busy (q : Queue σ ω) (loop : Loop σ) (store : Option σ) (l : List (Event σ ω)) : Prop where
  running : q.running = true
  obeyed : q.del = false → Obeyed l
  pending : ∀ x, q.pending = some x → Unremoved x l
  asked : ∀ op, (q.last <|> loop.inFlight) = some op → lastCall l = some op
  reflects : q.last = none → loop = .head → Reflects store l
  ended : ∀ op ok, loop = .awaiting op (some ok) →
    lastEnd l = some ok ∧ (ok = true → store = op.effect)

inductive Phase : KeyState σ ω → Prop
  | idle {store l} : Obeyed l → Reflects store l → Phase ⟨none, [], store, l⟩
  | busy {q loop store l} : Busy q loop store l → Phase ⟨some q, [loop], store, l⟩

def Waited (waiters : List ω) (l : List (Event σ ω)) : Prop :=
  ∀ w, .settled w ∈ l → .resolved w ∈ l ∨ w ∈ waiters

theorem Waited.append {waiters waiters' : List ω} {l es : List (Event σ ω)} (h : Waited waiters l)
    (hes : Waited waiters' es) (hw : ∀ w ∈ waiters, .resolved w ∈ es ∨ w ∈ waiters') :
    Waited waiters' (l ++ es) := by
  intro w hl
  rcases mem_append.mp hl with hl | hl
  · rcases h w hl with h | h
    · exact .inl (mem_append_left _ h)
    · exact (hw w h).imp_left (mem_append_right _)
  · exact (hes w hl).imp_left (mem_append_right _)

structure Sound (s : KeyState σ ω) : Prop where
  phase : Phase s
  ordered : Ordered s.log
  waited : Waited s.queueFor.waiters s.log

variable {s : KeyState σ ω}

theorem Sound.obeyed (h : Sound s) (hd : s.queueFor.del = false) : Obeyed s.log := by
  cases h.phase with
  | idle ho => exact ho
  | busy hb => exact hb.obeyed hd

variable {q : Queue σ ω} {op : IoOp σ} {loop : Loop σ} {store : Option σ} {l : List (Event σ ω)}
  {i : ℕ} {ok : Bool} {a : Act σ ω}

theorem Sound.start (h : Sound s) {e : Event σ ω} (hr : q.running = s.queueFor.running)
    (hw : q.waiters = s.queueFor.waiters) (he : e.asks = some op) (hq : q.last = some op)
    (ho : q.del = false → Obeyed (s.log ++ [e]))
    (hp : ∀ x, q.pending = some x → Unremoved x (s.log ++ [e])) : Sound (s.start q e) := by
  obtain ⟨phase, ordered, waited⟩ := h
  have hcall : lastCall (s.log ++ [e]) = some op := by simp [lastCall, he]
  have hend : lastEnd (s.log ++ [e]) = lastEnd s.log :=
    lastEnd_append (by cases e <;> simp_all [Event.asks, Event.outcome])
  have hasked (loop : Loop σ) (op' : IoOp σ) (h : (q.last <|> loop.inFlight) = some op') :
      lastCall (s.log ++ [e]) = some op' := by simp_all
  refine ⟨?_, ordered.append (by cases e <;> simp_all [Event.asks]),
    waited.append (by cases e <;> simp_all [Waited, Event.asks]) fun w h => .inr (hw ▸ h)⟩
  cases phase with
  | idle =>
    obtain hr : q.running = false := hr
    simp only [KeyState.start, hr]
    exact .busy ⟨rfl, ho, hp, hasked _, by simp_all [Queue.last], nofun⟩
  | busy hb =>
    obtain hr : q.running = true := hr.trans hb.running
    simp only [KeyState.start, hr]
    exact .busy ⟨rfl, ho, hp, hasked _, by simp_all [Queue.last], hend ▸ hb.ended⟩

theorem Busy.append (h : Busy q loop store l) (es : List (Event σ ω))
    (hc : ∀ e ∈ es, e.asks = none) (he : ∀ e ∈ es, e.outcome = none) :
    Busy q loop store (l ++ es) := by
  obtain ⟨running, obeyed, pending, asked, reflects, ended⟩ := h
  have hr := not_mem_of_asks_eq_none hc
  refine ⟨running, fun h => (obeyed h).append hr, fun x hx => (pending x hx).append hr, ?_, ?_, ?_⟩
  · rwa [lastCall_append hc]
  · rwa [Reflects, lastCall_append hc, lastEnd_append he]
  · rwa [lastEnd_append he]

theorem Sound.idled (h : Sound ⟨some q, [.head], store, l⟩) (hd : q.del = false)
    (hp : q.pending = none) : Sound ⟨none, [], store, l ++ q.waiters.map .resolved⟩ := by
  obtain ⟨phase, ordered, waited⟩ := h
  cases phase with
  | busy hb =>
    have hb := hb.append (q.waiters.map .resolved) (by simp [Event.asks])
      (by simp [Event.outcome])
    refine ⟨.idle (hb.obeyed hd) (hb.reflects (by simp [Queue.last, hd, hp]) rfl),
      ordered.append (by simp), waited.append (by simp [Waited]) fun w hw => .inl (mem_map_of_mem hw)⟩

theorem Sound.claimed {q' : Queue σ ω} (h : Sound ⟨some q, [.head], store, l⟩)
    (hq : q.claim = some (op, q')) :
    Sound ⟨some q', [.awaiting op none], store, l ++ [.started op]⟩ := by
  obtain ⟨phase, ordered, waited⟩ := h
  cases phase with
  | busy hb =>
    obtain ⟨running, obeyed, pending, asked, -, -⟩ := hb
    have hcall : lastCall (l ++ [.started op]) = lastCall l := lastCall_append (by simp [Event.asks])
    unfold Queue.claim at hq
    cases hd : q.del with
    | true =>
      -- the delete slot empties here, and so the start of the remove obeys every call for one
      obtain ⟨rfl, rfl⟩ : IoOp.remove = op ∧ { q with del := false } = q' := by simpa [hd] using hq
      refine ⟨.busy ⟨running, fun _ => .started l, fun x hx => (pending x hx).append (by simp),
        fun op h => ?_, nofun, nofun⟩, ordered.append (by simp), waited.append (by simp [Waited]) fun w => .inr⟩
      rw [hcall]
      refine asked op ?_
      cases hp : q.pending <;> simp_all [Queue.last, Loop.inFlight]
    | false =>
      obtain ⟨x, hp, rfl, rfl⟩ :
          ∃ x, q.pending = some x ∧ .write x = op ∧ { q with pending := none } = q' := by
        simpa [hd] using hq
      refine ⟨.busy ⟨running, fun _ => (obeyed hd).append (by simp), nofun, fun op h => ?_, nofun,
        nofun⟩, ordered.started (pending x hp) (obeyed hd), waited.append (by simp [Waited]) fun w => .inr⟩
      rw [hcall]
      refine asked op ?_
      simp_all [Queue.last, Loop.inFlight]

theorem Phase.only (h : Phase s) (hi : s.loops[i]? = some loop) :
    ∃ q store l, s = ⟨some q, [loop], store, l⟩ ∧ i = 0 ∧ Busy q loop store l := by
  cases h with
  | idle => simp at hi
  | @busy q _ _ _ hb =>
    obtain ⟨rfl, rfl⟩ := by simpa [List.getElem?_singleton] using hi
    exact ⟨q, _, _, rfl, rfl, hb⟩

theorem Sound.turn (h : Sound s) (hi : s.loops[i]? = some .head) : Sound (s.step (.turn i)) := by
  obtain ⟨q, store, l, rfl, rfl, -⟩ := h.phase.only hi
  simp only [KeyState.step, KeyState.drain]
  split
  next hq => exact h.claimed hq
  next hq => refine h.idled ?_ ?_ <;> cases hd : q.del <;> simp_all [Queue.claim]

theorem Sound.settle (h : Sound s) (hi : s.loops[i]? = some (.awaiting op none))
    (ok : Bool) (left : Option σ) (hok : ok = true → left = op.effect) :
    Sound (s.settle i op ok left) := by
  obtain ⟨q, store, l, rfl, rfl, hb⟩ := h.phase.only hi
  refine ⟨.busy ⟨hb.running, fun hd => (hb.obeyed hd).append (by simp),
    fun x hx => (hb.pending x hx).append (by simp), fun op h => ?_, nofun, fun op' ok' h => ?_⟩,
    h.ordered.append (by simp), h.waited.append (by simp [Waited]) fun w => .inr⟩
  · rw [lastCall_append (by simp [Event.asks])]
    exact hb.asked op h
  · obtain ⟨rfl, rfl⟩ : op = op' ∧ ok = ok' := by simpa using h
    exact ⟨by simp [lastEnd, List.findSome?, Event.outcome], hok⟩

theorem Sound.resume (h : Sound s) (hi : s.loops[i]? = some (.awaiting op (some ok))) :
    Sound (s.step (.resume i)) := by
  obtain ⟨q, store, l, rfl, rfl, hb⟩ := h.phase.only hi
  have hes : ∀ e ∈ (if ok then [] else [.onError] : List (Event σ ω)),
      e.asks = none ∧ e.outcome = none := by
    cases ok <;> simp [Event.asks, Event.outcome]
  obtain ⟨running, obeyed, pending, asked, -, ended⟩ :=
    hb.append _ (fun e h => (hes e h).1) fun e h => (hes e h).2
  refine ⟨.busy ⟨running, obeyed, pending, fun op h => ?_, fun hq _ op' hc hf => ?_, nofun⟩,
    h.ordered.append (by cases ok <;> simp),
    h.waited.append (by cases ok <;> simp [Waited]) fun w => .inr⟩
  · exact asked op (by simp_all [Loop.inFlight])
  · -- with the slots empty the operation just awaited is the one that was called for last
    obtain ⟨he, hstore⟩ := ended op ok rfl
    have := asked op (by simp [hq, Loop.inFlight])
    obtain rfl : op = op' := Option.some.inj (this.symm.trans hc)
    exact hstore (by cases ok <;> simp_all)

theorem Sound.settled (h : Sound s) (w : ω) : Sound (s.step (.settled w)) := by
  obtain ⟨phase, ordered, waited⟩ := h
  cases phase with
  | idle ho hr =>
    refine ⟨.idle (ho.append (by simp)) ?_, ordered.append (by simp),
      waited.append (by simp [Waited]) nofun⟩
    rwa [Reflects, lastCall_append (by simp [Event.asks]), lastEnd_append (by simp [Event.outcome])]
  | busy hb =>
    obtain ⟨running, obeyed, pending, asked, reflects, ended⟩ :=
      hb.append [.settled w] (by simp [Event.asks]) (by simp [Event.outcome])
    exact ⟨.busy ⟨running, obeyed, pending, asked, reflects, ended⟩, ordered.append (by simp),
      waited.append (by simp [Waited, KeyState.step, KeyState.queueFor])
        fun w' h => .inr (mem_append_left _ h)⟩

theorem Sound.step (h : Sound s) (ha : s.possible a) : Sound (s.step a) := by
  cases a with
  | save x =>
    refine h.start rfl rfl rfl rfl (fun hd => ?_) fun y hy => ?_
    · exact (h.obeyed hd).append (by simp)
    · obtain rfl := Option.some.inj hy
      exact ⟨s.log, [], rfl, by simp⟩
  | remove => exact h.start rfl rfl rfl rfl nofun nofun
  | settled w => exact h.settled w
  | turn i => exact h.turn ha
  | succeed i =>
    obtain ⟨op, hi⟩ := ha
    simpa [KeyState.step, hi] using h.settle hi true op.effect fun _ => rfl
  | fail i left =>
    obtain ⟨op, hi⟩ := ha
    simpa [KeyState.step, hi] using h.settle hi false left nofun
  | resume i =>
    obtain ⟨op, ok, hi⟩ := ha
    exact h.resume hi

theorem Sound.resolves (h : Sound s) (ha : s.possible a) {w : ω} (hw : .resolved w ∈ s.happens a) :
    (s.step a).Idle := by
  unfold KeyState.happens at hw
  cases a with
  | save | remove => simp [KeyState.step, KeyState.start] at hw
  | settled w' =>
    cases h.phase with
    | idle => exact ⟨rfl, rfl⟩
    | busy => simp [KeyState.step] at hw
  | turn i =>
    obtain ⟨q, store, l, rfl, rfl, -⟩ := h.phase.only ha
    simp only [KeyState.step, KeyState.drain] at hw ⊢
    split at hw
    next => simp at hw
    next => exact ⟨rfl, rfl⟩
  | succeed i | fail i =>
    obtain ⟨op, hi⟩ := ha
    simp [KeyState.step, KeyState.settle, hi] at hw
  | resume i =>
    obtain ⟨op, ok, hi⟩ := ha
    cases ok <;> simp [KeyState.step, hi] at hw

theorem sound_run [DecidableEq κ] {stored : κ → Option σ} {as : List (κ × Act σ ω)}
    (h : machine.Legal (makeSaver stored) as) (k : κ) :
    Sound (machine.run (makeSaver stored) as k) := by
  refine Runs.Machine.invariant (I := fun s => ∀ k, Sound (s k)) (fun s a hs ha k => ?_) (fun k => ?_)
    h k
  · by_cases hk : k = a.1
    · subst hk
      simpa [machine] using (hs a.1).step ha
    · simpa [machine, hk] using hs k
  · exact ⟨.idle (by simp [Obeyed]) (by simp [Reflects, lastCall]), by simp [Ordered, makeSaver],
      by simp [Waited, makeSaver]⟩

theorem saver_ordering [DecidableEq κ] (stored : κ → Option σ) (as : List (κ × Act σ ω))
    (h : machine.Legal (makeSaver stored) as) (k : κ) :
    let s := machine.run (makeSaver stored) as k
    (s.loops.filterMap Loop.inFlight).length ≤ 1 ∧ Ordered s.log ∧
      (s.Idle ∧ Obeyed s.log ∧ Reflects s.store s.log ∧
          (∀ w, .settled w ∈ s.log → .resolved w ∈ s.log) ∨
        ∃ q loop, s.queue = some q ∧ s.loops = [loop] ∧ (q.del = true ∨ Obeyed s.log) ∧
          ∀ w, .settled w ∈ s.log → .resolved w ∈ s.log ∨ w ∈ q.waiters) ∧
      ∀ a w, s.possible a → .resolved w ∈ s.happens a → (s.step a).Idle := by
  intro s
  have hs : Sound s := sound_run h k
  clear_value s
  refine ⟨?_, hs.ordered, ?_, fun a w ha hw => hs.resolves ha hw⟩
  · refine (length_filterMap_le _ _).trans ?_
    cases hs.phase <;> simp
  · obtain ⟨phase, -, waited⟩ := hs
    cases phase with
    | idle ho hr => exact .inl ⟨⟨rfl, rfl⟩, ho, hr, fun w hw => (waited w hw).resolve_right nofun⟩
    | @busy q loop _ _ hb =>
      refine .inr ⟨q, loop, rfl, rfl, ?_, waited⟩
      cases hd : q.del with
      | true => exact .inl rfl
      | false => exact .inr (hb.obeyed hd)

def clearDuringWrite : List (Unit × Act ℕ ℕ) :=
  [.save 1, .turn 0, .save 2, .remove, .save 3, .settled 7, .fail 0 (some 1), .resume 0, .turn 0,
    .succeed 0, .resume 0, .turn 0, .succeed 0, .resume 0, .turn 0].map ((), ·)

theorem saver_ordering_clear :
    let s := machine.run (makeSaver fun _ => some 0) clearDuringWrite ()
    s.Idle ∧ .resolved 7 ∈ s.log ∧ s.store = some 3 := by
  obtain ⟨-, -, h | ⟨q, loop, hq, -⟩, -⟩ := saver_ordering (fun _ => some 0) clearDuringWrite
    (by simp [machine, makeSaver, clearDuringWrite, KeyState.possible, KeyState.step, KeyState.start,
      KeyState.queueFor, KeyState.drain, KeyState.settle, Queue.claim]) ()
  · obtain ⟨hi, -, hr, hw⟩ := h
    exact ⟨hi, hw 7 (by decide +kernel), hr (.write 3) (by decide +kernel) (by decide +kernel)⟩
  · have : (machine.run (makeSaver fun _ => some 0) clearDuringWrite ()).queue = none := by
      decide +kernel
    exact absurd (this.symm.trans hq) nofun

end SerialNexus.Saver
