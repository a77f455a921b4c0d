import SerialNexus.Channel

/-! # A bounded channel and its suspended senders

A sender that finds a bounded channel full is suspended.  Each item taken frees a permit, which goes
to the sender that has waited longest; that sender puts its item in the channel when it is next
polled.  So an empty channel may still have senders suspended on it. -/

structure SendQueue (α : Type*) where
  cap : ℕ
  queue : List α
  granted : List α
  waiting : List α
  entered : List α
  room : queue.length + granted.length ≤ cap
  full : waiting ≠ [] → queue.length + granted.length = cap

inductive SenderMove (α : Type*) where
  | push (i : ℕ)
  | send (a : α)
  | dropGranted (i : ℕ)
  | dropWaiting (i : ℕ)

namespace SendQueue

open List

variable {α : Type*}

def new (cap : ℕ) : SendQueue α := ⟨cap, [], [], [], [], Nat.zero_le cap, fun h => absurd rfl h⟩

variable (q : SendQueue α)

def channel : Channel α :=
  ⟨q.cap, q.queue, true, (Nat.le_add_right _ _).trans q.room, fun h => by cases h⟩

theorem one_of_drop_ne_nil {l : List α} (h : l.drop 1 ≠ []) : l ≠ [] ∧ (l.take 1).length = 1 := by
  cases l with
  | nil => exact absurd rfl h
  | cons a l => exact ⟨cons_ne_nil a l, rfl⟩

theorem room_of_cons {a : α} {rest : List α} (hq : q.queue = a :: rest) :
    rest.length + (q.granted ++ q.waiting.take 1).length ≤ q.cap := by
  have := q.room
  rw [hq, length_cons] at this
  have := length_take_le 1 q.waiting
  rw [length_append]
  omega

theorem full_of_cons {a : α} {rest : List α} (hq : q.queue = a :: rest)
    (hne : q.waiting.drop 1 ≠ []) :
    rest.length + (q.granted ++ q.waiting.take 1).length = q.cap := by
  obtain ⟨hwaits, hone⟩ := one_of_drop_ne_nil hne
  have := q.full hwaits
  rw [hq, length_cons] at this
  rw [length_append, hone]
  omega

def recv : Option α × SendQueue α :=
  match hq : q.queue with
  | [] => (none, q)
  | a :: rest =>
    (some a,
      { q with
        queue := rest
        granted := q.granted ++ q.waiting.take 1
        waiting := q.waiting.drop 1
        room := q.room_of_cons hq
        full := q.full_of_cons hq })

def drainFuel : ℕ → SendQueue α → List α × SendQueue α
  | 0, q => ([], q)
  | fuel + 1, q =>
    match q.recv with
    | (none, q) => ([], q)
    | (some a, q) =>
      let (as, q) := drainFuel fuel q
      (a :: as, q)

def drain : List α × SendQueue α := drainFuel q.queue.length q

def push (i : ℕ) : SendQueue α :=
  if h : i < q.granted.length then
    { q with
      queue := q.queue ++ [q.granted[i]]
      granted := q.granted.eraseIdx i
      entered := q.entered ++ [q.granted[i]]
      room := by
        have := q.room
        rw [length_append, length_eraseIdx_of_lt h, length_singleton]
        omega
      full := by
        intro hne
        have := q.full hne
        rw [length_append, length_eraseIdx_of_lt h, length_singleton]
        omega }
  else q

def send (a : α) : SendQueue α :=
  if h : q.queue.length + q.granted.length < q.cap then
    { q with
      queue := q.queue ++ [a]
      entered := q.entered ++ [a]
      room := by
        rw [length_append, length_singleton]
        omega
      full := fun hne => absurd (q.full hne) h.ne }
  else { q with waiting := q.waiting ++ [a], full := fun _ => le_antisymm q.room (not_lt.mp h) }

def dropGranted (i : ℕ) : SendQueue α :=
  if h : i < q.granted.length then
    { q with
      granted := q.granted.eraseIdx i ++ q.waiting.take 1
      waiting := q.waiting.drop 1
      room := by
        have := q.room
        have := length_take_le 1 q.waiting
        rw [length_append, length_eraseIdx_of_lt h]
        omega
      full := by
        intro hne
        obtain ⟨hwaits, hone⟩ := one_of_drop_ne_nil hne
        have := q.full hwaits
        rw [length_append, length_eraseIdx_of_lt h, hone]
        omega }
  else q

def dropWaiting (i : ℕ) : SendQueue α :=
  { q with
    waiting := q.waiting.eraseIdx i
    full := fun hne => q.full fun h => hne (by rw [h, eraseIdx_nil]) }

def step : SenderMove α → SendQueue α
  | .push i => q.push i
  | .send a => q.send a
  | .dropGranted i => q.dropGranted i
  | .dropWaiting i => q.dropWaiting i

def pushAll : SendQueue α := (List.replicate q.granted.length 0).foldl push q

variable {q}

theorem recv_nil (h : q.queue = []) : q.recv = (none, q) := by
  unfold recv
  split
  · rfl
  · next hq =>
    rw [h] at hq
    cases hq

variable {a : α} {rest left : List α}

theorem recv_cons (h : q.queue = a :: rest) :
    q.recv.1 = some a ∧ q.recv.2.queue = rest ∧ q.recv.2.granted = q.granted ++ q.waiting.take 1 ∧
      q.recv.2.waiting = q.waiting.drop 1 ∧ q.recv.2.entered = q.entered ∧
      q.recv.2.cap = q.cap := by
  unfold recv
  split
  · next hq =>
    rw [h] at hq
    cases hq
  · next b rest' hq =>
    rw [h] at hq
    obtain ⟨rfl, rfl⟩ := List.cons.inj hq
    exact ⟨rfl, rfl, rfl, rfl, rfl, rfl⟩

structure Drained (q : SendQueue α) (items : List α) (q' : SendQueue α) : Prop where
  items : items = q.queue
  queue : q'.queue = []
  granted : q'.granted = q.granted ++ q.waiting.take q.queue.length
  waiting : q'.waiting = q.waiting.drop q.queue.length
  entered : q'.entered = q.entered
  cap : q'.cap = q.cap

theorem drainFuel_drained {fuel : ℕ} (h : q.queue.length ≤ fuel) :
    q.Drained (drainFuel fuel q).1 (drainFuel fuel q).2 := by
  induction fuel generalizing q with
  | zero =>
    have hnil : q.queue = [] := eq_nil_of_length_eq_zero (by omega)
    exact ⟨hnil.symm, hnil, by simp [drainFuel, hnil], by simp [drainFuel, hnil], rfl, rfl⟩
  | succ fuel ih =>
    rw [drainFuel]
    cases hq : q.queue with
    | nil =>
      rw [recv_nil hq]
      exact ⟨hq.symm, hq, by simp [hq], by simp [hq], rfl, rfl⟩
    | cons a rest =>
      obtain ⟨hitem, hqueue, hgranted, hwaiting, hentered, hcap⟩ := recv_cons hq
      cases hr : q.recv with
      | mk item q' =>
        rw [hr] at hitem hqueue hgranted hwaiting hentered hcap
        dsimp only at hitem hqueue hgranted hwaiting hentered hcap
        subst hitem
        have hrest := ih (q := q') (by rw [hqueue]; rw [hq] at h; simpa using h)
        dsimp only
        refine ⟨?_, hrest.queue, ?_, ?_, hrest.entered.trans hentered, hrest.cap.trans hcap⟩
        · rw [hrest.items, hqueue, hq]
        · rw [hrest.granted, hgranted, hwaiting, hqueue, hq, append_assoc,
            length_cons, Nat.add_comm, take_add]
        · rw [hrest.waiting, hwaiting, hqueue, hq, drop_drop, length_cons, Nat.add_comm]

theorem drain_drained (q : SendQueue α) : q.Drained q.drain.1 q.drain.2 := drainFuel_drained le_rfl

structure Resolved (q q' : SendQueue α) : Prop where
  queue : q'.queue.Perm (q.queue ++ q.granted)
  granted : q'.granted = []
  waiting : q'.waiting = q.waiting
  cap : q'.cap = q.cap

theorem push_zero (h : q.granted = a :: rest) :
    (q.push 0).queue = q.queue ++ [a] ∧ (q.push 0).granted = rest ∧
      (q.push 0).waiting = q.waiting ∧ (q.push 0).cap = q.cap := by
  unfold push
  rw [dif_pos (by simp [h])]
  simp [h]

theorem pushAll_resolved (q : SendQueue α) : q.Resolved q.pushAll := by
  unfold pushAll
  generalize hg : q.granted = granted
  induction granted generalizing q with
  | nil => exact ⟨by simp [hg], hg, rfl, rfl⟩
  | cons a rest ih =>
    obtain ⟨hqueue, hgranted, hwaiting, hcap⟩ := push_zero hg
    have hrest := ih (q.push 0) hgranted
    refine ⟨?_, hrest.granted, hrest.waiting.trans hwaiting, hrest.cap.trans hcap⟩
    have := hrest.queue
    rw [hqueue, hgranted, append_assoc] at this
    rw [hg]
    exact this

theorem step_entered (h : q.entered = left ++ q.queue) (move : SenderMove α) :
    (q.step move).entered = left ++ (q.step move).queue := by
  cases move with
  | push i =>
    simp only [step, push]
    split
    · rw [h, append_assoc]
    · exact h
  | send a =>
    simp only [step, send]
    split
    · rw [h, append_assoc]
    · exact h
  | dropGranted i =>
    simp only [step, dropGranted]
    split
    · exact h
    · exact h
  | dropWaiting i => exact h

theorem foldl_entered (moves : List (SenderMove α)) (h : q.entered = left ++ q.queue) :
    (moves.foldl step q).entered = left ++ (moves.foldl step q).queue := by
  induction moves generalizing q with
  | nil => exact h
  | cons move moves ih => exact ih (step_entered h move)

end SendQueue
