import Mathlib.Tactic

/-! # Bounded channels

A bounded multi-producer single-consumer queue, as its senders see it: a fixed capacity, the items
queued and not yet received, and whether the receiver is still there. -/

/-- What the channel `k` got of the items put into a family of channels, in order. -/
def receivedBy {α : Type*} (k : ℕ) (puts : List (ℕ × α)) : List α :=
  (puts.filter (·.1 = k)).map (·.2)

structure Channel (α : Type*) where
  cap : ℕ
  queue : List α
  isOpen : Bool
  bounded : queue.length ≤ cap
  drained : isOpen = false → queue = []

inductive TrySend where
  | ok
  | full
  | closed
deriving DecidableEq, Repr

namespace Channel

open List

variable {α : Type*}

def new (cap : ℕ) : Channel α := ⟨cap, [], true, by simp, by simp⟩

variable (c : Channel α)

def capacity : ℕ := c.cap - c.queue.length

def trySend (a : α) : TrySend × Channel α :=
  if ho : c.isOpen = true then
    if hr : c.queue.length < c.cap then
      (.ok, ⟨c.cap, c.queue ++ [a], true, by simp; omega, by simp⟩)
    else (.full, c)
  else (.closed, c)

def recv : Option α × Channel α :=
  match hq : c.queue with
  | [] => (none, c)
  | a :: rest =>
    (some a, ⟨c.cap, rest, c.isOpen, by have := c.bounded; simp [hq] at this; omega,
      fun h => by have := c.drained h; simp [hq] at this⟩)

def drainFuel : ℕ → Channel α → List α × Channel α
  | 0, c => ([], c)
  | fuel + 1, c =>
    match c.recv with
    | (none, c) => ([], c)
    | (some a, c) =>
      let (as, c) := drainFuel fuel c
      (a :: as, c)

def drain : List α × Channel α := drainFuel c.queue.length c

def hangUp : Channel α := ⟨c.cap, [], false, by simp, by simp⟩

variable {c}

theorem trySend_of_room (ho : c.isOpen = true) (hr : c.queue.length < c.cap) (a : α) :
    (c.trySend a).1 = .ok ∧ (c.trySend a).2.queue = c.queue ++ [a] := by
  simp [trySend, ho, hr]

theorem trySend_of_full (ho : c.isOpen = true) (hr : ¬ c.queue.length < c.cap) (a : α) :
    c.trySend a = (.full, c) := by
  simp [trySend, ho, hr]

theorem trySend_of_closed (ho : c.isOpen = false) (a : α) : c.trySend a = (.closed, c) := by
  simp [trySend, ho]

variable (c)

theorem trySend_cases (a : α) :
    (c.isOpen = true ∧ c.queue.length < c.cap ∧ (c.trySend a).1 = .ok ∧
        (c.trySend a).2.queue = c.queue ++ [a]) ∨
      (c.isOpen = true ∧ c.cap = c.queue.length ∧ c.trySend a = (.full, c)) ∨
      (c.isOpen = false ∧ c.trySend a = (.closed, c)) := by
  have hb := c.bounded
  cases ho : c.isOpen with
  | false => exact .inr (.inr ⟨rfl, trySend_of_closed ho a⟩)
  | true =>
    by_cases hr : c.queue.length < c.cap
    · exact .inl ⟨rfl, hr, trySend_of_room ho hr a⟩
    · exact .inr (.inl ⟨rfl, by omega, trySend_of_full ho hr a⟩)

variable {c} in
theorem queue_of_trySend_ok {a : α} {c' : Channel α} (h : c.trySend a = (.ok, c')) :
    c'.queue = c.queue ++ [a] := by
  rcases c.trySend_cases a with ⟨-, -, -, hq⟩ | ⟨-, -, hfull⟩ | ⟨-, hclosed⟩
  · rwa [h] at hq
  · rw [hfull] at h
    cases h
  · rw [hclosed] at h
    cases h

@[simp] theorem trySend_cap (a : α) : (c.trySend a).2.cap = c.cap := by
  unfold trySend
  split_ifs <;> rfl

@[simp] theorem trySend_isOpen (a : α) : (c.trySend a).2.isOpen = c.isOpen := by
  unfold trySend
  split_ifs with ho
  · exact ho.symm
  · rfl
  · rfl

@[simp] theorem recv_cap : c.recv.2.cap = c.cap := by
  unfold recv
  split <;> rfl

@[simp] theorem recv_isOpen : c.recv.2.isOpen = c.isOpen := by
  unfold recv
  split <;> rfl

theorem recv_queue : c.recv.1.toList ++ c.recv.2.queue = c.queue := by
  unfold recv
  split
  · next hq => simp
  · next hq => simp [hq]

theorem recv_of_nil (h : c.queue = []) : c.recv = (none, c) := by
  unfold recv
  split
  · rfl
  · next hq => simp [h] at hq

theorem recv_of_cons {a : α} {rest : List α} (h : c.queue = a :: rest) :
    c.recv.1 = some a ∧ c.recv.2.queue = rest := by
  unfold recv
  split
  · next hq => simp [h] at hq
  · next hq =>
    rw [h] at hq
    obtain ⟨rfl, rfl⟩ := List.cons.inj hq
    exact ⟨rfl, rfl⟩

theorem drainFuel_spec (fuel : ℕ) (h : c.queue.length ≤ fuel) :
    (drainFuel fuel c).1 = c.queue ∧ (drainFuel fuel c).2.queue = [] := by
  induction fuel generalizing c with
  | zero =>
    have hnil : c.queue = [] := eq_nil_of_length_eq_zero (by omega)
    simp [drainFuel, hnil]
  | succ fuel ih =>
    have hq := c.recv_queue
    rw [drainFuel]
    split
    · next c' he =>
      rw [he] at hq
      have hnil : c.queue = [] := by
        cases hc : c.queue with
        | nil => rfl
        | cons a rest =>
          unfold recv at he
          split at he
          · next hn => rw [hn] at hc; cases hc
          · cases he
      rw [hnil] at hq ⊢
      exact ⟨rfl, by simpa using hq⟩
    · next a c' he =>
      rw [he] at hq
      change a :: c'.queue = c.queue at hq
      obtain ⟨h1, h2⟩ := ih c' (by rw [← hq, length_cons] at h; omega)
      exact ⟨by rw [← hq, ← h1], h2⟩

theorem drain_spec : c.drain.1 = c.queue ∧ c.drain.2.queue = [] := c.drainFuel_spec _ le_rfl

/-- From `before` to `after` exactly `puts` entered the queues, in order, and nothing left them. -/
def Handed (before after : ℕ → Channel α) (puts : List (ℕ × α)) : Prop :=
  ∀ k, (after k).queue = (before k).queue ++ receivedBy k puts

theorem Handed.refl (cs : ℕ → Channel α) : Handed cs cs [] := fun _ => (append_nil _).symm

theorem Handed.trans {cs cs' cs'' : ℕ → Channel α} {puts more : List (ℕ × α)}
    (h : Handed cs cs' puts) (h' : Handed cs' cs'' more) : Handed cs cs'' (puts ++ more) := by
  intro k
  rw [h' k, h k, receivedBy, receivedBy, receivedBy, filter_append, map_append, append_assoc]

theorem Handed.update {cs : ℕ → Channel α} {k : ℕ} {a : α} {c' : Channel α}
    (h : (cs k).trySend a = (.ok, c')) : Handed cs (Function.update cs k c') [(k, a)] := by
  intro j
  by_cases hj : j = k
  · subst hj
    simp [receivedBy, queue_of_trySend_ok h]
  · simp [receivedBy, Function.update_of_ne hj, Ne.symm hj]

@[simp] theorem hangUp_cap : c.hangUp.cap = c.cap := rfl
@[simp] theorem hangUp_isOpen : c.hangUp.isOpen = false := rfl
@[simp] theorem hangUp_queue : c.hangUp.queue = [] := rfl

end Channel
