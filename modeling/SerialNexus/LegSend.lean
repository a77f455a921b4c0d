import SerialNexus.TargetwardInbox

/-! # The leg's write half: one turn at a time

`next_send` (`daemon/src/nodes/leg.rs`) polls the queues of the channels the peer has bound,
round-robin from a start index that moves one past the channel it served.  Between two polls
producers queue chunks, go away, or a teardown takes a queue (`SendAct`). -/

namespace SerialNexus

open List Function

structure SendReceiver where
  channel : String
  inbox : TargetwardInbox Chunk
  bound : Bool
  senders : Bool

namespace SendReceiver

variable (r : SendReceiver)

def queue : List Chunk := (r.inbox.slot.map (·.queue)).getD []

def Closed : Prop := r.queue = [] ∧ (r.inbox.slot.isNone ∨ r.senders = false)

instance : Decidable r.Closed :=
  inferInstanceAs (Decidable (r.queue = [] ∧ (r.inbox.slot.isNone ∨ r.senders = false)))

def settleHeld : SendReceiver := { r with inbox := r.inbox.settleHeld }

def pollRecv : Poll (Option Chunk) × SendReceiver :=
  let (polled, inbox) := r.inbox.pollRecv r.senders
  (polled, { r with inbox })

@[simp] theorem queue_settleHeld : r.settleHeld.queue = r.queue := rfl

@[simp] theorem closed_settleHeld : r.settleHeld.Closed ↔ r.Closed := Iff.rfl

theorem pollRecv_cons {chunk : Chunk} {rest : List Chunk} (h : r.queue = chunk :: rest) :
    ∃ rx, rx.queue = rest ∧
      r.pollRecv = (.ready (some chunk), { r with inbox := ⟨some rx, chunk.length⟩ }) := by
  unfold queue at h
  cases hs : r.inbox.slot with
  | none => simp [hs] at h
  | some rx =>
    rw [hs] at h
    obtain ⟨hitem, hrest⟩ := rx.recv_of_cons h
    cases hr : rx.recv with
    | mk item rx' =>
      rw [hr] at hitem hrest
      obtain rfl : item = some chunk := hitem
      refine ⟨rx', hrest, ?_⟩
      simp only [pollRecv, TargetwardInbox.pollRecv, hs, hr]
      rfl

theorem pollRecv_nil (h : r.queue = []) :
    r.pollRecv = (if r.Closed then .ready none else .pending, r) := by
  have hq := h
  unfold queue at hq
  cases hs : r.inbox.slot with
  | none =>
    have hc : r.Closed := ⟨h, .inl (by simp [hs])⟩
    rw [if_pos hc]
    simp [pollRecv, TargetwardInbox.pollRecv, hs]
  | some rx =>
    rw [hs] at hq
    have hc : r.Closed ↔ r.senders = false := by simp [Closed, h, hs]
    simp only [pollRecv, TargetwardInbox.pollRecv, hs, rx.recv_of_nil hq, hc]
    cases hr : r.senders <;> simp [← hr]

theorem queue_of_isNone {r : SendReceiver} (h : r.inbox.slot.isNone) : r.queue = [] := by
  rw [queue, Option.isNone_iff_eq_none.mp h]
  rfl

def Ordered (r t : SendReceiver) (pulled arrived : List Chunk) : Prop :=
  ∃ taken, pulled ++ t.queue ++ taken = r.queue ++ arrived ∧ (t.inbox.slot.isSome → taken = []) ∧
    (r.inbox.slot.isNone → t.inbox.slot.isNone ∧ arrived = [])

variable {r} {t u : SendReceiver}

theorem Ordered.of_slot (h : t.inbox.slot = r.inbox.slot) : r.Ordered t [] [] :=
  ⟨[], by simp [queue, h], fun _ => rfl, fun hs => ⟨h ▸ hs, rfl⟩⟩

theorem Ordered.trans {pulled₁ pulled₂ arrived₁ arrived₂ : List Chunk}
    (h₁ : r.Ordered t pulled₁ arrived₁) (h₂ : t.Ordered u pulled₂ arrived₂) :
    r.Ordered u (pulled₁ ++ pulled₂) (arrived₁ ++ arrived₂) := by
  obtain ⟨taken₁, heq₁, hkept₁, hgone₁⟩ := h₁
  obtain ⟨taken₂, heq₂, hkept₂, hgone₂⟩ := h₂
  cases hslot : t.inbox.slot with
  | some rx =>
    rw [hkept₁ (by simp [hslot]), append_nil] at heq₁
    refine ⟨taken₂, ?_, hkept₂, fun h => absurd (hgone₁ h).1 (by simp [hslot])⟩
    calc pulled₁ ++ pulled₂ ++ u.queue ++ taken₂
        = pulled₁ ++ (pulled₂ ++ u.queue ++ taken₂) := by simp
      _ = pulled₁ ++ t.queue ++ arrived₂ := by rw [heq₂, append_assoc]
      _ = r.queue ++ (arrived₁ ++ arrived₂) := by rw [heq₁, append_assoc]
  | none =>
    -- the queue is gone: nothing happens to it any more
    have hnone : t.inbox.slot.isNone := by simp [hslot]
    obtain ⟨hend, rfl⟩ := hgone₂ hnone
    rw [queue_of_isNone hnone, append_nil, append_eq_nil_iff, append_eq_nil_iff] at heq₂
    obtain ⟨⟨rfl, hq⟩, -⟩ := heq₂
    rw [queue_of_isNone hnone] at heq₁
    refine ⟨taken₁, by simpa [hq] using heq₁, fun h => ?_, fun h => ⟨hend, by simp [(hgone₁ h).2]⟩⟩
    rw [Option.isNone_iff_eq_none] at hend
    simp [hend] at h

end SendReceiver

structure Pulled (n : ℕ) where
  index : Fin n
  channel : String
  chunk : Chunk
deriving DecidableEq

structure SendMux (n : ℕ) where
  receivers : Fin n → SendReceiver
  start : ℕ

namespace SendMux

variable {n : ℕ}

def place (hn : 0 < n) (start k : ℕ) : Fin n := ⟨(start + k) % n, Nat.mod_lt _ hn⟩

def scan (hn : 0 < n) : List ℕ → Bool → SendMux n → Poll (Option (Pulled n)) × SendMux n
  | [], allClosed, s => (if allClosed then .ready none else .pending, s)
  | k :: ks, allClosed, s =>
    let i := place hn s.start k
    if (s.receivers i).bound then
      match (s.receivers i).pollRecv with
      | (.ready (some chunk), r) =>
        (.ready (some ⟨i, r.channel, chunk⟩), ⟨update s.receivers i r, (i + 1) % n⟩)
      | (.ready none, r) =>
        scan hn ks allClosed { s with receivers := update s.receivers i r }
      | (.pending, r) =>
        scan hn ks false { s with receivers := update s.receivers i r }
    else
      -- waiting: open, but deliberately not drained
      scan hn ks false s

def settled (s : SendMux n) : SendMux n :=
  { s with receivers := fun i => (s.receivers i).settleHeld }

def nextSend (s : SendMux n) : Poll (Option (Pulled n)) × SendMux n :=
  if hn : 0 < n then scan hn (List.range n) true s.settled else (.ready none, s)

inductive SendAct (n : ℕ) where
  | poll
  | arrive (j : Fin n) (chunk : Chunk)
  | sendersGone (j : Fin n)
  | drain (j : Fin n)

variable (s : SendMux n)

def withReceiver (j : Fin n) (r : SendReceiver) : SendMux n :=
  { s with receivers := update s.receivers j r }

theorem receivers_withReceiver {i j : Fin n} (h : j ≠ i) (r : SendReceiver) :
    (s.withReceiver i r).receivers j = s.receivers j := update_of_ne h _ _

def arrival (j : Fin n) (chunk : Chunk) : Bool × TargetwardInbox Chunk :=
  if (s.receivers j).senders then (s.receivers j).inbox.accept chunk
  else (false, (s.receivers j).inbox)

def step : SendAct n → SendMux n
  | .poll => s.nextSend.2
  | .arrive j chunk => s.withReceiver j { s.receivers j with inbox := (s.arrival j chunk).2 }
  | .sendersGone j => s.withReceiver j { s.receivers j with senders := false }
  | .drain j =>
    s.withReceiver j { s.receivers j with inbox := (s.receivers j).inbox.drainAndCount.2 }

def machine : Runs.Machine (SendMux n) (SendAct n) where
  step := step
  ok _ _ := True

def pull : SendAct n → List (Pulled n)
  | .poll => match s.nextSend.1 with
    | .ready (some p) => [p]
    | _ => []
  | _ => []

def queued (j : Fin n) (s : SendMux n) : SendAct n → List Chunk
  | .arrive i chunk => if i = j ∧ (s.arrival i chunk).1 then [chunk] else []
  | _ => []

def pulls (as : List (SendAct n)) : List (Pulled n) := machine.outputs pull s as

def pulledFrom (j : Fin n) (ps : List (Pulled n)) : List Chunk :=
  ps.filterMap fun p => if p.index = j then some p.chunk else none

def Awaits (j : Fin n) : SendMux n → List (SendAct n) → Prop
  | _, [] => True
  | s, a :: as =>
    (a = .poll → (s.receivers j).bound = true ∧ (s.receivers j).queue ≠ []) ∧
      ((∀ p ∈ s.pull a, p.index ≠ j) → Awaits j (s.step a) as)

/-! ### One poll -/

def Idle (i : Fin n) : Prop := (s.receivers i).bound = false ∨ (s.receivers i).queue = []

inductive Scanned (hn : 0 < n) (s : SendMux n) (ks : List ℕ) (allClosed : Bool) :
    Poll (Option (Pulled n)) × SendMux n → Prop
  | served (ks₁ ks₂ : List ℕ) (k : ℕ) (chunk : Chunk) (rx : Channel Chunk)
      (split : ks = ks₁ ++ k :: ks₂) (idle : ∀ k' ∈ ks₁, s.Idle (place hn s.start k'))
      (bound : (s.receivers (place hn s.start k)).bound = true)
      (queue : (s.receivers (place hn s.start k)).queue = chunk :: rx.queue) :
      Scanned hn s ks allClosed
        (.ready (some ⟨place hn s.start k, (s.receivers (place hn s.start k)).channel, chunk⟩),
          ⟨update s.receivers (place hn s.start k)
            { s.receivers (place hn s.start k) with inbox := ⟨some rx, chunk.length⟩ },
            (place hn s.start k + 1) % n⟩)
  | nothing (idle : ∀ k ∈ ks, s.Idle (place hn s.start k)) :
      Scanned hn s ks allClosed
        (if allClosed = true ∧ ∀ k ∈ ks, (s.receivers (place hn s.start k)).bound = true ∧
            (s.receivers (place hn s.start k)).Closed then .ready none else .pending, s)

variable {s}

theorem Scanned.cons {hn : 0 < n} {k : ℕ} {ks : List ℕ} {allClosed still : Bool}
    {out : Poll (Option (Pulled n)) × SendMux n} (h : Scanned hn s ks still out)
    (hidle : s.Idle (place hn s.start k))
    (hstill : still = true ↔ allClosed = true ∧ (s.receivers (place hn s.start k)).bound = true ∧
      (s.receivers (place hn s.start k)).Closed) : Scanned hn s (k :: ks) allClosed out := by
  cases h with
  | served ks₁ ks₂ k' chunk rx split idle bound queue =>
    exact .served (k :: ks₁) ks₂ k' chunk rx (by rw [split]; rfl)
      (forall_mem_cons.mpr ⟨hidle, idle⟩) bound queue
  | nothing idle =>
    have hall : Scanned hn s (k :: ks) allClosed _ := .nothing (forall_mem_cons.mpr ⟨hidle, idle⟩)
    simp only [forall_mem_cons, hstill, and_assoc] at hall ⊢
    exact hall

theorem scan_scanned (hn : 0 < n) (ks : List ℕ) (allClosed : Bool) :
    Scanned hn s ks allClosed (scan hn ks allClosed s) := by
  induction ks generalizing allClosed with
  | nil =>
    have hnone : Scanned hn s [] allClosed _ := .nothing (by simp)
    simpa [scan] using hnone
  | cons k ks ih =>
    rw [scan]
    by_cases hb : (s.receivers (place hn s.start k)).bound = true
    · rw [if_pos hb]
      cases hq : (s.receivers (place hn s.start k)).queue with
      | cons chunk rest =>
        obtain ⟨rx, rfl, hpoll⟩ := (s.receivers (place hn s.start k)).pollRecv_cons hq
        rw [hpoll]
        exact .served [] ks k chunk rx rfl (by simp) hb hq
      | nil =>
        have hpoll := (s.receivers (place hn s.start k)).pollRecv_nil hq
        by_cases hc : (s.receivers (place hn s.start k)).Closed
        · rw [hpoll, if_pos hc]
          dsimp only
          rw [update_eq_self]
          exact (ih allClosed).cons (.inr hq) (by simp [hb, hc])
        · rw [hpoll, if_neg hc]
          dsimp only
          rw [update_eq_self]
          exact (ih false).cons (.inr hq) (by simp [hc])
    · rw [if_neg hb]
      exact (ih false).cons (.inl (by simpa using hb)) (by simp [hb])

theorem mem_of_range_eq {ks₁ ks₂ : List ℕ} {k : ℕ} (h : List.range n = ks₁ ++ k :: ks₂) :
    k < n ∧ ∀ d < k, d ∈ ks₁ := by
  have hk : k < n := mem_range.mp (h ▸ by simp)
  refine ⟨hk, fun d hd => ?_⟩
  have hmem : d ∈ ks₁ ++ k :: ks₂ := h ▸ mem_range.mpr (hd.trans hk)
  rcases mem_append.mp hmem with hmem | hmem
  · exact hmem
  · have hsorted : (k :: ks₂).Pairwise (· < ·) :=
      (List.pairwise_append.mp (h ▸ List.pairwise_lt_range)).2.1
    rcases mem_cons.mp hmem with rfl | hmem
    · exact absurd hd (lt_irrefl _)
    · exact absurd hd (rel_of_pairwise_cons hsorted hmem).not_gt

theorem exists_place (hn : 0 < n) (start : ℕ) (j : Fin n) : ∃ d < n, place hn start d = j := by
  refine ⟨(j + (n - start % n)) % n, Nat.mod_lt _ hn, Fin.ext ?_⟩
  have hlt := Nat.mod_lt start hn
  have hsplit : start + (j + (n - start % n)) = j + n * (start / n + 1) := by
    have hdiv := Nat.div_add_mod start n
    rw [Nat.mul_succ]
    omega
  change (start + (j + (n - start % n)) % n) % n = j
  rw [Nat.add_mod_mod, hsplit, Nat.add_mul_mod_self_left, Nat.mod_eq_of_lt j.isLt]

variable (s)

theorem nextSend_cases :
    (∃ (p : Pulled n) (rx : Channel Chunk) (hn : 0 < n) (d : ℕ),
        place hn s.start d = p.index ∧ (∀ e < d, s.Idle (place hn s.start e)) ∧
        (s.receivers p.index).bound = true ∧ p.channel = (s.receivers p.index).channel ∧
        (s.receivers p.index).queue = p.chunk :: rx.queue ∧
        s.nextSend = (.ready (some p), ⟨update s.settled.receivers p.index
          { s.receivers p.index with inbox := ⟨some rx, p.chunk.length⟩ }, (p.index + 1) % n⟩)) ∨
      (∀ j, s.Idle j) ∧ s.nextSend =
        (if ∀ j, (s.receivers j).bound = true ∧ (s.receivers j).Closed then .ready none else .pending,
          s.settled) := by
  by_cases hn : 0 < n
  · rw [nextSend, dif_pos hn]
    have hscan : Scanned hn s.settled (List.range n) true _ := scan_scanned hn (List.range n) true
    generalize scan hn (List.range n) true s.settled = out at hscan ⊢
    cases hscan with
    | served ks₁ ks₂ k chunk rx split idle bound queue =>
      exact .inl ⟨⟨place hn s.start k, (s.receivers (place hn s.start k)).channel, chunk⟩, rx, hn, k,
        rfl, fun e he => idle e ((mem_of_range_eq split).2 e he), bound, rfl, queue, rfl⟩
    | nothing idle =>
      have hall : ∀ P : Fin n → Prop,
          (∀ k ∈ List.range n, P (place hn s.start k)) → ∀ j, P j := fun P h j => by
        obtain ⟨d, hd, rfl⟩ := exists_place hn s.start j
        exact h d (mem_range.mpr hd)
      refine .inr ⟨hall _ idle, ?_⟩
      congr 2
      refine propext ⟨fun h => hall _ h.2, fun h => ⟨rfl, fun k _ => h _⟩⟩
  · obtain rfl : n = 0 := by omega
    refine .inr ⟨fun j => j.elim0, ?_⟩
    rw [nextSend, dif_neg hn, if_pos fun j => j.elim0]
    exact congrArg (Prod.mk _) (congrArg (SendMux.mk · s.start) (funext fun j => j.elim0))

/-! ### Fairness -/

theorem place_next (hn : 0 < n) (start : ℕ) {d e : ℕ} (h : d < e) :
    place hn ((place hn start d + 1) % n) (e - (d + 1)) = place hn start e := by
  refine Fin.ext ?_
  change (((start + d) % n + 1) % n + (e - (d + 1))) % n = (start + e) % n
  rw [Nat.mod_add_mod, Nat.add_assoc, Nat.mod_add_mod]
  congr 1
  omega

theorem pull_of_idle {P : Prop} [Decidable P] {t : SendMux n}
    (h : s.nextSend = (if P then .ready none else .pending, t)) : s.pull .poll = [] := by
  rw [pull, h]
  split_ifs <;> rfl

theorem pull_cases (a : SendAct n) :
    s.pull a = [] ∧ (s.step a).start = s.start ∨
      ∃ (p : Pulled n) (hn : 0 < n) (d : ℕ), a = .poll ∧ s.pull a = [p] ∧
        place hn s.start d = p.index ∧ (∀ e < d, s.Idle (place hn s.start e)) ∧
        (s.receivers p.index).bound = true ∧ (s.step a).start = (p.index + 1) % n := by
  cases a with
  | poll =>
    rcases s.nextSend_cases with ⟨p, rx, hn, d, hd, hidle, hb, -, -, he⟩ | ⟨-, he⟩
    · exact .inr ⟨p, hn, d, rfl, by simp [pull, he], hd, hidle, hb, by simp [step, he]⟩
    · exact .inl ⟨s.pull_of_idle he, by simp [step, he, settled]⟩
  | arrive | sendersGone | drain => exact .inl ⟨rfl, rfl⟩

variable {as : List (SendAct n)}

theorem served_of_awaits (hn : 0 < n) {j : Fin n} {d : ℕ} (hd : place hn s.start d = j)
    (h : Awaits j s as) (hlen : d < (s.pulls as).length) :
    ∃ p ∈ (s.pulls as).take (d + 1), p.index = j := by
  induction as generalizing s d with
  | nil => simp [pulls, Runs.Machine.outputs] at hlen
  | cons a as ih =>
    have hcons : s.pulls (a :: as) = s.pull a ++ (s.step a).pulls as := rfl
    rw [hcons] at hlen ⊢
    rcases s.pull_cases a with ⟨hpull, hstart⟩ | ⟨p, hn', e, rfl, hpull, he, hidle, -, hstart⟩
    · rw [hpull, nil_append] at hlen ⊢
      exact ih _ (by rw [hstart]; exact hd) (h.2 (by simp [hpull])) hlen
    · rw [hpull] at hlen ⊢
      by_cases hp : p.index = j
      · exact ⟨p, by simp, hp⟩
      · -- the receiver served stands strictly before `j`
        obtain ⟨hbound, hqueue⟩ := h.1 rfl
        have hlt : e < d := by
          by_contra hle
          rcases Nat.lt_or_eq_of_le (not_lt.mp hle) with hde | rfl
          · rcases hidle d hde with hu | hq
            · rw [hd, hbound] at hu
              cases hu
            · exact hqueue (hd ▸ hq)
          · exact hp (he.symm.trans hd)
        have hnear : place hn (s.step .poll).start (d - (e + 1)) = j := by
          rw [hstart, ← he, place_next hn _ hlt, hd]
        simp only [singleton_append, length_cons] at hlen
        obtain ⟨q, hq, hqj⟩ := ih _ hnear (h.2 (by simpa [hpull] using hp)) (by omega)
        refine ⟨q, ?_, hqj⟩
        rw [singleton_append, take_succ_cons]
        exact mem_cons_of_mem _ ((take_prefix_take_left (by omega)).subset hq)

/-! ### Order -/

theorem step_ordered (j : Fin n) (a : SendAct n) :
    (s.receivers j).Ordered ((s.step a).receivers j) (pulledFrom j (s.pull a)) (queued j s a) := by
  cases a with
  | poll =>
    rcases s.nextSend_cases with ⟨p, rx, -, -, -, -, -, -, hq, he⟩ | ⟨-, he⟩
    · rw [show s.pull .poll = [p] by simp [pull, he], show s.step .poll = _ from congrArg Prod.snd he]
      by_cases hp : p.index = j
      · subst hp
        refine ⟨[], ?_, fun _ => rfl, fun h => ?_⟩
        · dsimp only
          rw [update_self, hq]
          simp [pulledFrom, queued, SendReceiver.queue]
        · simp [SendReceiver.queue_of_isNone h] at hq
      · rw [show pulledFrom j [p] = [] by simp [pulledFrom, hp]]
        refine .of_slot ?_
        dsimp only
        rw [update_of_ne (Ne.symm hp)]
        rfl
    · rw [s.pull_of_idle he, show s.step .poll = _ from congrArg Prod.snd he]
      exact .of_slot rfl
  | arrive i chunk =>
    by_cases hi : i = j
    · subst hi
      simp only [step, withReceiver, update_self, queued, arrival, pull, true_and]
      split_ifs with hsend hok
      · rcases (s.receivers i).inbox.accept_cases chunk with ⟨rx, rx', hs, hq, he⟩ | he
        · refine ⟨[], ?_, fun _ => rfl, fun h => ?_⟩
          · simp [he, SendReceiver.queue, hs, hq, pulledFrom]
          · simp [hs] at h
        · simp [he] at hok
      · rcases (s.receivers i).inbox.accept_cases chunk with ⟨rx, rx', hs, hq, he⟩ | he
        · simp [he] at hok
        · exact .of_slot (by rw [he])
      · next hbad => exact absurd hbad (by simp)
      · exact .of_slot rfl
    · rw [queued, if_neg fun h => hi h.1]
      exact .of_slot (by rw [step, receivers_withReceiver _ (Ne.symm hi)])
  | sendersGone i =>
    refine .of_slot ?_
    by_cases hi : i = j
    · subst hi
      simp [step, withReceiver]
    · rw [step, receivers_withReceiver _ (Ne.symm hi)]
  | drain i =>
    by_cases hi : i = j
    · subst hi
      have hnone : ((s.step (.drain i)).receivers i).inbox = ⟨none, 0⟩ := by
        simp [step, withReceiver, TargetwardInbox.drainAndCount_snd]
      refine ⟨(s.receivers i).queue, ?_, fun h => ?_, fun _ => ⟨by simp [hnone], rfl⟩⟩
      · simp [pull, pulledFrom, queued, SendReceiver.queue, hnone]
      · simp [hnone] at h
    · exact .of_slot (by rw [step, receivers_withReceiver _ (Ne.symm hi)])

theorem run_ordered (j : Fin n) (as : List (SendAct n)) :
    (s.receivers j).Ordered ((machine.run s as).receivers j) (pulledFrom j (s.pulls as))
      (machine.outputs (queued j) s as) := by
  induction as generalizing s with
  | nil => exact .of_slot rfl
  | cons a as ih =>
    have hcons : pulledFrom j (s.pulls (a :: as)) =
        pulledFrom j (s.pull a) ++ pulledFrom j ((s.step a).pulls as) := filterMap_append
    rw [hcons]
    exact (s.step_ordered j a).trans (ih (s.step a))

theorem bound_step (j : Fin n) (a : SendAct n) :
    ((s.step a).receivers j).bound = (s.receivers j).bound := by
  have hwith : ∀ (i : Fin n) (r : SendReceiver), r.bound = (s.receivers i).bound →
      ((s.withReceiver i r).receivers j).bound = (s.receivers j).bound := fun i r hr => by
    by_cases hi : j = i
    · subst hi
      simp only [withReceiver, update_self, hr]
    · rw [receivers_withReceiver _ hi]
  cases a with
  | poll =>
    rcases s.nextSend_cases with ⟨p, rx, -, -, -, -, -, -, -, he⟩ | ⟨-, he⟩
    · rw [show s.step .poll = _ from congrArg Prod.snd he]
      by_cases hj : j = p.index
      · subst hj
        dsimp only
        rw [update_self]
      · dsimp only
        rw [update_of_ne hj]
        rfl
    · rw [show s.step .poll = _ from congrArg Prod.snd he]
      rfl
  | arrive i | sendersGone i | drain i => exact hwith i _ rfl

theorem bound_of_mem_pulls {p : Pulled n} (h : p ∈ s.pulls as) :
    (s.receivers p.index).bound = true := by
  induction as generalizing s with
  | nil => simp [pulls, Runs.Machine.outputs] at h
  | cons a as ih =>
    rcases mem_append.mp h with h | h
    · rcases s.pull_cases a with ⟨hnil, -⟩ | ⟨q, -, -, -, hq, -, -, hb, -⟩
      · simp [hnil] at h
      · obtain rfl : p = q := by simpa [hq] using h
        exact hb
    · exact (s.bound_step p.index a).symm.trans (ih (s.step a) h)

theorem next_send_fair (as : List (SendAct n)) :
    (∀ j, Awaits j s as → n ≤ (s.pulls as).length → ∃ p ∈ (s.pulls as).take n, p.index = j) ∧
      (∀ j, (s.receivers j).Ordered ((machine.run s as).receivers j) (pulledFrom j (s.pulls as))
        (machine.outputs (queued j) s as)) ∧
      (∀ p ∈ s.pulls as, (s.receivers p.index).bound = true) ∧
      let t := machine.run s as
      (t.nextSend.1 = .ready none ↔ ∀ j, (t.receivers j).bound = true ∧ (t.receivers j).Closed) ∧
        (∀ j, (t.receivers j).bound = false →
          (t.nextSend.2.receivers j).inbox.slot = (t.receivers j).inbox.slot) ∧
        ∀ p, t.nextSend.1 = .ready (some p) → p.channel = (t.receivers p.index).channel ∧
          ∀ j, (t.nextSend.2.receivers j).inbox.held ≠ 0 → j = p.index := by
  refine ⟨fun j hj hlen => ?_, fun j => s.run_ordered j as, fun p => s.bound_of_mem_pulls, ?_⟩
  · have hn : 0 < n := Fin.pos j
    obtain ⟨d, hd, hplace⟩ := exists_place hn s.start j
    obtain ⟨p, hp, hpj⟩ := s.served_of_awaits hn hplace hj (by omega)
    exact ⟨p, (take_prefix_take_left (by omega)).subset hp, hpj⟩
  · intro t
    rcases t.nextSend_cases with ⟨p, rx, -, -, -, -, hb, hch, hq, he⟩ | ⟨-, he⟩
    · rw [he]
      refine ⟨⟨fun h => by simp at h, fun h => ?_⟩, fun j hj => ?_, fun q hqp => ?_⟩
      · simp [(h p.index).2.1] at hq
      · have hne : j ≠ p.index := fun h => by simp [← h, hj] at hb
        simp only [update_of_ne hne]
        rfl
      · obtain rfl : p = q := by simpa using hqp
        refine ⟨hch, fun j hheld => ?_⟩
        by_contra hne
        simp only [update_of_ne hne] at hheld
        exact hheld rfl
    · rw [he]
      refine ⟨?_, fun j _ => rfl, fun q hq => ?_⟩
      · split_ifs with hall
        · exact ⟨fun _ => hall, fun _ => rfl⟩
        · exact ⟨fun h => by simp at h, fun h => absurd h hall⟩
      · dsimp only at hq
        split_ifs at hq
        simp at hq

def twoChannels : SendMux 2 where
  receivers i := ⟨if i = 0 then "console" else "log",
    ⟨some ⟨4, if i = 0 then [[1], [2]] else [[3]], true, by split <;> decide, by simp⟩, 0⟩, true, true⟩
  start := 0

theorem next_send_fair_twoChannels :
    ∃ p ∈ (twoChannels.pulls [.poll, .arrive 0 [4], .poll]).take 2, p.index = 1 :=
  (twoChannels.next_send_fair [.poll, .arrive 0 [4], .poll]).1 1
    ⟨fun _ => by decide +kernel, fun _ => ⟨nofun, fun _ =>
      ⟨fun _ => by decide +kernel, fun _ => trivial⟩⟩⟩ (by decide +kernel)

end SendMux
end SerialNexus
