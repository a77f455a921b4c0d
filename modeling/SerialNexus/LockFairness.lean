import SerialNexus.Lease

/-! # Fairness of the endpoint write lock

An operation leaves the waiter queue of `core/src/lock.rs` alone, drops the entry of the origin it
is about, or appends it (`apply_queue`).  So whoever is ahead stays ahead, and as long as no `held`
origin is registered `acquire` grants a free lock to the front of the queue only. -/

namespace SerialNexus.EndpointLock

open List

def Op.origin : Op → OriginId
  | .register id _ _ | .unregister id | .acquire id | .enqueue id | .dequeue id | .steal id
  | .reclaimHeld id | .release id | .renew id | .recordPurge id _ => id

def Op.NoHeld : Op → Prop
  | .register _ _ mode => mode ≠ .held
  | _ => True

def Op.Leaves (l : EndpointLock) (a : OriginId) : Op → Prop
  | .dequeue id | .unregister id | .steal id => id = a
  | .acquire id => id = a ∧ (l.acquire id).1 = .granted
  | _ => False

instance : ∀ op : Op, Decidable op.NoHeld
  | .register _ _ mode => inferInstanceAs (Decidable (mode ≠ .held))
  | .unregister _ | .acquire _ | .enqueue _ | .dequeue _ | .steal _ | .reclaimHeld _ | .release _
  | .renew _ | .recordPurge _ _ => .isTrue trivial

instance (l : EndpointLock) (a : OriginId) : ∀ op : Op, Decidable (op.Leaves l a)
  | .dequeue id | .unregister id | .steal id => inferInstanceAs (Decidable (id = a))
  | .acquire id => inferInstanceAs (Decidable (id = a ∧ (l.acquire id).1 = .granted))
  | .register _ _ _ | .enqueue _ | .reclaimHeld _ | .release _ | .renew _ | .recordPurge _ _ =>
    .isFalse id

variable {l : EndpointLock}

def HeldFree (l : EndpointLock) : Prop := ∀ i, l.writeMode i ≠ some .held

variable {op : Op} {id a b : OriginId} {ops : List Op}

theorem HeldFree.apply (h : l.HeldFree) (hop : op.NoHeld) : (l.apply op).HeldFree := by
  intro i
  rw [apply_writeMode]
  cases op with
  | register id label mode =>
    simp only [Op.modes, Function.update_apply]
    split_ifs
    · exact fun h => hop (Option.some.inj h)
    · exact h i
  | unregister id =>
    simp only [Op.modes, Function.update_apply]
    split_ifs
    · simp
    · exact h i
  | _ => exact h i

theorem register_waiters (id : OriginId) (label : String) (mode : WriteMode) :
    (l.register id label mode).waiters = l.waiters := by
  unfold register
  dsimp only
  split_ifs <;> rfl

theorem unregister_waiters (id : OriginId) :
    (l.unregister id).2.waiters = l.waiters.filter (· ≠ id) := by
  unfold unregister
  dsimp only
  split_ifs <;> rfl

theorem release_waiters (id : OriginId) : (l.release id).2.waiters = l.waiters := by
  unfold release
  split_ifs <;> rfl

theorem renew_waiters (id : OriginId) : (l.renew id).2.waiters = l.waiters := by
  unfold renew
  split_ifs <;> rfl

theorem acquire_waiters (id : OriginId) :
    (l.acquire id).2.waiters = l.waiters ∨
      ((l.acquire id).1 = .granted ∧ (l.acquire id).2.waiters = l.waiters.filter (· ≠ id)) := by
  rcases l.acquire_cases id with h | ⟨-, -, h⟩
  · exact .inl (by rw [h])
  · exact .inr (by rw [h]; exact ⟨rfl, rfl⟩)

theorem steal_waiters (id : OriginId) :
    (l.steal id).2.waiters = l.waiters ∨
      (l.steal id).2.waiters = l.waiters.filter (· ≠ id) := by
  unfold steal
  cases l.origins[id]? with
  | none => exact .inl rfl
  | some o =>
    dsimp only
    split_ifs
    · exact .inl rfl
    · exact .inl rfl
    · exact .inl rfl
    · exact .inr rfl

theorem reclaimHeld_waiters (id : OriginId) :
    (l.reclaimHeld id).2.waiters = l.waiters ∨
      (l.writeMode id = some .held ∧
        (l.reclaimHeld id).2.waiters = l.waiters.filter (· ≠ id)) := by
  unfold reclaimHeld writeMode
  cases l.origins[id]? with
  | none => exact .inl rfl
  | some o =>
    dsimp only
    split_ifs with hheld
    · exact .inl rfl
    · exact .inr ⟨by simp [hheld], rfl⟩
    · exact .inl rfl
    · exact .inl rfl

theorem enqueue_of_waiting (h : id ∈ l.waiters) : l.enqueue id = l := by
  unfold enqueue
  cases l.origins[id]? with
  | none => rfl
  | some o => simp [h]

theorem enqueue_waiters (id : OriginId) :
    (l.enqueue id).waiters = l.waiters ∨
      (id ∉ l.waiters ∧ (l.enqueue id).waiters = l.waiters ++ [id]) := by
  by_cases hmem : id ∈ l.waiters
  · exact .inl (by rw [enqueue_of_waiting hmem])
  unfold enqueue
  cases l.origins[id]? with
  | none => exact .inl rfl
  | some o =>
    dsimp only
    split_ifs
    · exact .inl rfl
    · exact .inr ⟨hmem, rfl⟩
    · exact .inl rfl

theorem apply_queue (l : EndpointLock) (op : Op) :
    (l.apply op).waiters = l.waiters ∨
    ((op.Leaves l op.origin ∨ l.writeMode op.origin = some .held) ∧
      (l.apply op).waiters = l.waiters.filter (· ≠ op.origin)) ∨
    (op = .enqueue op.origin ∧ op.origin ∉ l.waiters ∧
      (l.apply op).waiters = l.waiters ++ [op.origin]) := by
  cases op with
  | register id label mode => exact .inl (register_waiters id label mode)
  | unregister id => exact .inr (.inl ⟨.inl rfl, unregister_waiters id⟩)
  | acquire id =>
    rcases acquire_waiters (l := l) id with h | ⟨hgranted, h⟩
    · exact .inl h
    · exact .inr (.inl ⟨.inl ⟨rfl, hgranted⟩, h⟩)
  | enqueue id => exact (enqueue_waiters id).imp_right fun h => .inr ⟨rfl, h⟩
  | dequeue id => exact .inr (.inl ⟨.inl rfl, rfl⟩)
  | steal id => exact (steal_waiters id).imp_right fun h => .inl ⟨.inl rfl, h⟩
  | reclaimHeld id =>
    rcases reclaimHeld_waiters (l := l) id with h | ⟨hheld, h⟩
    · exact .inl h
    · exact .inr (.inl ⟨.inr hheld, h⟩)
  | release id => exact .inl (release_waiters id)
  | renew id => exact .inl (renew_waiters id)
  | recordPurge id bytes => exact .inl rfl

theorem mem_apply_queue (op : Op) {w : OriginId} (hw : w ∈ l.waiters) (hne : w ≠ op.origin) :
    w ∈ (l.apply op).waiters := by
  rcases l.apply_queue op with h | ⟨-, h⟩ | ⟨-, -, h⟩
  · rwa [h]
  · rw [h, mem_filter]
    exact ⟨hw, by simpa using hne⟩
  · rw [h]
    exact mem_append_left _ hw

theorem apply_queue_order (op : Op) (ha : a ∈ (l.apply op).waiters) (hb : b ∈ (l.apply op).waiters)
    (hab : [a, b].Sublist l.waiters) : [a, b].Sublist (l.apply op).waiters := by
  rcases l.apply_queue op with h | ⟨-, h⟩ | ⟨-, -, h⟩
  · rwa [h]
  · rw [h, mem_filter] at ha hb
    have hkept : [a, b].filter (· ≠ op.origin) = [a, b] := by simp_all
    rw [h, ← hkept]
    exact hab.filter _
  · rw [h]
    exact hab.trans (List.sublist_append_left _ _)

theorem acquire_granted_front (hex : l.arbitration = .exclusive) (hfree : l.HeldFree)
    (h : (l.acquire id).1 = .granted) : l.waiters.head? = none ∨ l.waiters.head? = some id := by
  have hnf : l.arbitration ≠ .freeForAll := by simp [hex]
  have hanswer := acquire_answer hex id
  rw [h] at hanswer
  obtain ⟨⟨o, ho, hn⟩, hholder, -⟩ := hanswer
  have hheld : o.writeMode ≠ .held := by
    intro hm
    exact hfree id (by rw [writeMode, ho, Option.map_some, hm])
  simp only [acquire, ho, if_neg hn, if_neg hnf, hholder, if_neg hheld] at h
  cases hother : l.heldOriginOtherThan id with
  | some held =>
    rw [hother] at h
    cases h
  | none =>
    rw [hother] at h
    cases hfront : l.waiters.head? with
    | none => exact .inl rfl
    | some front =>
      by_cases hne : front = id
      · exact .inr (by rw [hne])
      · simp only [hfront, ne_eq, hne, not_false_eq_true, if_true, reduceCtorEq] at h

/-! ### Whole runs -/

def Precedes (l : EndpointLock) (a b : OriginId) : Prop :=
  ∃ ahead behind, l.waiters = ahead ++ a :: behind ∧ b ∉ ahead ∧ b ≠ a

theorem precedes_of_waiting (ha : a ∈ l.waiters) (hb : b ∉ l.waiters) : l.Precedes a b := by
  obtain ⟨ahead, behind, hsplit⟩ := append_of_mem ha
  refine ⟨ahead, behind, hsplit, fun h => hb ?_, fun h => hb (h ▸ ha)⟩
  rw [hsplit]
  exact mem_append_left _ h

theorem Precedes.waiting (h : l.Precedes a b) : a ∈ l.waiters := by
  obtain ⟨ahead, behind, hsplit, -, -⟩ := h
  simp [hsplit]

theorem Precedes.apply (h : l.Precedes a b) (hfree : l.HeldFree) (hstay : ¬ op.Leaves l a) :
    (l.apply op).Precedes a b := by
  obtain ⟨ahead, behind, hsplit, hb, hne⟩ := h
  rcases l.apply_queue op with hq | ⟨hleft, hq⟩ | ⟨-, -, hq⟩
  · exact ⟨ahead, behind, by rw [hq, hsplit], hb, hne⟩
  · have hother : a ≠ op.origin := by
      rintro rfl
      exact hleft.elim hstay (hfree _)
    refine ⟨ahead.filter (· ≠ op.origin), behind.filter (· ≠ op.origin), ?_, ?_, hne⟩
    · rw [hq, hsplit, filter_append, filter_cons_of_pos (by simpa using hother)]
    · exact fun hmem => hb (mem_filter.mp hmem).1
  · exact ⟨ahead, behind ++ [op.origin], by rw [hq, hsplit]; simp, hb, hne⟩

theorem Precedes.not_granted (h : l.Precedes a b) (hex : l.arbitration = .exclusive)
    (hfree : l.HeldFree) : (l.acquire b).1 ≠ .granted := by
  obtain ⟨ahead, behind, hsplit, hb, hne⟩ := h
  intro hgranted
  rcases acquire_granted_front hex hfree hgranted with hfront | hfront
  · simp [hsplit] at hfront
  · cases ahead with
    | nil => simp [hsplit, hne.symm] at hfront
    | cons c ahead =>
      obtain rfl : c = b := by simpa [hsplit] using hfront
      exact hb mem_cons_self

theorem run_heldFree (h : ∀ op ∈ ops, op.NoHeld) (hl : l.HeldFree)
    (hex : l.arbitration = .exclusive) :
    (machine.run l ops).HeldFree ∧ (machine.run l ops).arbitration = .exclusive := by
  induction ops generalizing l with
  | nil => exact ⟨hl, hex⟩
  | cons op ops ih =>
    exact ih (fun o ho => h o (mem_cons_of_mem _ ho)) (hl.apply (h op mem_cons_self))
      ((l.apply_effect op).arbitration.trans hex)

theorem Precedes.run (h : l.Precedes a b) (hl : l.HeldFree) (hops : ∀ op ∈ ops, op.NoHeld)
    (hstay : machine.Each (fun l op => ¬ op.Leaves l a) l ops) :
    (machine.run l ops).Precedes a b := by
  induction ops generalizing l with
  | nil => exact h
  | cons op ops ih =>
    exact ih (h.apply hl hstay.1) (hl.apply (hops op mem_cons_self))
      (fun o ho => hops o (mem_cons_of_mem _ ho)) hstay.2

theorem fifo_fairness {before after : List Op} (hops : ∀ op ∈ before ++ after, op.NoHeld) :
    let l₀ := machine.run (EndpointLock.new .exclusive) before
    let l := machine.run l₀ after
    (∀ a b, a ∈ l₀.waiters → b ∉ l₀.waiters → machine.Each (fun l op => ¬ op.Leaves l a) l₀ after →
      a ∈ l.waiters ∧ (l.acquire b).1 ≠ .granted) ∧
    (∀ op : Op, (∀ w ∈ l.waiters, w ≠ op.origin → w ∈ (l.apply op).waiters) ∧
      ∀ a b, a ∈ (l.apply op).waiters → b ∈ (l.apply op).waiters → [a, b].Sublist l.waiters →
        [a, b].Sublist (l.apply op).waiters) ∧
    ∀ a ∈ l.waiters, l.enqueue a = l := by
  intro l₀ l
  have hnew : (EndpointLock.new .exclusive).HeldFree := by
    intro i
    simp [writeMode, EndpointLock.new]
  have hbefore : ∀ op ∈ before, op.NoHeld := fun op h => hops op (mem_append_left _ h)
  have hafter : ∀ op ∈ after, op.NoHeld := fun op h => hops op (mem_append_right _ h)
  obtain ⟨hfree₀, hex₀⟩ := run_heldFree hbefore hnew rfl
  obtain ⟨hfree, hex⟩ := run_heldFree hafter hfree₀ hex₀
  refine ⟨fun a b ha hb hstay => ?_, fun op => ⟨fun w hw hne => mem_apply_queue op hw hne, ?_⟩, ?_⟩
  · have hahead := (precedes_of_waiting ha hb).run hfree₀ hafter hstay
    exact ⟨hahead.waiting, hahead.not_granted hex hfree⟩
  · exact fun a b ha hb hab => apply_queue_order op ha hb hab
  · exact fun a ha => enqueue_of_waiting ha

theorem fifo_fairness_theft :
    let before : List Op := [.register 1 "a" .onDemand, .register 2 "b" .onDemand,
      .register 3 "c" .onDemand, .acquire 1, .enqueue 2]
    let after : List Op := [.enqueue 3, .acquire 3, .steal 3, .enqueue 3, .release 3, .enqueue 3]
    let l := machine.run (machine.run (EndpointLock.new .exclusive) before) after
    l.waiters = [2, 3] ∧ l.holder = none ∧ (l.acquire 3).1 ≠ .granted ∧
      (l.acquire 2).1 = .granted := by
  intro before after l
  have hops : ∀ op ∈ before ++ after, op.NoHeld := by decide
  have hfair := (fifo_fairness hops).1 2 3 (by decide +kernel) (by decide +kernel)
    (by decide +kernel)
  exact ⟨by decide +kernel, by decide +kernel, hfair.2, by decide +kernel⟩

end SerialNexus.EndpointLock
