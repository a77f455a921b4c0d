import SerialNexus.Contention
import SerialNexus.LockFairness

/-! # No stranded waiter

Whatever makes a parked worker's attempt succeed also wakes it. -/

namespace SerialNexus

open Function

namespace EndpointLock

variable {l l' : EndpointLock}

def Grantable (l : EndpointLock) (id : OriginId) : Prop :=
  ∃ mode, l.writeMode id = some mode ∧ mode ≠ .never ∧
    (l.holder = some id ∨
      (l.holder = none ∧
        (mode = .held ∨
          ((∀ j, l.writeMode j = some .held → j = id) ∧
            ∀ front, l.waiters.head? = some front → front = id))))

theorem heldOriginOtherThan_none_iff (l : EndpointLock) (id : OriginId) :
    l.heldOriginOtherThan id = none ↔ ∀ j, l.writeMode j = some .held → j = id := by
  rw [heldOriginOtherThan_eq_none_iff]
  simp only [writeMode, Option.map_eq_some_iff]
  constructor
  · rintro h j ⟨o, ho, hm⟩
    by_contra hne
    exact h j o ho hne hm
  · intro h j o ho hne hm
    exact hne (h j ⟨o, ho, hm⟩)

theorem acquire_iff_grantable (hex : l.arbitration = .exclusive) (id : OriginId) :
    ((l.acquire id).1 = .granted ∨ (l.acquire id).1 = .alreadyHeld) ↔ l.Grantable id := by
  have hnf : l.arbitration ≠ .freeForAll := by simp [hex]
  unfold Grantable
  rw [← heldOriginOtherThan_none_iff]
  unfold acquire writeMode
  cases ho : l.origins[id]? with
  | none => simp
  | some o =>
    by_cases hn : o.writeMode = .never
    · simp [hn]
    · simp only [hn, if_false, hnf, Option.map_some, Option.some.injEq, exists_eq_left', ne_eq,
        not_false_eq_true, true_and]
      cases hh : l.holder with
      | some h =>
        by_cases heq : h = id
        · simp [heq]
        · simp [heq]
      | none =>
        by_cases hm : o.writeMode = .held
        · simp [hm]
        · cases hother : l.heldOriginOtherThan id with
          | some held => simp [hm]
          | none =>
            cases hfront : l.waiters.head? with
            | none => simp [hm]
            | some front =>
              by_cases hf : front = id
              · simp [hm, hf]
              · simp [hm, hf]

variable {id h : OriginId}

theorem WellFormed.grantable_of_holder (hl : l.WellFormed) (h : l.holder = some id) :
    l.Grantable id := by
  obtain ⟨mode, hmode, hn⟩ := (l.writer_iff id).mp (hl.holder_writer id h)
  exact ⟨mode, hmode, hn, .inl h⟩

theorem not_grantable_of_holder (hh : l.holder = some h) (hne : h ≠ id) : ¬ l.Grantable id := by
  rintro ⟨mode, -, -, hid | ⟨hnone, -⟩⟩
  · exact hne (Option.some.inj (hh.symm.trans hid))
  · rw [hh] at hnone
    cases hnone

def Still (l l' : EndpointLock) : Prop := ∀ id, l'.Grantable id → l.Grantable id

theorem Still.refl (l : EndpointLock) : Still l l := fun _ h => h

theorem Still.granted (h : l.Grantable id) (hholder : l'.holder = some id) : Still l l' := by
  intro x hx
  by_cases hne : id = x
  · exact hne ▸ h
  · exact absurd hx (not_grantable_of_holder hholder hne)

theorem Still.held (hl : l.WellFormed) (hh : l.holder = some h) (hh' : l'.holder = l.holder) :
    Still l l' :=
  .granted (hl.grantable_of_holder hh) (hh'.trans hh)

theorem Still.congr (hmode : l'.writeMode = l.writeMode) (hholder : l'.holder = l.holder)
    (hwaiters : l'.waiters = l.waiters) : Still l l' := by
  intro x hx
  unfold Grantable at hx ⊢
  rwa [hmode, hholder, hwaiters] at hx

structure Gentle (mine : OriginId → Prop) (l l' : EndpointLock) : Prop where
  wf : l'.WellFormed
  modes : ∀ x, l'.writeMode x = none ∨ l'.writeMode x = l.writeMode x
  waiters : ∀ x ∈ l'.waiters, x ∈ l.waiters ∨ mine x

variable {mine : OriginId → Prop}

theorem Gentle.refl (hl : l.WellFormed) : Gentle mine l l := ⟨hl, fun _ => .inr rfl, fun _ => .inl⟩

theorem Gentle.mono {mine' : OriginId → Prop} (h : Gentle mine l l')
    (hmine : ∀ x, mine x → mine' x) : Gentle mine' l l' :=
  ⟨h.wf, h.modes, fun x hx => (h.waiters x hx).imp_right (hmine x)⟩

def Op.admits : Op → Bool
  | .register _ _ _ | .enqueue _ => true
  | _ => false

theorem apply_waiters {op : Op} (hop : op.admits = false) : (l.apply op).waiters ⊆ l.waiters := by
  rcases l.apply_queue op with h | ⟨-, h⟩ | ⟨hjoin, -, -⟩
  · rw [h]
    exact List.Subset.refl _
  · rw [h]
    exact List.filter_sublist.subset
  · rw [hjoin] at hop
    cases hop

theorem Gentle.apply (hl : l.WellFormed) (op : Op) (hop : op.admits = false) :
    Gentle mine l (l.apply op) := by
  refine ⟨apply_wellFormed hl op ?_, fun x => ?_, fun x hx => .inl (apply_waiters hop hx)⟩
  · cases op with
    | register id label mode => cases hop
    | _ => trivial
  · rw [apply_writeMode]
    cases op with
    | register id label mode => cases hop
    | unregister id =>
      by_cases hx : x = id
      · exact .inl (by simp [Op.modes, hx])
      · exact .inr (update_of_ne hx _ _)
    | _ => exact .inr rfl

theorem Gentle.enqueue (hl : l.WellFormed) {id : OriginId} (hid : mine id) :
    Gentle mine l (l.enqueue id) := by
  refine ⟨enqueue_wellFormed hl id, fun x => .inr ?_, fun x hx => ?_⟩
  · exact congrFun (l.apply_writeMode (.enqueue id)) x
  · unfold EndpointLock.enqueue at hx
    split at hx
    · split_ifs at hx
      · exact .inl hx
      · rcases List.mem_append.mp hx with hx | hx
        · exact .inl hx
        · exact .inr (List.mem_singleton.mp hx ▸ hid)
      · exact .inl hx
    · exact .inl hx

theorem Still.enqueue (l : EndpointLock) (id : OriginId) : Still l (l.enqueue id) := by
  unfold EndpointLock.enqueue
  split
  · split_ifs
    · exact .refl l
    · rintro x ⟨mode, hmode, hn, hx⟩
      refine ⟨mode, hmode, hn, hx.imp_right fun h => ⟨h.1, h.2.imp_right ?_⟩⟩
      rintro ⟨hheld, hfront⟩
      refine ⟨hheld, fun front hhead => hfront front ?_⟩
      rw [List.head?_append, hhead]
      rfl
    · exact .refl l
  · exact .refl l

theorem Still.acquire (hl : l.WellFormed) (id : OriginId) : Still l (l.acquire id).2 := by
  rcases l.acquire_cases id with h | ⟨-, -, h⟩
  · rw [h]
    exact .refl l
  · have hgrantable := (acquire_iff_grantable hl.exclusive id).mp (.inl (by rw [h]))
    rw [h]
    exact .granted hgrantable rfl

theorem Still.reclaimHeld (hl : l.WellFormed) (id : OriginId) : Still l (l.reclaimHeld id).2 := by
  cases ho : l.origins[id]? with
  | none =>
    simp only [EndpointLock.reclaimHeld, ho]
    exact .refl l
  | some o =>
    by_cases hm : o.writeMode = .held
    · rw [← (acquire_held_reclaimHeld hl.exclusive ho hm).2]
      exact .acquire hl id
    · simp only [EndpointLock.reclaimHeld, ho, if_neg hm]
      exact .refl l

theorem Still.register {id : OriginId} (label : String) (hfresh : l.writeMode id = none) :
    ∀ x ≠ id, (l.register id label .onDemand).Grantable x → l.Grantable x := by
  have hholder : (l.register id label .onDemand).holder = l.holder := by
    simp [EndpointLock.register]
  rintro x hne ⟨mode, hmode, hn, hx⟩
  rw [register_writeMode, update_of_ne hne] at hmode
  rw [hholder, register_waiters, register_writeMode] at hx
  refine ⟨mode, hmode, hn, hx.imp_right fun h => ⟨h.1, h.2.imp_right ?_⟩⟩
  rintro ⟨hheld, hfront⟩
  refine ⟨fun j hj => hheld j ?_, hfront⟩
  rw [update_of_ne, hj]
  rintro rfl
  rw [hfresh] at hj
  cases hj

end EndpointLock

namespace Job

variable {l : EndpointLock} {id : OriginId}

open EndpointLock (Gentle Still)

/-! ### Attempts -/

def Settles (id : OriginId) (queues : Bool) (l : EndpointLock) (r : Option Bool × EndpointLock) :
    Prop :=
  Gentle (fun x => x = id ∧ queues = true) l r.2 ∧ Still l r.2 ∧
    match r.1 with
    | some true => l.Grantable id ∧ r.2.holder = some id
    | some false => ¬ l.Grantable id ∧ id ∉ r.2.waiters
    | none => ¬ l.Grantable id

theorem not_waiting_of_not_writer (hl : l.WellFormed) (h : ∀ mode, l.writeMode id = some mode →
    mode = .never) : id ∉ l.waiters := by
  intro hw
  obtain ⟨mode, hmode, hn⟩ := (l.writer_iff id).mp (hl.waiters_writer id hw)
  exact hn (h mode hmode)

theorem acquireOrQueue_settles (hl : l.WellFormed) : Settles id true l (acquireOrQueue id l) := by
  have hgentle : Gentle (fun x => x = id ∧ true = true) l (l.acquire id).2 :=
    Gentle.apply hl (.acquire id) rfl
  have hstill := Still.acquire hl id
  have hanswer := EndpointLock.acquire_answer hl.exclusive id
  have hiff := EndpointLock.acquire_iff_grantable hl.exclusive id
  unfold acquireOrQueue
  rcases hr : l.acquire id with ⟨r, l'⟩
  rw [hr] at hgentle hstill hanswer hiff
  cases r with
  | granted =>
    refine ⟨hgentle, hstill, hiff.mp (.inl rfl), ?_⟩
    obtain ⟨-, -, rfl⟩ := hanswer
    rfl
  | alreadyHeld =>
    obtain ⟨-, hholder, rfl⟩ := hanswer
    exact ⟨hgentle, hstill, hiff.mp (.inr rfl), hholder⟩
  | readOnly =>
    obtain ⟨hmode, rfl⟩ := hanswer
    refine ⟨hgentle, hstill, fun h => by simpa using hiff.mpr h,
      not_waiting_of_not_writer hl fun mode h => ?_⟩
    exact Option.some.inj (h.symm.trans hmode)
  | unregistered =>
    obtain ⟨hmode, rfl⟩ := hanswer
    refine ⟨hgentle, hstill, fun h => by simpa using hiff.mpr h,
      not_waiting_of_not_writer hl fun mode h => ?_⟩
    rw [hmode] at h
    cases h
  | denied held =>
    obtain ⟨-, -, rfl⟩ := hanswer
    exact ⟨.enqueue hl ⟨rfl, rfl⟩, .enqueue l' id, fun h => by simpa using hiff.mpr h⟩

theorem pump_settles (hl : l.WellFormed) (payload : Option Chunk)
    (hmode : l.writeMode id = none ∨ l.writeMode id = some .held) :
    Settles id false l ((pump payload).attempt id l) := by
  rcases hmode with hnone | hheld
  · rw [attempt, if_pos hnone]
    refine ⟨.refl hl, .refl l, ?_, not_waiting_of_not_writer hl fun mode h => ?_⟩
    · rintro ⟨mode, hmode, -⟩
      rw [hnone] at hmode
      cases hmode
    · rw [hnone] at h
      cases h
  have hregistered : l.writeMode id ≠ none := by simp [hheld]
  rw [attempt, if_neg hregistered]
  by_cases hmay : l.mayWrite id = true
  · have hholder := (hl.mayWrite_iff id).mp hmay
    rw [if_pos hmay]
    exact ⟨.refl hl, .refl l, hl.grantable_of_holder hholder, hholder⟩
  rw [if_neg hmay]
  have hholder : l.holder ≠ some id := fun h => hmay ((hl.mayWrite_iff id).mpr h)
  have hreclaim : l.reclaimHeld id =
      if l.holder = none then (true, l.grantTo id) else (false, l) := by
    obtain ⟨o, ho, hm⟩ := Option.map_eq_some_iff.mp hheld
    simp [EndpointLock.reclaimHeld, ho, hm, hl.exclusive]
  by_cases hfree : l.holder = none
  · have hgentle : Gentle (fun x => x = id ∧ false = true) l (l.reclaimHeld id).2 :=
      Gentle.apply hl (.reclaimHeld id) rfl
    have hstill := Still.reclaimHeld hl id
    rw [hreclaim, if_pos hfree] at hgentle hstill ⊢
    exact ⟨hgentle, hstill, ⟨.held, hheld, by simp, .inr ⟨hfree, .inl rfl⟩⟩, rfl⟩
  · rw [hreclaim, if_neg hfree]
    obtain ⟨h, hh⟩ := Option.ne_none_iff_exists'.mp hfree
    refine ⟨.refl hl, .refl l, EndpointLock.not_grantable_of_holder hh ?_⟩
    rintro rfl
    exact hholder hh

theorem attempt_settles (job : Job) (hl : l.WellFormed)
    (hpump : ∀ payload, job = .pump payload → l.writeMode id = none ∨ l.writeMode id = some .held) :
    Settles id job.queues l (job.attempt id l) := by
  cases job with
  | lock | send | leg => exact acquireOrQueue_settles hl
  | pump payload => exact pump_settles hl payload (hpump payload rfl)

end Job

theorem Worker.notify_eq_parked {w : Worker} {job : Job} {id : OriginId} {n : Bool}
    (h : w.notify = .parked job id n) : n = true ∧ ∃ n', w = .parked job id n' := by
  cases w with
  | parked job' id' n' =>
    cases h
    exact ⟨rfl, n', rfl⟩
  | _ => cases h

namespace Contention

open EndpointLock (Gentle Still)

structure Sound (others : ℕ → Prop) (excused : OriginId → Prop) (s : Contention) : Prop where
  wf : s.lock.WellFormed
  pumps : ∀ i payload id n, s.workers i = .parked (.pump payload) id n →
    s.lock.writeMode id = none ∨ s.lock.writeMode id = some .held
  queued : s.cell.closed = false → ∀ id ∈ s.lock.waiters,
    excused id ∨ ∃ i job n, others i ∧ s.workers i = .parked job id n ∧ job.queues = true

structure Steady (others : ℕ → Prop) (excused : OriginId → Prop) (s : Contention) : Prop
    extends Sound others excused s where
  calm : ∀ i job id, others i → s.workers i = .parked job id false →
    s.cell.closed = false ∧ ¬ s.lock.Grantable id

variable {others : ℕ → Prop} {excused excused' : OriginId → Prop} {s : Contention}
  {l : EndpointLock}

theorem Sound.withLock (h : Sound others excused s) (hl : Gentle excused s.lock l) :
    Sound others excused (s.withLock l) where
  wf := hl.wf
  pumps i payload id n hw := by
    have hmode := h.pumps i payload id n hw
    rcases hl.modes id with hnone | heq
    · exact .inl hnone
    · exact hmode.imp heq.trans heq.trans
  queued hopen id hid := by
    rcases hl.waiters id hid with hmem | hex
    · exact h.queued hopen id hmem
    · exact .inl hex

theorem Sound.wake (h : Sound others excused s) : Steady others excused s.wake where
  wf := h.wf
  pumps i payload id n hw := by
    obtain ⟨-, n', hw'⟩ := Worker.notify_eq_parked hw
    exact h.pumps i payload id n' hw'
  queued hopen id hid := by
    refine (h.queued hopen id hid).imp_right fun ⟨i, job, n, hi, hw, hq⟩ => ?_
    exact ⟨i, job, true, hi, by simp [Contention.wake, hw, Worker.notify], hq⟩
  calm i job id _ hw := by
    cases (Worker.notify_eq_parked hw).1

theorem Steady.withLock (h : Steady others excused s) (hl : Gentle excused s.lock l)
    (hstill : Still s.lock l) : Steady others excused (s.withLock l) where
  toSound := h.toSound.withLock hl
  calm i job id hi hw := by
    obtain ⟨hopen, hnot⟩ := h.calm i job id hi hw
    exact ⟨hopen, fun hg => hnot (hstill id hg)⟩

theorem Steady.wakeIfFree (h : Steady others excused s) (hl : Gentle excused s.lock l)
    (hholder : ∀ x, l.holder = some x → s.lock.holder = some x) :
    Steady others excused (s.withLock l).wakeIfFree := by
  unfold Contention.wakeIfFree
  by_cases hfree : (s.withLock l).lock.holder = none
  · rw [if_pos hfree]
    exact (h.toSound.withLock hl).wake
  · rw [if_neg hfree]
    obtain ⟨x, hx⟩ := Option.ne_none_iff_exists'.mp hfree
    have hx' := hholder x hx
    exact h.withLock hl (.held h.wf hx' (hx.trans hx'.symm))

theorem Steady.release (h : Steady others excused s) (id : OriginId) :
    Steady others excused (s.release id) := by
  have hgentle : Gentle excused s.lock (s.lock.release id).2 := .apply h.wf (.release id) rfl
  unfold Contention.release EndpointLock.release at *
  by_cases hh : s.lock.holder = some id
  · rw [if_pos hh] at *
    exact (h.toSound.withLock hgentle).wake
  · rw [if_neg hh]
    exact h.withLock (.refl h.wf) (.refl _)

theorem Steady.detach (h : Steady others excused s) (id : OriginId) :
    Steady others excused (s.detach id) :=
  (h.toSound.withLock (.apply h.wf (.unregister id) rfl)).wake

theorem Steady.dropWaiter (h : Steady others excused s) (id : OriginId) :
    Steady others excused (s.dropWaiter id) :=
  h.wakeIfFree (.apply h.wf (.dequeue id) rfl) fun _ hx => hx

theorem Steady.dropTransient (h : Steady others excused s) (id : OriginId) :
    Steady others excused (s.dropTransient id) := by
  refine h.wakeIfFree (.apply h.wf (.unregister id) rfl) fun x hx => ?_
  unfold EndpointLock.unregister at hx
  split_ifs at hx
  exact hx

theorem Steady.steal (h : Steady others excused s) (id : OriginId) :
    Steady others excused (s.steal id) := by
  have hgentle : Gentle excused s.lock (s.lock.steal id).2 := .apply h.wf (.steal id) rfl
  have hanswer := s.lock.steal_answer id
  unfold Contention.steal
  rcases hr : s.lock.steal id with ⟨r, l⟩
  rw [hr] at hgentle hanswer
  cases r with
  | stolen previous => exact (h.toSound.withLock hgentle).wake
  | alreadyHeld =>
    obtain ⟨-, rfl⟩ := hanswer
    exact h.withLock hgentle (.refl _)
  | readOnly =>
    obtain rfl := hanswer
    exact h.withLock hgentle (.refl _)

theorem Sound.register (h : Sound others excused s) {id : OriginId} (hfresh : s.Fresh id)
    (label : String) (mode : WriteMode) :
    Sound others excused (s.withLock (s.lock.register id label mode)) where
  wf := EndpointLock.register_wellFormed h.wf label mode (Option.map_eq_none_iff.mp hfresh.1)
  pumps i payload id' n hw := by
    have hne : id' ≠ id := by
      rintro rfl
      exact hfresh.2 i (by rw [show s.workers i = _ from hw]; rfl)
    show (s.lock.register id label mode).writeMode id' = none ∨
      (s.lock.register id label mode).writeMode id' = some .held
    rw [EndpointLock.register_writeMode, update_of_ne hne]
    exact h.pumps i payload id' n hw
  queued hopen id' hid := by
    refine h.queued hopen id' ?_
    rwa [Contention.lock, Contention.withLock, EndpointLock.register_waiters] at hid

theorem Steady.queue (h : Steady others excused s) (queue : Channel Chunk) :
    Steady others excused { s with queue } :=
  ⟨⟨h.wf, h.pumps, h.queued⟩, h.calm⟩

theorem Steady.float (h : Steady (fun _ => True) excused s) (i : ℕ)
    (hi : ∀ job id n, s.workers i = .parked job id n → job.queues = true → excused' id)
    (hex : ∀ id, excused id → excused' id) : Steady (· ≠ i) excused' s where
  wf := h.wf
  pumps := h.pumps
  queued hopen id hid := by
    rcases h.queued hopen id hid with hid | ⟨j, job, n, -, hw, hq⟩
    · exact .inl (hex id hid)
    · by_cases hj : j = i
      · exact .inl (hi job id n (hj ▸ hw) hq)
      · exact .inr ⟨j, job, n, hj, hw, hq⟩
  calm j job id _ hw := h.calm j job id trivial hw

theorem Steady.setWorker {i : ℕ} (h : Steady (· ≠ i) excused' s) (w : Worker)
    (hpump : ∀ payload id n, w = .parked (.pump payload) id n →
      s.lock.writeMode id = none ∨ s.lock.writeMode id = some .held)
    (hcalm : ∀ job id, w = .parked job id false → s.cell.closed = false ∧ ¬ s.lock.Grantable id)
    (hex : s.cell.closed = false → ∀ id ∈ s.lock.waiters, excused' id →
      excused id ∨ ∃ job n, w = .parked job id n ∧ job.queues = true) :
    Steady (fun _ => True) excused (s.setWorker i w) where
  wf := h.wf
  pumps j payload id n hw := by
    by_cases hj : j = i
    · subst hj
      exact hpump payload id n ((s.setWorker_self _ w).symm.trans hw)
    · exact h.pumps j payload id n ((s.setWorker_of_ne hj w).symm.trans hw)
  queued hopen id hid := by
    rcases h.queued hopen id hid with hid' | ⟨j, job, n, hj, hw, hq⟩
    · refine (hex hopen id hid hid').imp_right fun ⟨job, n, hw, hq⟩ => ?_
      exact ⟨i, job, n, trivial, (s.setWorker_self i w).trans hw, hq⟩
    · exact .inr ⟨j, job, n, trivial, (s.setWorker_of_ne hj w).trans hw, hq⟩
  calm j job id _ hw := by
    by_cases hj : j = i
    · subst hj
      exact hcalm job id ((s.setWorker_self _ w).symm.trans hw)
    · exact h.calm j job id hj ((s.setWorker_of_ne hj w).symm.trans hw)

theorem Steady.settle {i : ℕ} (h : Steady (· ≠ i) excused s) {w : Worker}
    (hw : ∀ job id n, w ≠ .parked job id n) : Steady (fun _ => True) excused (s.setWorker i w) :=
  h.setWorker w (fun _ _ _ h => absurd h (hw _ _ _)) (fun _ _ h => absurd h (hw _ _ _))
    fun _ _ _ => .inl

variable {i : ℕ} {job : Job} {id : OriginId}

theorem Steady.write (h : Steady (· ≠ i) excused s) (job : Job) (id : OriginId) (chunk : Chunk)
    (fate : Fate) : Steady (fun _ => True) excused (s.write i job id chunk fate) := by
  unfold Contention.write
  split
  · split
    · exact (h.queue _).settle nofun
    · exact (h.queue _).settle nofun
    · exact h.settle nofun
    · exact h.settle nofun
    · exact (h.release id).settle nofun
    · exact h.settle nofun
  · exact (h.release id).settle nofun
  · exact h.settle nofun

theorem Steady.goOn (h : Steady (· ≠ i) excused s) (job : Job) (id : OriginId) (fate : Fate) :
    Steady (fun _ => True) excused (s.goOn i job id fate) := by
  unfold Contention.goOn
  split
  · exact h.write job id _ fate
  · exact h.settle nofun

theorem Steady.refused (h : Steady others excused s) (job : Job) (id : OriginId) :
    Steady others excused (s.refused job id) := by
  cases job with
  | send line => exact h.dropTransient id
  | _ => exact h

theorem Steady.foundClosed (h : Steady others excused s) (job : Job) (id : OriginId) :
    Steady others excused (s.foundClosed job id) := by
  cases job with
  | lock => exact h.dropWaiter id
  | send line => exact (h.dropWaiter id).dropTransient id
  | _ => exact h

theorem Steady.forget (h : Steady others excused' s)
    (hex : s.cell.closed = false → ∀ x ∈ s.lock.waiters, excused' x → excused x) :
    Steady others excused s where
  wf := h.wf
  pumps := h.pumps
  queued hopen x hx := (h.queued hopen x hx).imp_left (hex hopen x hx)
  calm := h.calm

theorem Steady.turn (h : Steady (· ≠ i) (fun x => excused x ∨ (x = id ∧ job.queues = true)) s)
    (hpump : ∀ payload, job = .pump payload →
      s.lock.writeMode id = none ∨ s.lock.writeMode id = some .held) (fate : Fate) :
    Steady (fun _ => True) excused (s.turn i job id fate) := by
  unfold Contention.turn
  by_cases hclosed : s.cell.closed = true
  · rw [if_pos hclosed]
    have hforget : Steady (· ≠ i) excused s := h.forget fun hopen => by
      rw [hclosed] at hopen
      cases hopen
    exact (hforget.foundClosed job id).settle nofun
  rw [if_neg hclosed]
  obtain ⟨hgentle, hstill, hanswer⟩ := job.attempt_settles h.wf hpump
  rcases hr : job.attempt id s.lock with ⟨r, l⟩
  rw [hr] at hgentle hstill hanswer
  have hlock := h.withLock (hgentle.mono fun _ => .inr) hstill
  have hleft (hid : id ∉ l.waiters) : Steady (· ≠ i) excused (s.withLock l) :=
    hlock.forget fun _ x hx hex => hex.resolve_right fun ⟨heq, _⟩ => hid (heq ▸ hx)
  match r with
  | some true => exact (hleft (hlock.wf.holder_not_waiting id hanswer.2)).goOn job id fate
  | some false => exact ((hleft hanswer.2).refused job id).settle nofun
  | none =>
    refine hlock.setWorker _ ?_ ?_ ?_
    · rintro payload id' n ⟨⟩
      exact (hgentle.modes id).elim .inl fun heq => (hpump payload rfl).imp heq.trans heq.trans
    · rintro job' id' ⟨⟩
      exact ⟨Bool.eq_false_of_not_eq_true hclosed, fun hg => hanswer (hstill id hg)⟩
    · rintro - x hx (hex | ⟨rfl, hq⟩)
      · exact .inl hex
      · exact .inr ⟨job, false, rfl, hq⟩

theorem Steady.float_busy (h : Steady (fun _ => True) excused s)
    (hi : ∀ job id n, s.workers i ≠ .parked job id n) : Steady (· ≠ i) excused s :=
  h.float i (fun job id n hw => absurd hw (hi job id n)) fun _ => id

theorem Steady.start (h : Steady (fun _ => True) excused s) (hi : s.workers i = .idle)
    (hpump : ∀ payload, job = .pump payload →
      s.lock.writeMode id = none ∨ s.lock.writeMode id = some .held) (fate : Fate) :
    Steady (fun _ => True) excused (s.start i job id fate) := by
  have hfloat : Steady (· ≠ i) excused s := h.float_busy (by simp [hi])
  unfold Contention.start
  split_ifs
  · exact hfloat.goOn job id fate
  · exact (hfloat.forget fun _ _ _ => .inl).turn hpump fate

theorem Steady.registerSend (h : Steady others excused s) (hfresh : s.Fresh id) :
    Steady others excused (s.withLock (s.lock.register id "send" .onDemand)) where
  toSound := h.toSound.register hfresh "send" .onDemand
  calm j job id' hj hw := by
    obtain ⟨hopen, hnot⟩ := h.calm j job id' hj hw
    have hne : id' ≠ id := by
      rintro rfl
      exact hfresh.2 j (by rw [show s.workers j = _ from hw]; rfl)
    exact ⟨hopen, fun hg => hnot (EndpointLock.Still.register "send" hfresh.1 id' hne hg)⟩

theorem Steady.startSend (h : Steady (fun _ => True) excused s) (hi : s.workers i = .idle)
    (hfresh : s.Fresh id) (line : Chunk) (steal : Bool) (fate : Fate) :
    Steady (fun _ => True) excused (s.startSend i line id steal fate) := by
  have hfloat : Steady (· ≠ i) excused s := h.float_busy (by simp [hi])
  have hregister := hfloat.registerSend hfresh
  unfold Contention.startSend
  split_ifs
  · exact (hregister.toSound.withLock (.apply hregister.wf (.steal id) rfl)).wake.goOn _ id fate
  · refine Steady.turn (hregister.forget fun _ _ _ => .inl) ?_ fate
    nofun

theorem Steady.poll (h : Steady (fun _ => True) excused s) (i : ℕ) (fate : Fate) :
    Steady (fun _ => True) excused (s.poll i fate) := by
  unfold Contention.poll
  split
  case _ job id hw =>
    refine Steady.turn (h.float i ?_ fun _ => .inl) ?_ fate
    · rintro job' id' n hw' hq
      rw [hw] at hw'
      cases hw'
      exact .inr ⟨rfl, hq⟩
    · rintro payload rfl
      exact h.pumps i payload id true hw
  case _ job id chunk hw => exact (h.float_busy (by simp [hw])).write job id chunk fate
  case _ id hw => exact ((h.float_busy (by simp [hw])).detach id).settle nofun
  case _ => exact h
  case _ => exact h

theorem not_mem_dropWaiter (s : Contention) (id : OriginId) :
    id ∉ (s.dropWaiter id).lock.waiters := by
  have hlock : (s.dropWaiter id).lock = s.lock.dequeue id := by
    unfold dropWaiter wakeIfFree
    split_ifs <;> rfl
  rw [hlock]
  simp [EndpointLock.dequeue]

theorem Steady.cancel (h : Steady (fun _ => True) excused s) (i : ℕ)
    (hend : s.EndsWithNode (.cancel i) ∨ ∀ x, excused x) :
    Steady (fun _ => True) excused (s.cancel i) := by
  have hfloat (id : OriginId) (job : Job) (n : Bool) (hw : s.workers i = .parked job id n) :
      Steady (· ≠ i) (fun x => excused x ∨ x = id) s :=
    h.float i (fun job' id' n' hw' _ => .inr (by cases hw.symm.trans hw'; rfl)) fun _ => .inl
  have hdropped (id : OriginId) (job : Job) (n : Bool) (hw : s.workers i = .parked job id n) :
      Steady (· ≠ i) excused (s.dropWaiter id) :=
    ((hfloat id job n hw).dropWaiter id).forget fun _ x hx hex =>
      hex.resolve_right fun heq => not_mem_dropWaiter s id (heq ▸ hx)
  have hnode (id : OriginId) (job : Job) (n : Bool) (hw : s.workers i = .parked job id n)
      (hgone : (s.cell.closed = true ∨ s.lock.writeMode id = none) ∨ ∀ x, excused x) :
      Steady (· ≠ i) excused s := by
    refine (hfloat id job n hw).forget fun hopen x hx hex => hex.elim (fun hex => hex) fun heq => ?_
    subst heq
    rcases hgone with (hclosed | hnone) | hall
    · rw [hclosed] at hopen
      cases hopen
    · exact absurd hx (Job.not_waiting_of_not_writer h.wf (by simp [hnone]))
    · exact hall x
  unfold Contention.cancel
  unfold EndsWithNode at hend
  cases hw : s.workers i with
  | idle => exact (h.float_busy (by simp [hw])).settle nofun
  | sent id => exact ((h.float_busy (by simp [hw])).dropTransient id).settle nofun
  | sending job id chunk =>
    cases job with
    | send line => exact ((h.float_busy (by simp [hw])).dropTransient id).settle nofun
    | _ => exact (h.float_busy (by simp [hw])).settle nofun
  | parked job id n =>
    simp only [hw] at hend
    cases job with
    | lock => exact (hdropped id _ n hw).settle nofun
    | send line => exact ((hdropped id _ n hw).dropTransient id).settle nofun
    | pump payload =>
      -- A pump is never in the queue, so nobody waits behind it.
      refine Steady.settle (h.float i (fun job' id' n' hw' hq => ?_) fun _ hex => hex) nofun
      cases hw.symm.trans hw'
      cases hq
    | leg => exact (hnode id _ n hw hend).settle nofun

theorem Steady.close (h : Steady others excused s) : Steady others excused s.close :=
  Sound.wake (s := { s with cell := { s.cell with closed := true } }) ⟨h.wf, h.pumps, nofun⟩

theorem Steady.step (h : Steady (fun _ => True) excused s) (a : ContentionStep)
    (ha : s.Enabled a) (hend : s.EndsWithNode a ∨ ∀ x, excused x) :
    Steady (fun _ => True) excused (s.step a) := by
  cases a with
  | start i job id fate => exact h.start ha.1 ha.2.2 fate
  | startSend i line id steal fate => exact h.startSend ha.1 ha.2 line steal fate
  | poll i fate => exact h.poll i fate
  | cancel i => exact h.cancel i hend
  | attach id label mode => exact (h.toSound.register ha label mode).wake
  | detach id => exact h.detach id
  | release id => exact h.release id
  | steal id => exact h.steal id
  | acquire id => exact h.withLock (.apply h.wf (.acquire id) rfl) (.acquire h.wf id)
  | reclaim id => exact h.withLock (.apply h.wf (.reclaimHeld id) rfl) (.reclaimHeld h.wf id)
  | renew id =>
    refine h.withLock (.apply h.wf (.renew id) rfl) (.congr (s.lock.apply_writeMode (.renew id)) ?_ ?_)
    all_goals
      unfold EndpointLock.renew
      split_ifs <;> rfl
  | recordPurge id bytes =>
    exact h.withLock (.apply h.wf (.recordPurge id bytes) rfl)
      (.congr (s.lock.recordPurge_writeMode id bytes) rfl rfl)
  | close => exact h.close
  | receive | hangUp => exact h.queue _

theorem initial_steady (cap : ℕ) : Steady (fun _ => True) excused (initial cap) where
  wf := EndpointLock.new_wellFormed
  pumps := nofun
  queued := nofun
  calm := nofun

theorem tidy_legal {as : List ContentionStep} (h : tidy.Legal s as) : machine.Legal s as := by
  induction as generalizing s with
  | nil => trivial
  | cons a as ih => exact ⟨h.1.1, ih h.2⟩

theorem no_stranded_waiter (cap : ℕ) (s : Contention) :
    (machine.Reachable (initial cap) s →
      (∀ i job id, s.workers i = .parked job id false →
        s.cell.closed = false ∧ (job.attempt id s.lock).1 ≠ some true) ∧
      ∀ id ∈ s.lock.waiters, (s.lock.writeMode id).isSome) ∧
    (tidy.Reachable (initial cap) s → s.cell.closed = false →
      ∀ id ∈ s.lock.waiters, ∃ i job n,
        s.workers i = .parked job id n ∧ job.queues = true) := by
  constructor
  · intro hs
    have hsteady : Steady (fun _ => True) (fun _ => True) s :=
      hs.invariant (initial_steady cap) fun s a h ha => h.step a ha (.inr fun _ => trivial)
    refine ⟨fun i job id hw => ?_, fun id hid => ?_⟩
    · obtain ⟨hopen, hnot⟩ := hsteady.calm i job id trivial hw
      refine ⟨hopen, fun hgrant => hnot ?_⟩
      have hsettles := job.attempt_settles hsteady.wf (fun payload hpump =>
        hsteady.pumps i payload id false (hpump ▸ hw))
      have hanswer := hsettles.2.2
      rw [hgrant] at hanswer
      exact hanswer.1
    · obtain ⟨mode, hmode, -⟩ := (s.lock.writer_iff id).mp (hsteady.wf.waiters_writer id hid)
      rw [hmode]
      rfl
  · intro hs hopen id hid
    have hsteady : Steady (fun _ => True) (fun _ => False) s :=
      hs.invariant (initial_steady cap) fun s a h ha => h.step a ha.1 (.inl ha.2)
    obtain hex | ⟨i, job, n, -, hw, hq⟩ := hsteady.queued hopen id hid
    · exact hex.elim
    · exact ⟨i, job, n, hw, hq⟩

def waitingLeg : List ContentionStep :=
  [.attach 1 "tty" .onDemand, .attach 2 "leg" .onDemand, .acquire 1,
    .start 0 (.leg [0x41]) 2 .enter]

theorem waitingLeg_legal : tidy.Legal (initial 1) waitingLeg :=
  ⟨⟨⟨by decide +kernel, fun _ => nofun⟩, trivial⟩, ⟨⟨by decide +kernel, fun _ => nofun⟩, trivial⟩,
    ⟨trivial, trivial⟩, ⟨⟨rfl, nofun, nofun⟩, trivial⟩, trivial⟩

theorem no_stranded_waiter_waitingLeg :
    let s := tidy.run (initial 1) waitingLeg
    s.workers 0 = .parked (.leg [0x41]) 2 false ∧ s.lock.waiters = [2] ∧
      ((Job.leg [0x41]).attempt 2 s.lock).1 ≠ some true ∧
      ∃ i job n, s.workers i = .parked job 2 n ∧ job.queues = true := by
  have hparked : (tidy.run (initial 1) waitingLeg).workers 0 = .parked (.leg [0x41]) 2 false := by
    decide +kernel
  have hwaiters : (tidy.run (initial 1) waitingLeg).lock.waiters = [2] := by decide +kernel
  obtain ⟨hany, htidy⟩ := no_stranded_waiter 1 (tidy.run (initial 1) waitingLeg)
  refine ⟨hparked, hwaiters, ?_, ?_⟩
  · exact ((hany ⟨waitingLeg, tidy_legal waitingLeg_legal, rfl⟩).1 0 _ 2 hparked).2
  · exact htidy ⟨waitingLeg, waitingLeg_legal, rfl⟩ (by decide +kernel) 2 (by simp [hwaiters])

theorem tornDownLeg_queued :
    ∃ s, tidy.Reachable (initial 1) s ∧ 2 ∈ s.lock.waiters ∧ ∀ i, s.workers i = .idle := by
  have hlegal : tidy.Legal (initial 1) (waitingLeg ++ [.close, .poll 0 .enter]) :=
    Runs.Machine.legal_append.mpr
      ⟨waitingLeg_legal, ⟨trivial, trivial⟩, ⟨trivial, trivial⟩, trivial⟩
  refine ⟨_, ⟨_, hlegal, rfl⟩, by decide +kernel, fun i => ?_⟩
  cases i with
  | zero => decide +kernel
  | succ i => rfl

end Contention
end SerialNexus
