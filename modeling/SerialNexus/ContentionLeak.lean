import SerialNexus.ContentionWait

/-! # What leaks after the lock is lost

A worker checks the gate and then writes; if the channel is full the write is suspended, and the
lock may be lost meanwhile. -/

namespace SerialNexus

open List

def Worker.suspended (id : OriginId) : Worker → List Chunk
  | .sending _ id' chunk => if id' = id then [chunk] else []
  | _ => []

@[simp] theorem Worker.suspended_notify (id : OriginId) (w : Worker) :
    w.notify.suspended id = w.suspended id := by
  cases w <;> rfl

namespace Contention

def mover (s : Contention) : ContentionStep → Option (ℕ × OriginId)
  | .start i _ id _ | .startSend i _ id _ _ => some (i, id)
  | .poll i _ => (s.workers i).origin.map (i, ·)
  | _ => none

def puts (i : ℕ) (id : OriginId) (s : Contention) (a : ContentionStep) : List Chunk :=
  if s.mover a = some (i, id) then (s.step a).queue.queue.drop s.queue.queue.length else []

def putsAlong (i : ℕ) (id : OriginId) : Contention → List ContentionStep → List Chunk
  | _, [] => []
  | s, a :: as => s.puts i id a ++ putsAlong i id (s.step a) as

def PassesGate (i : ℕ) (id : OriginId) (s : Contention) (a : ContentionStep) : Prop :=
  ∃ (g : Contention) (job : Job) (fate : Fate), g.queue = s.queue ∧ g.lock.mayWrite id = true ∧
    s.step a = g.goOn i job id fate

structure Inert (s s' : Contention) : Prop where
  queue : s'.queue = s.queue
  suspended : ∀ j x, (s'.workers j).suspended x = (s.workers j).suspended x

variable {s s' g : Contention}

theorem Inert.refl (s : Contention) : Inert s s := ⟨rfl, fun _ _ => rfl⟩

theorem Inert.trans (h : Inert s g) (h' : Inert g s') : Inert s s' :=
  ⟨h'.queue.trans h.queue, fun j x => (h'.suspended j x).trans (h.suspended j x)⟩

theorem Inert.withLock (s : Contention) (l : EndpointLock) : Inert s (s.withLock l) :=
  ⟨rfl, fun _ _ => rfl⟩

theorem Inert.wake (s : Contention) : Inert s s.wake :=
  ⟨rfl, fun j x => (s.workers j).suspended_notify x⟩

theorem Inert.wakeIfFree (s : Contention) : Inert s s.wakeIfFree := by
  unfold Contention.wakeIfFree
  split_ifs
  · exact .wake s
  · exact .refl s

theorem Inert.release (s : Contention) (id : OriginId) : Inert s (s.release id) := by
  unfold Contention.release
  split
  · exact (Inert.withLock s _).trans (.wake _)
  · exact .withLock s _

theorem Inert.detach (s : Contention) (id : OriginId) : Inert s (s.detach id) :=
  (Inert.withLock s _).trans (.wake _)

theorem Inert.dropWaiter (s : Contention) (id : OriginId) : Inert s (s.dropWaiter id) :=
  (Inert.withLock s _).trans (.wakeIfFree _)

theorem Inert.dropTransient (s : Contention) (id : OriginId) : Inert s (s.dropTransient id) :=
  (Inert.withLock s _).trans (.wakeIfFree _)

theorem Inert.steal (s : Contention) (id : OriginId) : Inert s (s.steal id) := by
  unfold Contention.steal
  split
  · exact (Inert.withLock s _).trans (.wake _)
  · exact .withLock s _
  · exact .withLock s _

theorem Inert.refused (s : Contention) (job : Job) (id : OriginId) :
    Inert s (s.refused job id) := by
  cases job with
  | send line => exact .dropTransient s id
  | _ => exact .refl s

theorem Inert.foundClosed (s : Contention) (job : Job) (id : OriginId) :
    Inert s (s.foundClosed job id) := by
  cases job with
  | lock => exact .dropWaiter s id
  | send line => exact (Inert.dropWaiter s id).trans (.dropTransient _ id)
  | _ => exact .refl s

structure Writes (i : ℕ) (id : OriginId) (chunks : List Chunk) (s s' : Contention) : Prop where
  others : ∀ j ≠ i, ∀ x, (s'.workers j).suspended x = (s.workers j).suspended x
  foreign : ∀ x ≠ id, (s'.workers i).suspended x = []
  total : s'.queue.queue.drop s.queue.queue.length ++ (s'.workers i).suspended id = [] ∨
    (s'.queue.queue.drop s.queue.queue.length ++ (s'.workers i).suspended id = chunks ∧
      s'.lock = s.lock)

variable {i : ℕ} {id : OriginId} {chunks : List Chunk} {job : Job}

theorem Inert.settle (h : Inert s g) (i : ℕ) (id : OriginId) (chunks : List Chunk) {w : Worker}
    (hw : ∀ x, w.suspended x = []) : Writes i id chunks s (g.setWorker i w) where
  others j hj x := by
    rw [setWorker_of_ne g hj]
    exact h.suspended j x
  foreign x _ := by simp [setWorker, hw]
  total := .inl (by simp [setWorker, hw, h.queue])

theorem write_writes (s : Contention) (i : ℕ) (job : Job) (id : OriginId) (chunk : Chunk)
    (fate : Fate) : Writes i id [chunk] s (s.write i job id chunk fate) := by
  have hsuspend : Writes i id [chunk] s (s.setWorker i (.sending job id chunk)) := by
    refine ⟨fun j hj x => by rw [setWorker_of_ne s hj], fun x hx => ?_, .inr ?_⟩
    · simp [setWorker, Worker.suspended, hx.symm]
    · simp [setWorker, Worker.suspended, lock]
  have hput (queue : Channel Chunk) (hqueue : s.queue.trySend chunk = (.ok, queue)) (w : Worker)
      (hw : ∀ x, w.suspended x = []) :
      Writes i id [chunk] s (({ s with queue } : Contention).setWorker i w) := by
    refine ⟨fun j hj x => by rw [setWorker_of_ne _ hj], fun x _ => ?_, .inr ?_⟩
    · simp [setWorker, hw]
    · have hcases := s.queue.trySend_cases chunk
      rw [hqueue] at hcases
      simp only [reduceCtorEq, Prod.mk.injEq, false_and, and_false, or_false] at hcases
      simp [setWorker, hw, hcases.2.2.2, lock]
  unfold Contention.write
  split
  · split
    · next hqueue => exact hput _ hqueue _ fun _ => rfl
    · next hqueue _ => exact hput _ hqueue _ fun _ => rfl
    · exact hsuspend
    · exact (Inert.refl s).settle i id _ fun _ => rfl
    · exact (Inert.release s id).settle i id _ fun _ => rfl
    · exact (Inert.refl s).settle i id _ fun _ => rfl
  · exact (Inert.release s id).settle i id _ fun _ => rfl
  · exact hsuspend

theorem goOn_writes (s : Contention) (i : ℕ) (job : Job) (id : OriginId) (fate : Fate) :
    ∃ chunks, Writes i id chunks s (s.goOn i job id fate) := by
  unfold Contention.goOn
  split
  · exact ⟨_, write_writes s i job id _ fate⟩
  · exact ⟨[], (Inert.refl s).settle i id [] fun _ => rfl⟩

/-! ### The gate -/

def Gated (i : ℕ) (id : OriginId) (s s' : Contention) : Prop :=
  Writes i id [] s s' ∨
    ∃ g job fate, Inert s g ∧ g.lock.mayWrite id = true ∧ s' = g.goOn i job id fate

theorem Gated.of_inert (hg : Inert s g) (h : Gated i id g s') : Gated i id s s' := by
  rcases h with h | ⟨g', job, fate, hg', hmay, rfl⟩
  · refine .inl ⟨fun j hj x => (h.others j hj x).trans (hg.suspended j x), h.foreign, ?_⟩
    have htotal := h.total
    rw [hg.queue] at htotal
    exact .inl (htotal.elim (fun h => h) And.left)
  · exact .inr ⟨g', job, fate, hg.trans hg', hmay, rfl⟩

theorem turn_gated (hs : Steady (· ≠ i) (fun _ => True) s) (hpump : ∀ payload, job = .pump payload →
      s.lock.writeMode id = none ∨ s.lock.writeMode id = some .held) (fate : Fate) :
    Gated i id s (s.turn i job id fate) := by
  unfold Contention.turn
  split_ifs
  · exact .inl ((Inert.foundClosed s job id).settle i id [] fun _ => rfl)
  · obtain ⟨hgentle, -, hanswer⟩ := job.attempt_settles hs.wf hpump
    rcases hr : job.attempt id s.lock with ⟨r, l⟩
    rw [hr] at hgentle hanswer
    match r with
    | some true =>
      refine .inr ⟨s.withLock l, job, fate, .withLock s l, ?_, rfl⟩
      exact (hgentle.wf.mayWrite_iff id).mpr hanswer.2
    | some false =>
      exact .inl (((Inert.withLock s l).trans (.refused _ job id)).settle i id [] fun _ => rfl)
    | none => exact .inl ((Inert.withLock s l).settle i id [] fun _ => rfl)

theorem start_gated (hs : Steady (fun _ => True) (fun _ => True) s) (hi : s.workers i = .idle)
    (hpump : ∀ payload, job = .pump payload →
      s.lock.writeMode id = none ∨ s.lock.writeMode id = some .held) (fate : Fate) :
    Gated i id s (s.start i job id fate) := by
  unfold Contention.start
  split_ifs with hmay
  · exact .inr ⟨s, job, fate, .refl s, hmay.2, rfl⟩
  · exact turn_gated (hs.float_busy (by simp [hi])) hpump fate

theorem startSend_gated (hs : Steady (fun _ => True) (fun _ => True) s) (hi : s.workers i = .idle)
    (hfresh : s.Fresh id) (line : Chunk) (steal : Bool) (fate : Fate) :
    Gated i id s (s.startSend i line id steal fate) := by
  have hregister := (hs.float_busy (i := i) (by simp [hi])).registerSend hfresh
  unfold Contention.startSend
  split_ifs
  · refine .inr ⟨_, .send line, fate, ?_, ?_, rfl⟩
    · exact (Inert.withLock s _).trans ((Inert.withLock _ _).trans (.wake _))
    · have hwriter : (s.lock.register id "send" .onDemand).Writer id := by
        rw [EndpointLock.writer_iff, EndpointLock.register_writeMode, Function.update_self]
        exact ⟨.onDemand, rfl, nofun⟩
      exact ((EndpointLock.steal_wellFormed hregister.wf id).mayWrite_iff id).mpr
        (EndpointLock.steal_holder hregister.wf.exclusive hwriter)
  · refine Gated.of_inert (.withLock s _) (turn_gated hregister ?_ fate)
    nofun

theorem poll_gated (hs : Steady (fun _ => True) (fun _ => True) s) (i : ℕ) (fate : Fate)
    (hid : (s.workers i).origin = some id) :
    Gated i id s (s.poll i fate) ∨
      ∃ job chunk, s.workers i = .sending job id chunk ∧
        s.poll i fate = s.write i job id chunk fate := by
  unfold Contention.poll
  cases hw : s.workers i with
  | idle => simp [hw, Worker.origin] at hid
  | sent id' =>
    exact .inl (.inl (((Inert.detach s id').settle i id [] fun _ => rfl)))
  | sending job id' chunk =>
    rw [hw] at hid
    cases hid
    exact .inr ⟨job, chunk, rfl, rfl⟩
  | parked job id' n =>
    rw [hw] at hid
    cases hid
    cases n with
    | false =>
      refine .inl (.inl ⟨fun _ _ _ => rfl, fun x _ => ?_, .inl ?_⟩)
      · rw [hw]
        rfl
      · simp [hw, Worker.suspended]
    | true =>
      refine .inl (turn_gated (hs.float i (fun _ _ _ _ _ => trivial) fun _ _ => trivial) ?_ fate)
      rintro payload rfl
      exact hs.pumps i payload id true hw

structure Lessens (s s' : Contention) : Prop where
  queue : s'.queue.queue.length ≤ s.queue.queue.length
  suspended : ∀ j x, (s'.workers j).suspended x <+: (s.workers j).suspended x

theorem Inert.lessens (h : Inert s s') : Lessens s s' where
  queue := by rw [h.queue]
  suspended j x := by rw [h.suspended j x]

theorem Inert.ends (h : Inert s g) (i : ℕ) : Lessens s (g.setWorker i .idle) where
  queue := h.lessens.queue
  suspended j x := by
    by_cases hj : j = i
    · subst hj
      rw [setWorker_self]
      exact nil_prefix
    · rw [setWorker_of_ne g hj]
      exact h.lessens.suspended j x

variable {a : ContentionStep}

theorem step_of_no_mover (ha : s.mover a = none) : Lessens s (s.step a) := by
  cases a with
  | start | startSend => cases ha
  | poll i fate =>
    have hidle : s.workers i = .idle := by
      cases hw : s.workers i with
      | idle => rfl
      | _ => simp [mover, hw, Worker.origin] at ha
    simp only [step, Contention.poll, hidle]
    exact (Inert.refl s).lessens
  | cancel i =>
    simp only [step, Contention.cancel]
    split
    · exact (Inert.dropWaiter s _).ends i
    · exact ((Inert.dropWaiter s _).trans (.dropTransient _ _)).ends i
    · exact (Inert.dropTransient s _).ends i
    · exact (Inert.dropTransient s _).ends i
    all_goals exact (Inert.refl s).ends i
  | attach id label mode => exact ((Inert.withLock s _).trans (.wake _)).lessens
  | detach id => exact (Inert.detach s id).lessens
  | release id => exact (Inert.release s id).lessens
  | steal id => exact (Inert.steal s id).lessens
  | acquire | reclaim | renew | recordPurge => exact (Inert.withLock s _).lessens
  | close => exact Inert.lessens ⟨rfl, fun j x => (s.workers j).suspended_notify x⟩
  | receive =>
    refine ⟨?_, fun _ _ => prefix_refl _⟩
    show s.queue.recv.2.queue.length ≤ _
    rw [← s.queue.recv_queue, length_append]
    exact Nat.le_add_left _ _
  | hangUp => exact ⟨Nat.zero_le _, fun _ _ => prefix_refl _⟩

theorem step_of_mover (hs : Steady (fun _ => True) (fun _ => True) s) (ha : s.Enabled a)
    (hm : s.mover a = some (i, id)) :
    Gated i id s (s.step a) ∨
      ∃ job chunk fate, s.workers i = .sending job id chunk ∧
        s.step a = s.write i job id chunk fate := by
  cases a with
  | start i' job id' fate =>
    cases hm
    exact .inl (start_gated hs ha.1 ha.2.2 fate)
  | startSend i' line id' steal fate =>
    cases hm
    exact .inl (startSend_gated hs ha.1 ha.2 line steal fate)
  | poll i' fate =>
    obtain ⟨id', hid, heq⟩ := Option.map_eq_some_iff.mp hm
    cases heq
    rcases poll_gated hs i fate hid with h | ⟨job, chunk, hw, h⟩
    · exact .inl h
    · exact .inr ⟨job, chunk, fate, hw, h⟩
  | _ => cases hm

theorem step_frame (hs : Steady (fun _ => True) (fun _ => True) s) (ha : s.Enabled a)
    (hm : s.mover a = some (i, id)) :
    (∀ j ≠ i, ∀ x, ((s.step a).workers j).suspended x = (s.workers j).suspended x) ∧
      ∀ x ≠ id, ((s.step a).workers i).suspended x = [] := by
  rcases step_of_mover hs ha hm with (h | ⟨g, job, fate, hg, -, heq⟩) | ⟨job, chunk, fate, -, heq⟩
  · exact ⟨h.others, h.foreign⟩
  · obtain ⟨chunks, h⟩ := goOn_writes g i job id fate
    rw [heq]
    exact ⟨fun j hj x => (h.others j hj x).trans (hg.suspended j x), h.foreign⟩
  · have h := write_writes s i job id chunk fate
    rw [heq]
    exact ⟨h.others, h.foreign⟩

theorem mover_puts (hs : Steady (fun _ => True) (fun _ => True) s) (ha : s.Enabled a)
    (hm : s.mover a = some (i, id)) :
    (PassesGate i id s a ∧ (s.step a).lock.mayWrite id = true) ∨
      s.puts i id a ++ ((s.step a).workers i).suspended id <+: (s.workers i).suspended id := by
  rw [puts, if_pos hm]
  rcases step_of_mover hs ha hm with (h | ⟨g, job, fate, hg, hmay, heq⟩) | ⟨job, chunk, fate, hw, heq⟩
  · rw [h.total.elim (fun h => h) And.left]
    exact .inr nil_prefix
  · obtain ⟨chunks, h⟩ := goOn_writes g i job id fate
    have htotal := h.total
    rw [hg.queue, ← heq] at htotal
    rcases htotal with hnil | ⟨-, hlock⟩
    · rw [hnil]
      exact .inr nil_prefix
    · exact .inl ⟨⟨g, job, fate, hg.queue, hmay, heq⟩, hlock ▸ hmay⟩
  · have htotal := (write_writes s i job id chunk fate).total
    rw [← heq] at htotal
    right
    rcases htotal with hnil | ⟨hchunk, -⟩
    · rw [hnil]
      exact nil_prefix
    · rw [hchunk, hw, Worker.suspended, if_pos rfl]

theorem step_puts (hs : Steady (fun _ => True) (fun _ => True) s) (ha : s.Enabled a) (i : ℕ)
    (id : OriginId) :
    (PassesGate i id s a ∧ (s.step a).lock.mayWrite id = true) ∨
      s.puts i id a ++ ((s.step a).workers i).suspended id <+: (s.workers i).suspended id := by
  by_cases hm : s.mover a = some (i, id)
  · exact mover_puts hs ha hm
  rw [puts, if_neg hm, nil_append]
  right
  cases hmover : s.mover a with
  | none => exact (step_of_no_mover hmover).suspended i id
  | some m =>
    obtain ⟨i', id'⟩ := m
    obtain ⟨hothers, hforeign⟩ := step_frame hs ha hmover
    by_cases hi : i = i'
    · subst hi
      have hne : id ≠ id' := by
        rintro rfl
        exact hm hmover
      rw [hforeign id hne]
      exact nil_prefix
    · rw [hothers i hi id]

/-! ### Runs -/

theorem putsAlong_initial (hs : Steady (fun _ => True) (fun _ => True) s) {as : List ContentionStep}
    (has : machine.Legal s as) (i : ℕ) (id : OriginId)
    (hmay : ∀ bs, bs ≠ [] → bs <+: as → (machine.run s bs).lock.mayWrite id = false) :
    s.putsAlong i id as ++ ((machine.run s as).workers i).suspended id <+:
      (s.workers i).suspended id := by
  induction as generalizing s with
  | nil => exact prefix_refl _
  | cons a as ih =>
    have hs' := hs.step a has.1 (.inr fun _ => trivial)
    have hrest := ih hs' has.2 fun bs hne hbs =>
      hmay (a :: bs) nofun (cons_prefix_cons.mpr ⟨rfl, hbs⟩)
    rcases step_puts hs has.1 i id with ⟨-, hopen⟩ | hstep
    · have hclosed := hmay [a] nofun (cons_prefix_cons.mpr ⟨rfl, nil_prefix⟩)
      rw [show machine.run s [a] = s.step a from rfl, hopen] at hclosed
      cases hclosed
    · rw [putsAlong, append_assoc]
      exact ((prefix_append_right_inj _).mpr hrest).trans hstep

theorem exists_puts {chunk : Chunk} (hq : (s.step a).queue.queue = s.queue.queue ++ [chunk]) :
    ∃ i id, s.puts i id a = [chunk] := by
  cases hm : s.mover a with
  | some m =>
    refine ⟨m.1, m.2, ?_⟩
    rw [puts, if_pos hm, hq, drop_left]
  | none =>
    have hlength := (step_of_no_mover hm).queue
    rw [hq, length_append, length_singleton] at hlength
    omega

theorem bounded_leakage (cap : ℕ) (s : Contention) (hs : machine.Reachable (initial cap) s) :
    (∀ a chunk, (s.step a).queue.queue = s.queue.queue ++ [chunk] →
      ∃ i id, s.puts i id a = [chunk]) ∧
    (∀ i id as a, machine.Legal s (as ++ [a]) → s.workers i = .idle →
      (machine.run s as).puts i id a ≠ [] →
      (∃ bs, bs ≠ [] ∧ bs <+: as ∧ (machine.run s bs).lock.mayWrite id = true) ∨
        PassesGate i id (machine.run s as) a) ∧
    ∀ i id as, machine.Legal s as → machine.Always (fun t => t.lock.mayWrite id = false) s as →
      s.putsAlong i id as <+: (s.workers i).suspended id := by
  have hsteady : Steady (fun _ => True) (fun _ => True) s :=
    hs.invariant (initial_steady cap) fun s a h ha => h.step a ha (.inr fun _ => trivial)
  refine ⟨fun a chunk => exists_puts, fun i id as a has hidle hput => ?_, fun i id as has hmay => ?_⟩
  · by_contra hcon
    rw [not_or] at hcon
    obtain ⟨has, ha, -⟩ := Runs.Machine.legal_append.mp has
    have hend := putsAlong_initial hsteady has i id fun bs hne hbs =>
      Bool.eq_false_of_not_eq_true fun hmay => hcon.1 ⟨bs, hne, hbs, hmay⟩
    have hsteady' : Steady (fun _ => True) (fun _ => True) (machine.run s as) :=
      Runs.Machine.invariant (fun s a h ha => h.step a ha (.inr fun _ => trivial)) hsteady has
    rw [hidle] at hend
    rcases step_puts hsteady' ha i id with ⟨hgate, -⟩ | hstep
    · exact hcon.2 hgate
    · rw [(append_eq_nil_iff.mp (prefix_nil.mp hend)).2] at hstep
      exact hput (append_eq_nil_iff.mp (prefix_nil.mp hstep)).1
  · exact (prefix_append _ _).trans
      (putsAlong_initial hsteady has i id fun bs _ hbs => hmay.of_prefix hbs)

def stolenFloor : List ContentionStep :=
  [.attach 1 "tty" .onDemand, .attach 2 "leg" .onDemand, .start 0 (.leg [0x41]) 2 .enter,
    .start 0 (.leg [0x42]) 2 .enter, .steal 1]

theorem stolenFloor_legal : machine.Legal (initial 1) stolenFloor :=
  ⟨⟨by decide +kernel, fun _ => nofun⟩, ⟨by decide +kernel, fun _ => nofun⟩,
    ⟨rfl, nofun, nofun⟩, ⟨by decide +kernel, nofun, nofun⟩, trivial, trivial⟩

def afterSteal : List ContentionStep := [.receive, .poll 0 .enter, .start 0 (.leg [0x43]) 2 .enter]

theorem bounded_leakage_stolenFloor :
    let s := machine.run (initial 1) stolenFloor
    s.putsAlong 0 2 afterSteal = [[0x42]] ∧
      s.putsAlong 0 2 afterSteal <+: (s.workers 0).suspended 2 ∧
      PassesGate 0 2 (machine.run (initial 1) (stolenFloor.take 2))
        (.start 0 (.leg [0x41]) 2 .enter) := by
  have hfirst : machine.Legal (initial 1) (stolenFloor.take 2) :=
    ⟨stolenFloor_legal.1, stolenFloor_legal.2.1, trivial⟩
  obtain ⟨-, -, houtage⟩ := bounded_leakage 1 _ ⟨stolenFloor, stolenFloor_legal, rfl⟩
  obtain ⟨-, hgate, -⟩ := bounded_leakage 1 _ ⟨stolenFloor.take 2, hfirst, rfl⟩
  refine ⟨by decide +kernel, houtage 0 2 afterSteal ?_ (by decide +kernel), ?_⟩
  · exact ⟨trivial, trivial, ⟨by decide +kernel, nofun, nofun⟩, trivial⟩
  · refine (hgate 0 2 [] _ ⟨stolenFloor_legal.2.2.1, trivial⟩ rfl (by decide +kernel)).resolve_left ?_
    rintro ⟨bs, hne, hbs, -⟩
    exact hne (prefix_nil.mp hbs)

end Contention
end SerialNexus
