import SerialNexus.LockInvariant

/-! # Leases

A `lock` verb with a lease spawns a timer (`spawn_lease`, `daemon/src/daemon.rs`) that releases the
lock when it fires.  Timers are never cancelled: a timer remembers the origin and the generation of
the grant or renewal it belongs to, and does nothing unless both are still current.  Timers fire in
any order, so their durations are left out. -/

namespace SerialNexus

open List

namespace EndpointLock

variable {l l' : EndpointLock}

def Op.changesHands (l : EndpointLock) : Op → Bool
  | .register id label mode => (l.register id label mode).holder ≠ l.holder
  | .unregister id => (l.unregister id).1
  | .acquire id => (l.acquire id).1 = .granted
  | .steal id =>
    match (l.steal id).1 with
    | .stolen _ => true
    | .alreadyHeld | .readOnly => false
  | .reclaimHeld id => (l.reclaimHeld id).1
  | .release id => (l.release id).1
  | .renew id => (l.renew id).1.isSome
  | .enqueue _ | .dequeue _ | .recordPurge _ _ => false

structure Effect (l l' : EndpointLock) (moves : Bool) : Prop where
  arbitration : l'.arbitration = l.arbitration
  kept : moves = false → l'.holder = l.holder ∧ l'.generation = l.generation
  moved : moves = true → l.arbitration = .exclusive →
    l'.generation = wrappingAdd l.generation 1 ∨ (l'.generation = l.generation ∧ l'.holder = none)
  generation : l'.generation = l.generation ∨ l'.generation = wrappingAdd l.generation 1
  freeForAll : l.arbitration = .freeForAll → l.holder = none → l'.holder = none

theorem Effect.idle (harb : l'.arbitration = l.arbitration) (hholder : l'.holder = l.holder)
    (hgen : l'.generation = l.generation) : Effect l l' false :=
  ⟨harb, fun _ => ⟨hholder, hgen⟩, nofun, .inl hgen, fun _ hfree => hholder.trans hfree⟩

theorem Effect.bumped (harb : l'.arbitration = l.arbitration)
    (hgen : l'.generation = wrappingAdd l.generation 1)
    (hlocks : l.arbitration = .freeForAll → l.holder ≠ none) : Effect l l' true :=
  ⟨harb, nofun, fun _ _ => .inl hgen, .inr hgen, fun hfree hnone => absurd hnone (hlocks hfree)⟩

theorem Effect.freed (harb : l'.arbitration = l.arbitration)
    (hgen : l'.generation = l.generation) (hholder : l'.holder = none) : Effect l l' true :=
  ⟨harb, nofun, fun _ _ => .inr ⟨hgen, hholder⟩, .inl hgen, fun _ _ => hholder⟩

theorem Effect.free (hfree : l.arbitration = .freeForAll) (moves : Bool) : Effect l l moves := by
  refine ⟨rfl, fun _ => ⟨rfl, rfl⟩, fun _ hex => ?_, .inl rfl, fun _ hnone => hnone⟩
  rw [hfree] at hex
  cases hex

theorem Effect.holder_eq_none (h : Effect l l' true) (hex : l.arbitration = .exclusive)
    (hgen : l'.generation = l.generation) : l'.holder = none := by
  rcases h.moved rfl hex with hbump | ⟨-, hnone⟩
  · exact absurd (hbump.symm.trans hgen) (wrappingAdd_ne_self Nat.one_pos (by decide) _)
  · exact hnone

theorem acquire_freeForAll (hfree : l.arbitration = .freeForAll) (id : OriginId) :
    (l.acquire id).2 = l ∧ (l.acquire id).1 ≠ .alreadyHeld := by
  unfold acquire
  cases l.origins[id]? with
  | none => exact ⟨rfl, nofun⟩
  | some o =>
    dsimp only
    split_ifs
    · exact ⟨rfl, nofun⟩
    · exact ⟨rfl, nofun⟩

theorem acquire_effect (l : EndpointLock) (id : OriginId) :
    Effect l (l.acquire id).2 (decide ((l.acquire id).1 = .granted)) := by
  cases harb : l.arbitration with
  | freeForAll =>
    rw [(acquire_freeForAll harb id).1]
    exact .free harb _
  | exclusive =>
    have hanswer := acquire_answer harb id
    cases hr : (l.acquire id).1 with
    | granted =>
      rw [hr] at hanswer
      rw [hanswer.2.2]
      exact .bumped rfl rfl fun hfree => absurd (harb.symm.trans hfree) (by decide)
    | alreadyHeld | denied | readOnly | unregistered =>
      rw [hr] at hanswer
      simp only [hanswer, reduceCtorEq, decide_false]
      exact .idle rfl rfl rfl

theorem steal_effect (l : EndpointLock) (id : OriginId) :
    Effect l (l.steal id).2 (Op.changesHands l (.steal id)) := by
  rw [Op.changesHands, steal]
  cases ho : l.origins[id]? with
  | none => exact .idle rfl rfl rfl
  | some o =>
    dsimp only
    by_cases hn : o.writeMode = .never
    · rw [if_pos hn]
      exact .idle rfl rfl rfl
    rw [if_neg hn]
    by_cases hf : l.arbitration = .freeForAll
    · rw [if_pos hf]
      exact .free hf _
    rw [if_neg hf]
    by_cases hh : l.holder = some id
    · rw [if_pos hh]
      exact .idle rfl rfl rfl
    · rw [if_neg hh]
      exact .bumped rfl rfl fun hfree => absurd hfree hf

theorem acquire_alreadyHeld (l : EndpointLock) (id : OriginId)
    (h : (l.acquire id).1 = .alreadyHeld) : l.holder = some id ∧ (l.acquire id).2 = l := by
  cases harb : l.arbitration with
  | exclusive =>
    have hanswer := acquire_answer harb id
    rw [h] at hanswer
    exact hanswer.2
  | freeForAll => exact absurd h (acquire_freeForAll harb id).2

theorem reclaimHeld_effect (l : EndpointLock) (id : OriginId) :
    Effect l (l.reclaimHeld id).2 (l.reclaimHeld id).1 := by
  unfold reclaimHeld
  cases ho : l.origins[id]? with
  | none => exact .idle rfl rfl rfl
  | some o =>
    dsimp only
    split_ifs with hm hf hh
    · exact .free hf _
    · exact .bumped rfl rfl fun hfree => absurd hfree hf
    · exact .idle rfl rfl rfl
    · exact .idle rfl rfl rfl

theorem enqueue_effect (l : EndpointLock) (id : OriginId) : Effect l (l.enqueue id) false := by
  unfold enqueue
  cases l.origins[id]? with
  | none => exact .idle rfl rfl rfl
  | some o =>
    dsimp only
    split_ifs <;> exact .idle rfl rfl rfl

theorem release_effect (l : EndpointLock) (id : OriginId) :
    Effect l (l.release id).2 (l.release id).1 := by
  unfold release
  split_ifs
  · exact .freed rfl rfl rfl
  · exact .idle rfl rfl rfl

theorem renew_effect (l : EndpointLock) (id : OriginId) :
    Effect l (l.renew id).2 (l.renew id).1.isSome := by
  unfold renew
  split_ifs with hholder
  · exact .bumped rfl rfl fun _ => by simp [hholder]
  · exact .idle rfl rfl rfl

theorem apply_effect (l : EndpointLock) (op : Op) : Effect l (l.apply op) (op.changesHands l) := by
  cases op with
  | register id label mode =>
    rw [apply, Op.changesHands]
    by_cases hgrant : mode = .held ∧ l.arbitration = .exclusive ∧ l.holder = none
    · rw [register, if_pos hgrant, hgrant.2.2]
      exact .bumped rfl rfl fun hfree => absurd (hgrant.2.1.symm.trans hfree) (by decide)
    · rw [register, if_neg hgrant]
      simp only [ne_eq, not_true_eq_false, decide_false]
      exact .idle rfl rfl rfl
  | unregister id =>
    rw [apply, Op.changesHands, unregister]
    split_ifs
    · exact .freed rfl rfl rfl
    · exact .idle rfl rfl rfl
  | acquire id => exact acquire_effect l id
  | enqueue id => exact enqueue_effect l id
  | dequeue | recordPurge => exact .idle rfl rfl rfl
  | steal id => exact steal_effect l id
  | reclaimHeld id => exact reclaimHeld_effect l id
  | release id => exact release_effect l id
  | renew id => exact renew_effect l id

end EndpointLock
structure Lease where
  id : OriginId
  generation : ℕ
  fired : Bool := false
deriving DecidableEq

structure LeasedLock where
  lock : EndpointLock
  closed : Bool
  leases : List Lease

/-- Who moves. -/
inductive LeaseEvent where
  | lock (id : OriginId) (steal wait : Bool) (leaseMs : Option ℕ) (purged : ℕ)
  | unlock (id : OriginId)
  | fire (timer : ℕ)
  | use (op : EndpointLock.Op)
  | close

namespace LeasedLock

variable (s : LeasedLock)

def spawnLease (id : OriginId) (generation : ℕ) : LeasedLock :=
  { s with leases := s.leases ++ [{ id, generation }] }

def purgeOnAcquire (id : OriginId) (purged : ℕ) : LeasedLock :=
  if s.lock.arbitration = .exclusive ∧ purged > 0 then
    { s with lock := s.lock.recordPurge id purged }
  else s

def afterGrant (id : OriginId) (leaseMs : Option ℕ) : LeasedLock :=
  if leaseMs.isSome then s.spawnLease id s.lock.generation else s

def renewLease (id : OriginId) (leaseMs : Option ℕ) : LeasedLock :=
  if leaseMs.isSome then
    match s.lock.renew id with
    | (some generation, lock) => ({ s with lock }).spawnLease id generation
    | (none, lock) => { s with lock }
  else s

def grantBySteal (id : OriginId) (leaseMs : Option ℕ) (purged : ℕ) : LeasedLock :=
  match s.lock.steal id with
  | (.readOnly, lock) => { s with lock }
  | (.alreadyHeld, lock) => ({ s with lock }).renewLease id leaseMs
  | (.stolen _, lock) => (({ s with lock }).purgeOnAcquire id purged).afterGrant id leaseMs

def lockAttempt (id : OriginId) (wait : Bool) (leaseMs : Option ℕ) (purged : ℕ) : LeasedLock :=
  if wait ∧ s.closed then { s with lock := s.lock.dequeue id }
  else
    match s.lock.acquire id with
    | (.granted, lock) => (({ s with lock }).purgeOnAcquire id purged).afterGrant id leaseMs
    | (.alreadyHeld, lock) => ({ s with lock }).renewLease id leaseMs
    | (.readOnly, lock) | (.unregistered, lock) => { s with lock }
    | (.denied _, lock) => { s with lock := if wait then lock.enqueue id else lock }

def matching (t : Lease) : Bool :=
  !t.fired && !s.closed && decide (s.lock.holder = some t.id ∧ s.lock.generation = t.generation)

def fire (i : ℕ) : LeasedLock :=
  match s.leases[i]? with
  | none => s
  | some t =>
    { s with
      lock := if s.matching t then (s.lock.release t.id).2 else s.lock
      leases := s.leases.set i { t with fired := true } }

def step : LeaseEvent → LeasedLock
  | .lock id steal wait leaseMs purged =>
    if steal then s.grantBySteal id leaseMs purged else s.lockAttempt id wait leaseMs purged
  | .unlock id => { s with lock := (s.lock.release id).2 }
  | .fire i => s.fire i
  | .use op => { s with lock := s.lock.apply op }
  | .close => { s with closed := true }

def changesHands : LeaseEvent → Bool
  | .lock id steal wait leaseMs _ =>
    if steal then
      match (s.lock.steal id).1 with
      | .stolen _ => true
      | .alreadyHeld => leaseMs.isSome
      | .readOnly => false
    else if wait ∧ s.closed then false
    else
      match (s.lock.acquire id).1 with
      | .granted => true
      | .alreadyHeld => leaseMs.isSome
      | .readOnly | .unregistered | .denied _ => false
  | .unlock id => (s.lock.release id).1
  | .fire i => (s.leases[i]?).any s.matching
  | .use op => op.changesHands s.lock
  | .close => false

def machine : Runs.Machine LeasedLock LeaseEvent := ⟨step, fun _ _ => True⟩

def start (arbitration : Arbitration) : LeasedLock := ⟨.new arbitration, false, []⟩

def bumps : LeasedLock → List LeaseEvent → ℕ
  | _, [] => 0
  | s, e :: es => (if (s.step e).lock.generation = s.lock.generation then 0 else 1) + bumps (s.step e) es

variable {s}

open EndpointLock (Effect)

theorem purgeOnAcquire_lock (id : OriginId) (purged : ℕ) :
    (s.purgeOnAcquire id purged).lock.arbitration = s.lock.arbitration ∧
      (s.purgeOnAcquire id purged).lock.holder = s.lock.holder ∧
      (s.purgeOnAcquire id purged).lock.generation = s.lock.generation := by
  unfold purgeOnAcquire
  split_ifs <;> exact ⟨rfl, rfl, rfl⟩

theorem afterGrant_lock (id : OriginId) (leaseMs : Option ℕ) :
    (s.afterGrant id leaseMs).lock = s.lock := by
  unfold afterGrant
  split_ifs <;> rfl

theorem Effect.granted {l : EndpointLock} {moves : Bool} (h : Effect l s.lock moves)
    (id : OriginId) (leaseMs : Option ℕ) (purged : ℕ) :
    Effect l ((s.purgeOnAcquire id purged).afterGrant id leaseMs).lock moves := by
  obtain ⟨harb, hholder, hgen⟩ := purgeOnAcquire_lock (s := s) id purged
  rw [afterGrant_lock]
  refine ⟨harb.trans h.arbitration, ?_, ?_, ?_, ?_⟩
  · rw [hholder, hgen]
    exact h.kept
  · rw [hholder, hgen]
    exact h.moved
  · rw [hgen]
    exact h.generation
  · rw [hholder]
    exact h.freeForAll

theorem renewLease_effect (id : OriginId) (leaseMs : Option ℕ) (hholder : s.lock.holder = some id) :
    Effect s.lock (s.renewLease id leaseMs).lock leaseMs.isSome := by
  unfold renewLease
  cases leaseMs with
  | none => exact .idle rfl rfl rfl
  | some ms =>
    simp only [Option.isSome_some, if_true, EndpointLock.renew, hholder]
    exact .bumped rfl rfl fun _ => by simp [hholder]

theorem step_effect (s : LeasedLock) (e : LeaseEvent) :
    Effect s.lock (s.step e).lock (s.changesHands e) := by
  cases e with
  | lock id steal wait leaseMs purged =>
    cases steal with
    | true =>
      have heffect := EndpointLock.steal_effect s.lock id
      have hanswer := EndpointLock.steal_answer s.lock id
      simp only [step, changesHands, grantBySteal, if_true, EndpointLock.Op.changesHands] at heffect ⊢
      rcases hr : s.lock.steal id with ⟨r, lock⟩
      rw [hr] at heffect hanswer
      cases r with
      | readOnly => exact heffect
      | alreadyHeld =>
        obtain ⟨hholder, rfl⟩ := hanswer
        exact renewLease_effect id leaseMs hholder
      | stolen previous => exact Effect.granted (s := { s with lock }) heffect id leaseMs purged
    | false =>
      have heffect := EndpointLock.acquire_effect s.lock id
      simp only [step, changesHands, lockAttempt, Bool.false_eq_true, if_false]
      by_cases hclosed : wait = true ∧ s.closed = true
      · rw [if_pos hclosed, if_pos hclosed]
        exact .idle rfl rfl rfl
      · rw [if_neg hclosed, if_neg hclosed]
        have hheld := EndpointLock.acquire_alreadyHeld s.lock id
        rcases hr : s.lock.acquire id with ⟨r, lock⟩
        rw [hr] at heffect hheld
        cases r with
        | granted => exact Effect.granted (s := { s with lock }) heffect id leaseMs purged
        | alreadyHeld =>
          obtain ⟨hholder, rfl⟩ := hheld rfl
          exact renewLease_effect id leaseMs hholder
        | readOnly | unregistered => exact heffect
        | denied held =>
          cases wait with
          | false => exact heffect
          | true =>
            have hqueue := EndpointLock.enqueue_effect lock id
            exact .idle (hqueue.arbitration.trans heffect.arbitration)
              ((hqueue.kept rfl).1.trans (heffect.kept rfl).1)
              ((hqueue.kept rfl).2.trans (heffect.kept rfl).2)
  | unlock id => exact EndpointLock.release_effect s.lock id
  | fire i =>
    simp only [step, changesHands, fire]
    cases ht : s.leases[i]? with
    | none => exact .idle rfl rfl rfl
    | some t =>
      dsimp only [Option.any_some]
      cases hm : s.matching t with
      | false => exact .idle rfl rfl rfl
      | true =>
        have hholder : s.lock.holder = some t.id := by
          simp only [matching, Bool.and_eq_true, decide_eq_true_eq] at hm
          exact hm.2.1
        rw [EndpointLock.release, if_pos hholder]
        exact .freed rfl rfl rfl
  | use op => exact EndpointLock.apply_effect s.lock op
  | close => exact .idle rfl rfl rfl

/-! ### Spawning -/

structure Spawns (s s' : LeasedLock) (moves : Bool) (t : Lease) : Prop where
  fresh : t.fired = false
  generation : t.generation = s'.lock.generation
  current : s.lock.arbitration = .exclusive → s'.lock.holder = some t.id ∧ moves = true

theorem append_singleton_ne {α : Type} (l : List α) (a : α) : l ≠ l ++ [a] := by
  intro h
  simpa using congrArg List.length h

variable {id : OriginId} {leaseMs : Option ℕ} {t : Lease} {i : ℕ}

theorem afterGrant_spawns {s' : LeasedLock} {purged : ℕ} (hleases : s'.leases = s.leases)
    (h : ((s'.purgeOnAcquire id purged).afterGrant id leaseMs).leases = s.leases ++ [t])
    (hholder : s.lock.arbitration = .exclusive → s'.lock.holder = some id) :
    Spawns s ((s'.purgeOnAcquire id purged).afterGrant id leaseMs) true t := by
  obtain ⟨-, hph, -⟩ := purgeOnAcquire_lock (s := s') id purged
  have hpl : (s'.purgeOnAcquire id purged).leases = s'.leases := by
    unfold purgeOnAcquire
    split_ifs <;> rfl
  unfold afterGrant at h ⊢
  cases leaseMs with
  | none =>
    simp only [Option.isSome_none, Bool.false_eq_true, if_false, hpl, hleases] at h
    exact absurd h (append_singleton_ne _ _)
  | some ms =>
    simp only [Option.isSome_some, if_true, spawnLease, hpl, hleases, append_cancel_left_eq,
      List.cons.injEq, and_true] at h ⊢
    subst h
    exact ⟨rfl, rfl, fun hex => ⟨hph.trans (hholder hex), rfl⟩⟩

theorem renewLease_spawns (hholder : s.lock.holder = some id)
    (h : (s.renewLease id leaseMs).leases = s.leases ++ [t]) :
    Spawns s (s.renewLease id leaseMs) leaseMs.isSome t := by
  unfold renewLease at h ⊢
  cases leaseMs with
  | none => exact absurd h (append_singleton_ne _ _)
  | some ms =>
    simp only [Option.isSome_some, if_true, EndpointLock.renew, hholder, spawnLease,
      append_cancel_left_eq, List.cons.injEq, and_true] at h ⊢
    subst h
    exact ⟨rfl, rfl, fun _ => ⟨rfl, rfl⟩⟩

theorem step_spawns {e : LeaseEvent} (h : (s.step e).leases = s.leases ++ [t]) :
    Spawns s (s.step e) (s.changesHands e) t := by
  cases e with
  | lock id steal wait leaseMs purged =>
    cases steal with
    | true =>
      have hanswer := EndpointLock.steal_answer s.lock id
      simp only [step, changesHands, grantBySteal, if_true] at h ⊢
      rcases hr : s.lock.steal id with ⟨r, lock⟩
      rw [hr] at h hanswer
      cases r with
      | readOnly => exact absurd h (append_singleton_ne _ _)
      | alreadyHeld =>
        obtain ⟨hholder, rfl⟩ := hanswer
        exact renewLease_spawns hholder h
      | stolen previous => exact afterGrant_spawns rfl h hanswer
    | false =>
      simp only [step, changesHands, lockAttempt, Bool.false_eq_true, if_false] at h ⊢
      by_cases hclosed : wait = true ∧ s.closed = true
      · rw [if_pos hclosed] at h
        exact absurd h (append_singleton_ne _ _)
      · rw [if_neg hclosed] at h ⊢
        rw [if_neg hclosed]
        have hheld := EndpointLock.acquire_alreadyHeld s.lock id
        have hanswer : s.lock.arbitration = .exclusive → _ := fun hex =>
          EndpointLock.acquire_answer hex id
        rcases hr : s.lock.acquire id with ⟨r, lock⟩
        rw [hr] at h hheld hanswer
        cases r with
        | granted =>
          refine afterGrant_spawns rfl h fun hex => ?_
          obtain ⟨-, -, rfl⟩ := hanswer hex
          rfl
        | alreadyHeld =>
          obtain ⟨hholder, rfl⟩ := hheld rfl
          exact renewLease_spawns hholder h
        | readOnly | unregistered | denied => exact absurd h (append_singleton_ne _ _)
  | unlock | use | close => exact absurd h (append_singleton_ne _ _)
  | fire i =>
    have hlength : (s.fire i).leases.length = s.leases.length := by
      unfold fire
      cases s.leases[i]? <;> simp
    rw [step] at h
    rw [h] at hlength
    simp at hlength

/-! ### Runs -/

theorem afterGrant_leases (s : LeasedLock) (id : OriginId) (leaseMs : Option ℕ) (purged : ℕ) :
    ∃ more, ((s.purgeOnAcquire id purged).afterGrant id leaseMs).leases = s.leases ++ more := by
  have hpurge : (s.purgeOnAcquire id purged).leases = s.leases := by
    unfold purgeOnAcquire
    split_ifs <;> rfl
  unfold afterGrant
  split_ifs
  · exact ⟨_, congrArg (· ++ _) hpurge⟩
  · exact ⟨[], by rw [hpurge, append_nil]⟩

theorem renewLease_leases (s : LeasedLock) (id : OriginId) (leaseMs : Option ℕ) :
    ∃ more, (s.renewLease id leaseMs).leases = s.leases ++ more := by
  unfold renewLease
  split_ifs
  · rcases s.lock.renew id with ⟨_ | generation, lock⟩
    · exact ⟨[], (append_nil _).symm⟩
    · exact ⟨_, rfl⟩
  · exact ⟨[], (append_nil _).symm⟩

theorem step_leases (s : LeasedLock) (e : LeaseEvent) :
    (∃ more, (s.step e).leases = s.leases ++ more) ∨
      ∃ j t, s.leases[j]? = some t ∧ (s.step e).leases = s.leases.set j { t with fired := true } := by
  have hsame : ∃ more, s.leases = s.leases ++ more := ⟨[], (append_nil _).symm⟩
  cases e with
  | lock id steal wait leaseMs purged =>
    refine .inl ?_
    cases steal with
    | true =>
      simp only [step, grantBySteal, if_true]
      rcases s.lock.steal id with ⟨_ | _ | _, lock⟩
      · exact afterGrant_leases { s with lock } id leaseMs purged
      · exact renewLease_leases { s with lock } id leaseMs
      · exact hsame
    | false =>
      simp only [step, lockAttempt, Bool.false_eq_true, if_false]
      by_cases hclosed : wait = true ∧ s.closed = true
      · rw [if_pos hclosed]
        exact hsame
      · rw [if_neg hclosed]
        rcases s.lock.acquire id with ⟨_ | _ | _ | _ | _, lock⟩
        · exact afterGrant_leases { s with lock } id leaseMs purged
        · exact renewLease_leases { s with lock } id leaseMs
        · exact hsame
        · exact hsame
        · exact hsame
  | unlock | use | close => exact .inl hsame
  | fire i =>
    rw [step, fire]
    cases ht : s.leases[i]? with
    | none => exact .inl hsame
    | some t => exact .inr ⟨i, t, ht, rfl⟩

theorem step_remembers (h : s.leases[i]? = some t) (e : LeaseEvent) :
    ∃ fired, (s.step e).leases[i]? = some { t with fired } := by
  rcases step_leases s e with ⟨more, hmore⟩ | ⟨j, u, hu, hset⟩
  · refine ⟨t.fired, ?_⟩
    rw [hmore, List.getElem?_append_left (List.getElem?_eq_some_iff.mp h).1, h]
  · by_cases hij : j = i
    · subst hij
      obtain rfl : u = t := Option.some.inj (hu.symm.trans h)
      refine ⟨true, ?_⟩
      rw [hset, List.getElem?_set_self (List.getElem?_eq_some_iff.mp h).1]
    · refine ⟨t.fired, ?_⟩
      rw [hset, List.getElem?_set_ne hij, h]

theorem run_remembers (h : s.leases[i]? = some t) (es : List LeaseEvent) :
    ∃ fired, (machine.run s es).leases[i]? = some { t with fired } := by
  induction es generalizing s t with
  | nil => exact ⟨t.fired, h⟩
  | cons e es ih =>
    obtain ⟨fired, hstep⟩ := step_remembers h e
    obtain ⟨fired', hrun⟩ := ih (s := s.step e) hstep
    exact ⟨fired', hrun⟩

theorem run_arbitration (s : LeasedLock) (es : List LeaseEvent) :
    (machine.run s es).lock.arbitration = s.lock.arbitration := by
  induction es generalizing s with
  | nil => rfl
  | cons e es ih => exact (ih (s.step e)).trans (step_effect s e).arbitration

theorem bumps_append (s : LeasedLock) (es es' : List LeaseEvent) :
    bumps s (es ++ es') = bumps s es + bumps (machine.run s es) es' := by
  induction es generalizing s with
  | nil => simp [bumps]
  | cons e es ih =>
    rw [cons_append, bumps, bumps, ih (s.step e), Nat.add_assoc]
    rfl

theorem run_generation (hs : s.lock.generation < u64Size) (es : List LeaseEvent) :
    (machine.run s es).lock.generation = wrappingAdd s.lock.generation (bumps s es) := by
  induction es generalizing s with
  | nil => exact (Nat.mod_eq_of_lt hs).symm
  | cons e es ih =>
    rw [Runs.Machine.run_cons, bumps]
    change (machine.run (s.step e) es).lock.generation = _
    rcases (step_effect s e).generation with hgen | hgen
    · rw [ih (hgen ▸ hs), if_pos hgen, Nat.zero_add, hgen]
    · have hne : (s.step e).lock.generation ≠ s.lock.generation :=
        hgen ▸ wrappingAdd_ne_self Nat.one_pos (by decide) _
      rw [ih (hgen ▸ wrappingAdd_lt _ _), if_neg hne, hgen, wrappingAdd_wrappingAdd]

theorem run_free (hex : s.lock.arbitration = .exclusive) (hfree : s.lock.holder = none)
    (es : List LeaseEvent) : 1 ≤ bumps s es ∨ (machine.run s es).lock.holder = none := by
  induction es generalizing s with
  | nil => exact .inr hfree
  | cons e es ih =>
    have heffect := step_effect s e
    rw [bumps]
    by_cases hgen : (s.step e).lock.generation = s.lock.generation
    · rw [if_pos hgen, Nat.zero_add]
      refine ih (heffect.arbitration.trans hex) ?_
      cases hmoves : s.changesHands e with
      | false => rw [(heffect.kept hmoves).1, hfree]
      | true => exact (hmoves ▸ heffect).holder_eq_none hex hgen
    · rw [if_neg hgen]
      exact .inl (Nat.le_add_right 1 _)

theorem run_since (hex : s.lock.arbitration = .exclusive) (es : List LeaseEvent) :
    (machine.Each (fun s e => s.changesHands e = false) s es →
      (machine.run s es).lock.holder = s.lock.holder ∧
        (machine.run s es).lock.generation = s.lock.generation) ∧
    (¬ machine.Each (fun s e => s.changesHands e = false) s es →
      1 ≤ bumps s es ∨ (machine.run s es).lock.holder = none) := by
  induction es generalizing s with
  | nil => exact ⟨fun _ => ⟨rfl, rfl⟩, fun h => absurd trivial h⟩
  | cons e es ih =>
    have heffect := step_effect s e
    have hex' := heffect.arbitration.trans hex
    obtain ⟨hkept, hmoved⟩ := ih hex'
    constructor
    · rintro ⟨he, hes⟩
      obtain ⟨hholder, hgen⟩ := heffect.kept he
      exact ⟨(hkept hes).1.trans hholder, (hkept hes).2.trans hgen⟩
    · intro hnot
      rw [bumps]
      by_cases hgen : (s.step e).lock.generation = s.lock.generation
      · rw [if_pos hgen, Nat.zero_add]
        cases hmoves : s.changesHands e with
        | false => exact hmoved fun hes => hnot ⟨hmoves, hes⟩
        | true => exact run_free hex' ((hmoves ▸ heffect).holder_eq_none hex hgen) es
      · rw [if_neg hgen]
        exact .inl (Nat.le_add_right 1 _)

theorem run_freeForAll (hfree : s.lock.arbitration = .freeForAll) (hnone : s.lock.holder = none)
    (es : List LeaseEvent) : (machine.run s es).lock.holder = none := by
  induction es generalizing s with
  | nil => exact hnone
  | cons e es ih =>
    have heffect := step_effect s e
    exact ih (heffect.arbitration.trans hfree) (heffect.freeForAll hfree hnone)

def StillCurrent (spawned : LeasedLock) (since : List LeaseEvent) (id : OriginId) : Prop :=
  spawned.lock.holder = some id ∧ machine.Each (fun s e => s.changesHands e = false) spawned since

theorem matches_iff {spawned : LeasedLock} (hgen : t.generation = spawned.lock.generation)
    (hword : spawned.lock.generation < u64Size)
    (hholder : spawned.lock.arbitration = .exclusive → spawned.lock.holder = some t.id)
    (hnone : spawned.lock.arbitration = .freeForAll → spawned.lock.holder = none)
    {since : List LeaseEvent} (hbumps : bumps spawned since < u64Size) :
    ((machine.run spawned since).lock.holder = some t.id ∧
        (machine.run spawned since).lock.generation = t.generation) ↔
      StillCurrent spawned since t.id := by
  cases harb : spawned.lock.arbitration with
  | freeForAll =>
    have hrun := run_freeForAll harb (hnone harb) since
    have hspawned := hnone harb
    simp [StillCurrent, hrun, hspawned]
  | exclusive =>
    obtain ⟨hkept, hmoved⟩ := run_since harb since
    constructor
    · rintro ⟨hnow, hsame⟩
      refine ⟨hholder harb, ?_⟩
      by_contra hnot
      rcases hmoved hnot with hbump | hfree
      · rw [run_generation hword, hgen] at hsame
        exact wrappingAdd_ne_self hbump hbumps _ hsame
      · rw [hfree] at hnow
        cases hnow
    · rintro ⟨hspawned, hsince⟩
      obtain ⟨h1, h2⟩ := hkept hsince
      exact ⟨h1.trans hspawned, h2.trans hgen.symm⟩

theorem lease_safety (arbitration : Arbitration) (before since : List LeaseEvent) (e : LeaseEvent)
    (t : Lease) :
    let origin := machine.run (start arbitration) before
    let spawned := origin.step e
    let now := machine.run spawned since
    let after := now.step (.fire origin.leases.length)
    spawned.leases = origin.leases ++ [t] →
    bumps (start arbitration) (before ++ e :: since) < u64Size →
    (arbitration = .exclusive → origin.changesHands e = true ∧ spawned.lock.holder = some t.id) ∧
    (after.lock ≠ now.lock → StillCurrent spawned since t.id ∧ now.lock.holder = some t.id ∧
      after.lock = (now.lock.release t.id).2) ∧
    (¬ StillCurrent spawned since t.id → after.lock = now.lock ∧ after.closed = now.closed) ∧
    (StillCurrent spawned since t.id → now.closed = false →
      now.leases[origin.leases.length]? = some t → now.lock.holder = some t.id ∧
        after.lock = (now.lock.release t.id).2) := by
  intro origin spawned now after hspawn hbumps
  obtain ⟨hfresh, hgen, hcurrent⟩ := step_spawns hspawn
  have harb : origin.lock.arbitration = arbitration := run_arbitration _ before
  have harb' : spawned.lock.arbitration = arbitration :=
    (step_effect origin e).arbitration.trans harb
  have hword : spawned.lock.generation < u64Size := by
    have hrun := run_generation (s := start arbitration) u64Size_pos (before ++ [e])
    rw [Runs.Machine.run_append] at hrun
    exact hrun ▸ wrappingAdd_lt _ _
  have hnone : spawned.lock.arbitration = .freeForAll → spawned.lock.holder = none := fun hfree => by
    have hrun := run_freeForAll (s := start arbitration) (harb'.symm.trans hfree) rfl (before ++ [e])
    rwa [Runs.Machine.run_append] at hrun
  have hsince : bumps spawned since < u64Size := by
    rw [bumps_append, bumps] at hbumps
    exact lt_of_le_of_lt ((Nat.le_add_left _ _).trans (Nat.le_add_left _ _)) hbumps
  have hmatch := matches_iff hgen hword (fun hex => (hcurrent (harb.trans (harb'.symm.trans hex))).1)
    hnone hsince
  have hlast : spawned.leases[origin.leases.length]? = some t := by
    rw [hspawn]
    simp
  obtain ⟨fired, hlease⟩ := run_remembers hlast since
  have hafter : after.lock = if now.matching { t with fired } then (now.lock.release t.id).2
      else now.lock := by
    change (now.fire _).lock = _
    rw [fire, hlease]
  have hmatching : now.matching { t with fired } = true → StillCurrent spawned since t.id ∧
      now.lock.holder = some t.id := by
    intro hm
    simp only [matching, Bool.and_eq_true, decide_eq_true_eq] at hm
    exact ⟨hmatch.mp hm.2, hm.2.1⟩
  refine ⟨fun hex => (hcurrent (harb.trans hex)).symm, fun hchanged => ?_, fun hnot => ?_,
    fun hstill hopen hunfired => ?_⟩
  · cases hm : now.matching { t with fired } with
    | false =>
      rw [hm, if_neg Bool.false_ne_true] at hafter
      exact absurd hafter hchanged
    | true =>
      rw [hm, if_pos rfl] at hafter
      exact ⟨(hmatching hm).1, (hmatching hm).2, hafter⟩
  · have hm : ¬ now.matching { t with fired } = true := fun hm => hnot (hmatching hm).1
    rw [if_neg hm] at hafter
    refine ⟨hafter, ?_⟩
    change (now.fire _).closed = _
    rw [fire, hlease]
  · obtain ⟨hholder, hsame⟩ := hmatch.mpr hstill
    rw [hlease, Option.some.injEq] at hunfired
    have hm : now.matching { t with fired } = true := by
      rw [hunfired]
      simp only [matching, Bool.and_eq_true, decide_eq_true_eq]
      exact ⟨⟨by rw [hfresh]; rfl, by rw [hopen]; rfl⟩, hholder, hsame⟩
    rw [hm, if_pos rfl] at hafter
    exact ⟨hholder, hafter⟩

theorem lease_safety_renewed :
    let spawned := (machine.run (start .exclusive) [.use (.register 1 "tty" .onDemand)]).step
      (.lock 1 false false (some 100) 0)
    let now := machine.run spawned [.lock 1 false false (some 5000) 0]
    now.lock.holder = some 1 ∧ (now.step (.fire 0)).lock = now.lock := by
  refine ⟨by decide +kernel, ?_⟩
  have h := lease_safety .exclusive [.use (.register 1 "tty" .onDemand)]
    [.lock 1 false false (some 5000) 0] (.lock 1 false false (some 100) 0) ⟨1, 1, false⟩
    (by decide +kernel) (by decide +kernel)
  refine (h.2.2.1 ?_).1
  rintro ⟨-, hsince, -⟩
  exact absurd hsince (by decide +kernel)

end LeasedLock
end SerialNexus
