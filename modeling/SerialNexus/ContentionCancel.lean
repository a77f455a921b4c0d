import SerialNexus.ContentionWait

/-! # What a cancelled wait costs the others

`WaiterGuard` takes the id of its wait out of the queue when the wait is dropped, also if another
task waits for the same origin.  That task is still parked; its next attempt puts it at the end. -/

namespace SerialNexus

open List

def Job.guarded : Job → Bool
  | .lock | .send _ => true
  | .pump _ | .leg _ => false

def Worker.waitsFor (id : OriginId) : Worker → Bool
  | .parked _ id' _ => id' = id
  | _ => false

theorem Worker.waitsFor_notify (id : OriginId) (w : Worker) :
    w.notify.waitsFor id = w.waitsFor id := by
  cases w <;> rfl

namespace Contention

/-- Of two tasks that wait besides `i`, the one whose origin was queued first is still first. -/
def KeepsPlaces (i : ℕ) (s s' : Contention) : Prop :=
  ∀ j k x y, j ≠ i → k ≠ i → (s.workers j).waitsFor x = true → (s.workers k).waitsFor y = true →
    [x, y].Sublist s.lock.waiters → [x, y].Sublist s'.lock.waiters

def SharesPlace (i : ℕ) (id : OriginId) (s : Contention) : Prop :=
  id ∈ s.lock.waiters ∧ (∃ j ≠ i, (s.workers j).waitsFor id = true) ∧
    ∃ k ≠ i, ∃ y ≠ id, y ∈ s.lock.waiters ∧ (s.workers k).waitsFor y = true

variable {s : Contention} {i : ℕ} {job : Job} {id : OriginId} {notified : Bool}

theorem wakeIfFree_lock (s : Contention) : s.wakeIfFree.lock = s.lock := by
  unfold wakeIfFree
  split_ifs <;> rfl

theorem wakeIfFree_waitsFor (s : Contention) (j : ℕ) (x : OriginId) :
    (s.wakeIfFree.workers j).waitsFor x = (s.workers j).waitsFor x := by
  unfold wakeIfFree
  split_ifs
  · exact Worker.waitsFor_notify x _
  · rfl

theorem cancel_waiters (hw : s.workers i = .parked job id notified) :
    (s.cancel i).lock.waiters =
      if job.guarded then s.lock.waiters.filter (· ≠ id) else s.lock.waiters := by
  unfold cancel
  rw [hw]
  cases job with
  | lock =>
    change (s.dropWaiter id).lock.waiters = _
    rw [dropWaiter, wakeIfFree_lock]
    rfl
  | send line =>
    change ((s.dropWaiter id).dropTransient id).lock.waiters = _
    rw [dropTransient, wakeIfFree_lock]
    change ((s.dropWaiter id).lock.unregister id).2.waiters = _
    rw [EndpointLock.unregister_waiters, dropWaiter, wakeIfFree_lock]
    change (s.lock.waiters.filter (· ≠ id)).filter (· ≠ id) = _
    simp only [filter_filter, Bool.and_self]
    rfl
  | pump | leg => rfl

theorem cancel_waitsFor (hw : s.workers i = .parked job id notified) {j : ℕ} (hj : j ≠ i)
    (x : OriginId) : ((s.cancel i).workers j).waitsFor x = (s.workers j).waitsFor x := by
  unfold cancel
  rw [hw]
  cases job with
  | lock =>
    dsimp only
    rw [setWorker_of_ne _ hj, dropWaiter, wakeIfFree_waitsFor]
    rfl
  | send line =>
    dsimp only
    rw [setWorker_of_ne _ hj, dropTransient, wakeIfFree_waitsFor]
    change ((s.dropWaiter id).workers j).waitsFor x = _
    rw [dropWaiter, wakeIfFree_waitsFor]
    rfl
  | pump | leg => exact congrArg (Worker.waitsFor x) (setWorker_of_ne _ hj _)

variable {l : List OriginId} {x y : OriginId}

/-! ### Places -/

theorem sublist_or_sublist (hx : x ∈ l) (hy : y ∈ l) (hne : x ≠ y) :
    [x, y].Sublist l ∨ [y, x].Sublist l := by
  induction l with
  | nil => cases hx
  | cons a l ih =>
    rcases mem_cons.mp hx with rfl | hx'
    · exact .inl ((singleton_sublist.mpr (mem_of_ne_of_mem hne.symm hy)).cons_cons x)
    · rcases mem_cons.mp hy with rfl | hy'
      · exact .inr ((singleton_sublist.mpr hx').cons_cons y)
      · exact (ih hx' hy').imp (fun h => h.cons a) fun h => h.cons a

theorem mem_of_pair_sublist (h : [x, y].Sublist l) : x ∈ l ∧ y ∈ l :=
  ⟨h.subset mem_cons_self, h.subset (mem_cons_of_mem _ mem_cons_self)⟩

theorem ne_of_pair_sublist (hl : l.Nodup) (h : [x, y].Sublist l) : x ≠ y := by
  have := hl.sublist h
  simpa using this

theorem not_granted_behind {l : EndpointLock} (hl : l.WellFormed) (h : [x, y].Sublist l.waiters)
    (hheld : l.writeMode y ≠ some .held) : (l.acquire y).1 ≠ .granted := by
  intro hgranted
  obtain ⟨mode, hmode, -, hholder | ⟨-, rfl | ⟨-, hfront⟩⟩⟩ :=
    (EndpointLock.acquire_iff_grantable hl.exclusive y).mp (.inl hgranted)
  · exact hl.holder_not_waiting y hholder (mem_of_pair_sublist h).2
  · exact hheld hmode
  · have hne := ne_of_pair_sublist hl.waiters_nodup h
    have hnodup := hl.waiters_nodup
    cases hw : l.waiters with
    | nil =>
      rw [hw] at h
      cases h
    | cons front rest =>
      rw [hw] at h hnodup
      obtain rfl : front = y := hfront front (by rw [hw]; rfl)
      cases h with
      | cons _ hrest => exact (nodup_cons.mp hnodup).1 (mem_of_pair_sublist hrest).2
      | cons_cons => exact hne rfl

def sharedWait : List ContentionStep :=
  [.attach 1 "tty" .onDemand, .attach 2 "web" .onDemand, .attach 3 "leg" .onDemand, .acquire 1,
    .start 0 .lock 2 .enter, .start 1 .lock 2 .enter, .start 2 (.leg [0x41]) 3 .enter]

theorem sharedWait_legal : machine.Legal (initial 1) sharedWait :=
  ⟨⟨by decide +kernel, fun _ => nofun⟩, ⟨by decide +kernel, fun _ => nofun⟩,
    ⟨by decide +kernel, fun _ => nofun⟩, trivial, ⟨rfl, nofun, nofun⟩, ⟨rfl, nofun, nofun⟩,
    ⟨rfl, nofun, nofun⟩, trivial⟩

end Contention
end SerialNexus
