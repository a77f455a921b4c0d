import SerialNexus.LogFiles

/-! # The numbers of rotated files

A rotation takes two critical sections of the writer: it reads the counter in the first, renames and
reopens, and stores the new counter in the second, where it also counts the request as performed.  A
request reads both numbers at once, at any point of this. -/

namespace SerialNexus

open List
open Runs.Machine (outputs outputs_append run_cons)

def LogWriter.stopped : LogWriter → Bool
  | .renameFailed _ | .reopenFailed _ | .leaving | .gone => true
  | _ => false

def LogWriter.reopens : LogWriter → Option ℕ
  | .reopening next _ _ => some next
  | _ => none

namespace LogWorld

def promised (w : LogWorld) : LogAct → List ℕ
  | .rotate =>
    match w.q.rotate with
    | (.ok n, _) => [n]
    | (.error _, _) => []
  | _ => []

def produced (w : LogWorld) : LogAct → List ℕ
  | .writer .done =>
    match w.writer with
    | .renaming next _ _ => [next]
    | _ => []
  | _ => []

variable (w : LogWorld)

def outstanding : ℕ := (w.writer.remainder ++ itemTokens w.q.items).count .rotate

def unperformed : ℕ := w.outstanding + w.writer.reopens.toList.length

def newest : Option ℕ := w.writer.reopens.or w.q.rotation

def upcoming : ℕ := w.newest.elim 0 fun n => saturatingAdd n 1

variable {w} {w' : LogWorld} {a : LogAct}

structure Idles (w w' : LogWorld) : Prop where
  rotated : w'.dir.rotated = w.dir.rotated
  rotation : w'.q.rotation = w.q.rotation
  pending : w'.q.rotatePending = w.q.rotatePending
  outstanding : w'.outstanding = w.outstanding
  writer : w'.writer = w.writer ∨ w.writer.stopped = false ∧ w.writer.reopens = none ∧
    w'.writer.reopens = none ∧
    ∀ next todo closing, w'.writer = .renaming next todo closing → next = w.q.nextRotation

inductive RotationStep (w : LogWorld) (a : LogAct) (w' : LogWorld) : Prop
  | idles : Idles w w' → w.promised a = [] → w.produced a = [] → RotationStep w a w'
  | requested : w'.dir = w.dir → w'.writer = w.writer → w'.q.rotation = w.q.rotation →
      w'.q.rotatePending = (w.q.rotatePending + 1) % u32Size →
      w'.outstanding = w.outstanding + 1 →
      w.promised a = [saturatingAdd w.q.nextRotation w.q.rotatePending] → w.produced a = [] →
      RotationStep w a w'
  | renamed (next : ℕ) (todo : List QueueItem) (closing : Bool) :
      w.writer = .renaming next todo closing → w'.writer = .reopening next todo closing →
      w'.dir = w.dir.rename (w.suffix next) → w'.q = w.q →
      w.promised a = [] → w.produced a = [next] → RotationStep w a w'
  | reopened (next : ℕ) (todo : List QueueItem) (closing : Bool) :
      w.writer = .reopening next todo closing → w'.writer = .batch todo closing →
      w'.dir.rotated = w.dir.rotated → w'.q.items = w.q.items → w'.q.rotation = some next →
      w'.q.rotatePending = w.q.rotatePending - 1 →
      w.promised a = [] → w.produced a = [] → RotationStep w a w'
  | stops : w'.writer.stopped = true → w'.dir.rotated = w.dir.rotated →
      w.promised a = [] → w.produced a = [] → RotationStep w a w'

theorem count_rotate_chunkTokens (chunk : Chunk) : (chunkTokens chunk).count .rotate = 0 :=
  count_eq_zero.mpr fun h => isByte_of_mem_chunkTokens h rfl

theorem outstanding_eq (w : LogWorld) :
    w.outstanding = w.writer.remainder.count .rotate + (itemTokens w.q.items).count .rotate :=
  count_append

theorem evict_rotatePending (len fuel : ℕ) (q : Queue) :
    (Queue.evict len fuel q).rotatePending = q.rotatePending := by
  induction fuel generalizing q with
  | zero => rfl
  | succ fuel ih =>
    rw [Queue.evict]
    split
    · split
      · rfl
      · exact ih _
    · rfl

theorem enqueue_rotatePending (q : Queue) (chunk : Chunk) :
    (q.enqueue chunk).2.rotatePending = q.rotatePending := by
  unfold Queue.enqueue
  split
  · rfl
  · split
    · split
      · exact evict_rotatePending _ _ _
      · rfl
    · rfl

theorem Idles.moves (hw : w.writer.stopped = false ∧ w.writer.reopens = none)
    (hw' : w'.writer.reopens = none)
    (hnext : ∀ next todo closing, w'.writer = .renaming next todo closing →
      next = w.q.nextRotation)
    (hdir : w'.dir.rotated = w.dir.rotated) (hrot : w'.q.rotation = w.q.rotation)
    (hpend : w'.q.rotatePending = w.q.rotatePending) (hitems : w'.q.items = w.q.items)
    (hrem : w'.writer.remainder.count .rotate = w.writer.remainder.count .rotate) : Idles w w' := by
  refine ⟨hdir, hrot, hpend, ?_, .inr ⟨hw.1, hw.2, hw', hnext⟩⟩
  rw [outstanding_eq, outstanding_eq, hitems, hrem]

theorem drain_idles (hw : w.writer.stopped = false ∧ w.writer.reopens = none)
    (hrem : w.writer.remainder = []) : Idles w w.drain := by
  unfold LogWorld.drain
  split
  · exact .moves hw rfl (by simp) rfl rfl rfl rfl (by rw [hrem]; rfl)
  · refine ⟨rfl, rfl, rfl, ?_, .inr ⟨hw.1, hw.2, rfl, by simp⟩⟩
    rw [outstanding_eq, outstanding_eq, hrem]
    simp [LogWriter.remainder]

variable {rest : Chunk} {todo : List QueueItem} {closing : Bool}

theorem writeSome_idles (hwr : w.writer = .writing rest todo closing) (result : SysResult) :
    Idles w (w.writeSome rest todo closing result) := by
  have hw : w.writer.stopped = false ∧ w.writer.reopens = none := by rw [hwr]; exact ⟨rfl, rfl⟩
  have hrem : w.writer.remainder.count .rotate = (itemTokens todo).count .rotate := by
    rw [hwr, LogWriter.remainder, count_append, count_rotate_chunkTokens, Nat.zero_add]
  have hsame : Idles w w := ⟨rfl, rfl, rfl, rfl, .inl rfl⟩
  unfold writeSome
  split
  · exact .moves hw rfl (by simp) rfl rfl rfl rfl hrem.symm
  · split
    · exact .moves hw rfl (by simp) rfl rfl rfl rfl (by rw [hwr]; rfl)
    · refine .moves hw rfl (by simp) rfl rfl rfl rfl ?_
      rw [hrem, LogWriter.remainder, count_append, count_rotate_chunkTokens, Nat.zero_add]
    · exact .moves hw rfl (by simp) rfl rfl rfl rfl (by rw [hwr]; rfl)
    · exact hsame
    · exact hsame

theorem requestRotate_step (hq : w.q.rotate =
      (.ok (saturatingAdd w.q.nextRotation w.q.rotatePending),
        { w.q with
          rotatePending := (w.q.rotatePending + 1) % u32Size
          items := w.q.items ++ [.rotate] })) :
    RotationStep w .rotate w.requestRotate := by
  rw [requestRotate, hq]
  refine .requested rfl rfl rfl rfl ?_ (by rw [promised, hq]) rfl
  rw [outstanding_eq, outstanding_eq]
  simp [Nat.add_assoc]

theorem produced_eq_nil (hw : ∀ next todo closing, w.writer ≠ .renaming next todo closing)
    (a : LogAct) : w.produced a = [] := by
  unfold produced
  split
  · split
    · next h => exact absurd h (hw _ _ _)
    · rfl
  · rfl

theorem nextItem_step (hwr : w.writer = .batch todo closing) (result : SysResult) :
    RotationStep w (.writer result) (w.nextItem closing todo) := by
  have hw : w.writer.stopped = false ∧ w.writer.reopens = none := by rw [hwr]; exact ⟨rfl, rfl⟩
  have hnone : w.produced (.writer result) = [] := produced_eq_nil (by simp [hwr]) _
  cases todo with
  | nil =>
    cases closing with
    | false =>
      refine .idles (.moves hw rfl (by simp [nextItem]) rfl rfl rfl rfl ?_) rfl hnone
      rw [hwr]
      rfl
    | true => exact .stops rfl rfl rfl hnone
  | cons item todo =>
    cases item with
    | bytes chunk =>
      refine .idles (.moves hw rfl (by simp [nextItem]) rfl rfl rfl rfl ?_) rfl hnone
      rw [hwr]
      rfl
    | rotate =>
      refine .idles (.moves hw rfl ?_ rfl rfl rfl rfl ?_) rfl hnone
      · simp [nextItem, eq_comm]
      · rw [hwr]
        rfl

theorem refuse_step {error : String} (hwr : w.writer = .refused rest error todo closing)
    (result : SysResult) : RotationStep w (.writer result) (w.refuse rest error todo closing) := by
  have hw : w.writer.stopped = false ∧ w.writer.reopens = none := by rw [hwr]; exact ⟨rfl, rfl⟩
  have hnone : w.produced (.writer result) = [] := produced_eq_nil (by simp [hwr]) _
  unfold refuse
  dsimp only
  split
  · exact .stops rfl rfl rfl hnone
  · refine .idles (.moves hw rfl (by simp) rfl rfl rfl rfl ?_) rfl hnone
    rw [hwr, LogWriter.remainder, LogWriter.remainder, count_append, count_rotate_chunkTokens,
      Nat.zero_add]

theorem rename_step {next : ℕ} (hwr : w.writer = .renaming next todo closing) (result : SysResult) :
    RotationStep w (.writer result) (w.rename next todo closing result) := by
  cases result with
  | done => exact .renamed next todo closing hwr rfl rfl rfl rfl (by simp [produced, hwr])
  | failed e => exact .stops rfl rfl rfl rfl
  | stored | interrupted => exact .idles ⟨rfl, rfl, rfl, rfl, .inl rfl⟩ rfl rfl

theorem reopen_step {next : ℕ} (hwr : w.writer = .reopening next todo closing)
    (result : SysResult) : RotationStep w (.writer result) (w.reopen next todo closing result) := by
  have hnone : w.produced (.writer result) = [] := produced_eq_nil (by simp [hwr]) _
  cases result with
  | done => exact .reopened next todo closing hwr rfl rfl rfl rfl rfl rfl hnone
  | failed e => exact .stops rfl rfl rfl hnone
  | stored | interrupted => exact .idles ⟨rfl, rfl, rfl, rfl, .inl rfl⟩ rfl hnone

theorem step_rotation (w : LogWorld) (a : LogAct) : RotationStep w a (w.step a) := by
  cases a with
  | offer chunk =>
    have htakes := w.q.enqueue_takes chunk
    obtain ⟨d, -, hthin⟩ := htakes.dropped
    refine .idles ⟨rfl, htakes.rotation, ?_, ?_, .inl rfl⟩ rfl rfl
    · exact enqueue_rotatePending w.q chunk
    · have hcount := (count_rotate_eq hthin).symm
      rw [count_append, count_rotate_chunkTokens, Nat.add_zero] at hcount
      rw [outstanding_eq, outstanding_eq, ← hcount]
      rfl
  | rotate =>
    change RotationStep w .rotate w.requestRotate
    cases hq : w.q.rotate with
    | mk answer q =>
      cases answer with
      | error e =>
        obtain rfl := Queue.rotate_error hq
        rw [requestRotate, hq]
        exact .idles ⟨rfl, rfl, rfl, rfl, .inl rfl⟩ (by rw [promised, hq]) rfl
      | ok n =>
        obtain ⟨rfl, rfl⟩ := Queue.rotate_ok hq
        exact requestRotate_step hq
  | close => exact .idles ⟨rfl, rfl, rfl, rfl, .inl rfl⟩ rfl rfl
  | writer result =>
    change RotationStep w (.writer result) (w.stepWriter result)
    unfold stepWriter
    split
    · next hwr =>
      let w₀ : LogWorld := { w with q := { w.q with drainingBytes := 0 } }
      have hidle : Idles w₀ w₀.drain :=
        drain_idles (by simp [w₀, hwr, LogWriter.stopped, LogWriter.reopens])
          (by simp [w₀, hwr, LogWriter.remainder])
      exact .idles ⟨hidle.rotated, hidle.rotation, hidle.pending, hidle.outstanding,
        hidle.writer⟩ rfl (produced_eq_nil (by simp [hwr]) _)
    · next hwr =>
      exact .idles (drain_idles (by rw [hwr]; exact ⟨rfl, rfl⟩) (by rw [hwr]; rfl)) rfl
        (produced_eq_nil (by simp [hwr]) _)
    · next hwr => exact nextItem_step hwr _
    · next hwr =>
      exact .idles (writeSome_idles hwr result) rfl (produced_eq_nil (by simp [hwr]) _)
    · next hwr => exact refuse_step hwr _
    · next hwr => exact rename_step hwr result
    · next hwr => exact reopen_step hwr result
    · next hwr => exact .stops rfl rfl rfl (produced_eq_nil (by simp [hwr]) _)
    · next hwr => exact .stops rfl rfl rfl (produced_eq_nil (by simp [hwr]) _)
    · next hwr => exact .stops rfl rfl rfl (produced_eq_nil (by simp [hwr]) _)
    · next hwr =>
      exact .stops (by rw [hwr]; rfl) rfl rfl (produced_eq_nil (by simp [hwr]) _)

structure Pledged (P D : List ℕ) (w : LogWorld) : Prop where
  promised : P = D ++ (List.range w.outstanding).map (saturatingAdd w.upcoming)
  pending : w.q.rotatePending = w.unperformed
  atRename : ∀ next todo closing, w.writer = .renaming next todo closing → next = w.q.nextRotation
  atReopen : ∀ next ∈ w.writer.reopens, next = w.q.nextRotation

variable {P D : List ℕ}

theorem upcoming_of_none (h : w.writer.reopens = none) : w.upcoming = w.q.nextRotation := by
  rw [upcoming, newest, h]
  rfl

theorem upcoming_of_some {next : ℕ} (h : w.writer.reopens = some next) :
    w.upcoming = saturatingAdd next 1 := by
  rw [upcoming, newest, h]
  rfl

theorem Idles.reopens (h : Idles w w') : w'.writer.reopens = w.writer.reopens := by
  rcases h.writer with hw | ⟨-, hnone, hnone', -⟩
  · rw [hw]
  · rw [hnone, hnone']

theorem Pledged.idles (h : Pledged P D w) (hi : Idles w w') : Pledged P D w' := by
  have hup : w'.upcoming = w.upcoming := by
    rw [upcoming, upcoming, newest, newest, hi.reopens, hi.rotation]
  have hnext : w'.q.nextRotation = w.q.nextRotation := Queue.nextRotation_congr hi.rotation
  refine ⟨?_, ?_, ?_, ?_⟩
  · rw [hi.outstanding, hup]
    exact h.promised
  · rw [hi.pending, unperformed, hi.outstanding, hi.reopens]
    exact h.pending
  · rw [hnext]
    rcases hi.writer with hw | ⟨-, -, -, hbegin⟩
    · rw [hw]
      exact h.atRename
    · exact hbegin
  · rw [hnext, hi.reopens]
    exact h.atReopen

theorem Pledged.sum_eq (h : Pledged P D w) :
    saturatingAdd w.q.nextRotation w.q.rotatePending = saturatingAdd w.upcoming w.outstanding := by
  rw [h.pending, unperformed]
  cases hr : w.writer.reopens with
  | none => rw [upcoming_of_none hr, Option.toList_none, length_nil, Nat.add_zero]
  | some next =>
    rw [upcoming_of_some hr, h.atReopen next hr, saturatingAdd_saturatingAdd, Nat.add_comm 1]
    rfl

theorem Pledged.requested (h : Pledged P D w) (hw : w'.writer = w.writer)
    (hrot : w'.q.rotation = w.q.rotation)
    (hpend : w'.q.rotatePending = (w.q.rotatePending + 1) % u32Size)
    (hout : w'.outstanding = w.outstanding + 1) (hroom : w'.unperformed < u32Size) :
    Pledged (P ++ [saturatingAdd w.q.nextRotation w.q.rotatePending]) D w' := by
  have hup : w'.upcoming = w.upcoming := by
    rw [upcoming, upcoming, newest, newest, hw, hrot]
  have hcount : w'.unperformed = w.unperformed + 1 := by
    rw [unperformed, unperformed, hout, hw, Nat.add_right_comm]
  refine ⟨?_, ?_, ?_, ?_⟩
  · rw [h.sum_eq, hout, range_succ, map_append, hup, h.promised, append_assoc]
    rfl
  · rw [hpend, h.pending, ← hcount, Nat.mod_eq_of_lt hroom]
  · rw [hw, Queue.nextRotation_congr hrot]
    exact h.atRename
  · rw [hw, Queue.nextRotation_congr hrot]
    exact h.atReopen

variable {todo : List QueueItem} {closing : Bool} {as : List LogAct} {n : ℕ}

theorem Pledged.renamed (h : Pledged P D w) {next : ℕ} (hw : w.writer = .renaming next todo closing)
    (hw' : w'.writer = .reopening next todo closing) (hq : w'.q = w.q) :
    Pledged P (D ++ [next]) w' := by
  have hnext : w.q.nextRotation = next := (h.atRename next todo closing hw).symm
  have hup : w.upcoming = next := by rw [upcoming_of_none (by rw [hw]; rfl), hnext]
  have hup' : w'.upcoming = saturatingAdd next 1 := upcoming_of_some (by rw [hw']; rfl)
  have hout : w.outstanding = w'.outstanding + 1 := by
    rw [outstanding_eq, outstanding_eq, hw, hw', hq, LogWriter.remainder, LogWriter.remainder,
      count_cons_self, Nat.add_right_comm]
  have hzero : saturatingAdd next 0 = next := saturatingAdd_zero (hnext ▸ nextRotation_lt w.q)
  refine ⟨?_, ?_, by simp [hw'], ?_⟩
  · rw [h.promised, hout, hup, hup', range_succ_eq_map, map_cons, hzero, map_map,
      append_assoc, singleton_append]
    congr 2
    refine map_congr_left fun i _ => ?_
    rw [Function.comp_apply, saturatingAdd_saturatingAdd, Nat.add_comm 1]
  · rw [hq, h.pending, unperformed, unperformed, hout, hw, hw']
    rfl
  · rw [hq, hnext, hw']
    intro other hother
    exact (Option.some.inj hother).symm

theorem Pledged.reopened (h : Pledged P D w) {next : ℕ}
    (hw : w.writer = .reopening next todo closing) (hw' : w'.writer = .batch todo closing)
    (hitems : w'.q.items = w.q.items) (hrot : w'.q.rotation = some next)
    (hpend : w'.q.rotatePending = w.q.rotatePending - 1) : Pledged P D w' := by
  have hup : w.upcoming = saturatingAdd next 1 := upcoming_of_some (by rw [hw]; rfl)
  have hup' : w'.upcoming = saturatingAdd next 1 := by
    rw [upcoming_of_none (by rw [hw']; rfl), Queue.nextRotation, hrot]
    rfl
  have hout : w'.outstanding = w.outstanding := by
    rw [outstanding_eq, outstanding_eq, hw, hw', hitems]
    rfl
  refine ⟨?_, ?_, by simp [hw'], by simp [hw', LogWriter.reopens]⟩
  · rw [hout, hup', ← hup]
    exact h.promised
  · rw [hpend, h.pending, unperformed, unperformed, hout, hw, hw']
    rfl

def Promises (P D : List ℕ) (w : LogWorld) : Prop :=
  w.writer.stopped = true ∧ D <+: P ∨ Pledged P D w

theorem Promises.isPrefix (h : Promises P D w) : D <+: P := by
  rcases h with ⟨-, h⟩ | h
  · exact h
  · exact h.promised ▸ prefix_append _ _

theorem Promises.step (h : Promises P D w) (hroom : (w.step a).unperformed < u32Size) :
    Promises (P ++ w.promised a) (D ++ w.produced a) (w.step a) := by
  have hstep := step_rotation w a
  generalize w.step a = w' at hstep hroom ⊢
  rcases h with ⟨hstop, hpre⟩ | h
  · -- a writer that has stopped makes no file
    cases hstep with
    | idles hi hprom hprod =>
      rw [hprom, hprod, append_nil, append_nil]
      rcases hi.writer with hw | ⟨hno, -⟩
      · exact .inl ⟨hw ▸ hstop, hpre⟩
      · rw [hstop] at hno
        cases hno
    | requested _ hw _ _ _ _ hprod =>
      rw [hprod, append_nil]
      exact .inl ⟨hw ▸ hstop, hpre.trans (prefix_append _ _)⟩
    | renamed next todo closing hw =>
      rw [hw] at hstop
      cases hstop
    | reopened next todo closing hw =>
      rw [hw] at hstop
      cases hstop
    | stops hw _ hprom hprod =>
      rw [hprom, hprod, append_nil, append_nil]
      exact .inl ⟨hw, hpre⟩
  · cases hstep with
    | idles hi hprom hprod =>
      rw [hprom, hprod, append_nil, append_nil]
      exact .inr (h.idles hi)
    | requested _ hw hrot hpend hout hprom hprod =>
      rw [hprom, hprod, append_nil]
      exact .inr (h.requested hw hrot hpend hout hroom)
    | renamed next todo closing hw hw' _ hq hprom hprod =>
      rw [hprom, hprod, append_nil]
      exact .inr (h.renamed hw hw' hq)
    | reopened next todo closing hw hw' _ hitems hrot hpend hprom hprod =>
      rw [hprom, hprod, append_nil, append_nil]
      exact .inr (h.reopened hw hw' hitems hrot hpend)
    | stops hw _ hprom hprod =>
      rw [hprom, hprod, append_nil, append_nil]
      exact .inl ⟨hw, (Promises.isPrefix (.inr h))⟩

theorem Promises.run (h : Promises P D w)
    (hroom : machine.Always (fun w => w.unperformed < u32Size) w as) :
    Promises (P ++ machine.outputs LogWorld.promised w as)
      (D ++ machine.outputs LogWorld.produced w as) (machine.run w as) := by
  induction as generalizing w P D with
  | nil => simpa [outputs] using h
  | cons a as ih =>
    have hnext : (w.step a).unperformed < u32Size := by
      cases as with
      | nil => exact hroom.2
      | cons => exact hroom.2.1
    have hrest := ih (h.step hnext) hroom.2
    rw [outputs, outputs, ← append_assoc, ← append_assoc]
    exact hrest

theorem Fresh.promises {dir : Directory} (hw : w.Fresh dir) (hpend : w.q.rotatePending = 0) :
    Promises [] [] w := by
  rcases hw.writer with h | ⟨h, -⟩
  · exact .inl ⟨by rw [h]; rfl, prefix_rfl⟩
  · have hout : w.outstanding = 0 := by
      rw [outstanding_eq, h, hw.items]
      rfl
    refine .inr ⟨?_, ?_, by simp [h], by simp [h, LogWriter.reopens]⟩
    · rw [hout]
      rfl
    · rw [hpend, unperformed, hout, h]
      rfl

theorem create_rotatePending (cfg : LogConfig) (dir : Directory)
    (opened scanned spawned : Option String) :
    (create cfg dir opened scanned spawned).q.rotatePending = 0 := by
  cases opened <;> cases scanned <;> cases spawned <;> rfl

theorem drain_record (w : LogWorld) : w.drain.offered = w.offered ∧ w.drain.wrote = w.wrote := by
  unfold LogWorld.drain
  split <;> exact ⟨rfl, rfl⟩

theorem writeSome_recorded (w : LogWorld) (rest : Chunk) (todo : List QueueItem) (closing : Bool)
    (result : SysResult) :
    (w.writeSome rest todo closing result).offered = w.offered ∧
      (w.writeSome rest todo closing result).wrote.count .rotate = w.wrote.count .rotate := by
  unfold writeSome
  split
  · exact ⟨rfl, rfl⟩
  · split
    · exact ⟨rfl, rfl⟩
    · exact ⟨rfl, by simp [count_rotate_chunkTokens]⟩
    · exact ⟨rfl, rfl⟩
    · exact ⟨rfl, rfl⟩
    · exact ⟨rfl, rfl⟩

theorem stepWriter_recorded (w : LogWorld) (result : SysResult) :
    (w.stepWriter result).offered.count .rotate = w.offered.count .rotate ∧
      (w.stepWriter result).wrote.count .rotate =
        w.wrote.count .rotate + (w.produced (.writer result)).length := by
  have hnone (hwr : ∀ next todo closing, w.writer ≠ .renaming next todo closing) :
      w.wrote.count .rotate + (w.produced (.writer result)).length = w.wrote.count .rotate := by
    rw [produced_eq_nil hwr, length_nil, Nat.add_zero]
  unfold stepWriter
  split
  · next hwr =>
    rw [hnone (by simp [hwr]), (drain_record _).1, (drain_record _).2]
    exact ⟨rfl, rfl⟩
  · next hwr =>
    rw [hnone (by simp [hwr]), (drain_record _).1, (drain_record _).2]
    exact ⟨rfl, rfl⟩
  · next hwr =>
    rw [hnone (by simp [hwr])]
    unfold nextItem
    split
    · split <;> exact ⟨rfl, rfl⟩
    · exact ⟨rfl, rfl⟩
    · exact ⟨rfl, rfl⟩
  · next rest todo closing hwr =>
    obtain ⟨hoffered, hwrote⟩ := w.writeSome_recorded rest todo closing result
    rw [hnone (by simp [hwr]), hoffered, hwrote]
    exact ⟨rfl, rfl⟩
  · next hwr =>
    rw [hnone (by simp [hwr])]
    unfold refuse
    dsimp only
    split <;> exact ⟨rfl, rfl⟩
  · next hwr => cases result <;> simp [rename, produced, hwr]
  · next hwr =>
    rw [hnone (by simp [hwr])]
    cases result <;> exact ⟨rfl, rfl⟩
  · next hwr => exact ⟨rfl, (hnone (by simp [hwr])).symm⟩
  · next hwr => exact ⟨rfl, (hnone (by simp [hwr])).symm⟩
  · next hwr => exact ⟨rfl, (hnone (by simp [hwr])).symm⟩
  · next hwr => exact ⟨rfl, (hnone (by simp [hwr])).symm⟩

theorem step_recorded (w : LogWorld) (a : LogAct) :
    (w.step a).offered.count .rotate = w.offered.count .rotate + (w.promised a).length ∧
      (w.step a).wrote.count .rotate = w.wrote.count .rotate + (w.produced a).length := by
  cases a with
  | offer chunk => simp [step, offer, promised, produced, count_rotate_chunkTokens]
  | rotate =>
    cases hq : w.q.rotate with
    | mk answer q => cases answer <;> simp [step, requestRotate, promised, produced, hq]
  | close => simp [step, promised, produced]
  | writer result => exact stepWriter_recorded w result

theorem run_recorded (w : LogWorld) (as : List LogAct) :
    (machine.run w as).offered.count .rotate =
        w.offered.count .rotate + (machine.outputs promised w as).length ∧
      (machine.run w as).wrote.count .rotate =
        w.wrote.count .rotate + (machine.outputs produced w as).length := by
  induction as generalizing w with
  | nil => exact ⟨rfl, rfl⟩
  | cons a as ih =>
    obtain ⟨hoffered, hwrote⟩ := ih (w.step a)
    obtain ⟨hasked, hmade⟩ := w.step_recorded a
    rw [run_cons, outputs, outputs, length_append,
      length_append, ← Nat.add_assoc, ← Nat.add_assoc, ← hasked, ← hmade]
    exact ⟨hoffered, hwrote⟩

theorem Running.names (hw : w.Running) (a : LogAct) : ∀ n ∈ w.produced a,
    parseU64 (w.suffix n) = some n ∧
      (w.step a).dir.rotated.getLast? = some (w.suffix n, w.dir.current.getD []) := by
  cases step_rotation w a with
  | idles _ _ hprod => simp [hprod]
  | requested _ _ _ _ _ _ hprod => simp [hprod]
  | renamed next todo closing hwr _ hdir _ _ hprod =>
    intro n hn
    obtain rfl : n = next := by simpa [hprod] using hn
    refine ⟨parseU64_padded _ (hw.atRename n todo closing hwr ▸ nextRotation_lt _), ?_⟩
    rw [hdir, Directory.rename, getLast?_concat]
  | reopened _ _ _ _ _ _ _ _ _ _ hprod => simp [hprod]
  | stops _ _ _ hprod => simp [hprod]

theorem rotation_numbers (cfg : LogConfig) (dir : Directory) (opened scanned spawned : Option String)
    {as : List LogAct} (h : machine.Legal (create cfg dir opened scanned spawned) as)
    (hroom : machine.Always (fun w => w.unperformed < u32Size)
      (create cfg dir opened scanned spawned) as) :
    let start := create cfg dir opened scanned spawned
    let w := machine.run start as
    machine.outputs produced start as <+: machine.outputs promised start as ∧
      (machine.outputs promised start as).length = w.offered.count .rotate ∧
      (machine.outputs produced start as).length = w.wrote.count .rotate ∧ w.Streamed ∧
      machine.Each (fun w a => ∀ n ∈ w.produced a, parseU64 (w.suffix n) = some n ∧
        (w.step a).dir.rotated.getLast? = some (w.suffix n, w.dir.current.getD [])) start as := by
  intro start w
  have hfresh : start.Fresh dir := create_fresh cfg dir opened scanned spawned
  have hinv : ∀ w a, Sound w → machine.ok w a → Sound (machine.step w a) :=
    fun w a hw _ => step_sound hw a
  have hrun := (hfresh.promises (create_rotatePending cfg dir opened scanned spawned)).run hroom
  obtain ⟨hasked, hmade⟩ := run_recorded start as
  rw [hfresh.offered] at hasked
  rw [hfresh.wrote] at hmade
  refine ⟨by simpa using hrun.isPrefix, by simpa using hasked.symm, by simpa using hmade.symm, ?_, ?_⟩
  · exact (Runs.Machine.invariant hinv hfresh.sound h).streamed
  · exact Runs.Machine.each_of_invariant hinv (fun w a hw _ => hw.running.names a) hfresh.sound h

def overlappingRequests : List LogAct :=
  [.rotate, .writer .done, .writer .done, .writer .done, .rotate, .writer .done, .writer .done,
    .writer .done, .writer .done, .writer .done, .writer .done]

theorem rotation_numbers_overlappingRequests :
    let start := create consoleLog ⟨[("007".toList, [1])], none⟩ none none none
    machine.outputs produced start overlappingRequests = [8, 9] ∧
      machine.outputs produced start overlappingRequests <+:
        machine.outputs promised start overlappingRequests := by
  intro start
  have hlegal : machine.Legal start overlappingRequests := by decide +kernel
  have hroom : machine.Always (fun w => w.unperformed < u32Size) start overlappingRequests := by
    decide +kernel
  exact ⟨by decide +kernel, (rotation_numbers consoleLog _ none none none hlegal hroom).1⟩

def afterRequests (w : LogWorld) (n : ℕ) : LogWorld :=
  { w with
    q := { w.q with
      rotatePending := (w.q.rotatePending + n) % u32Size
      items := w.q.items ++ List.replicate n .rotate }
    offered := w.offered ++ List.replicate n .rotate }

theorem afterRequests_step (hw : w.q.status = .active) (n : ℕ) :
    (w.afterRequests n).step .rotate = w.afterRequests (n + 1) ∧
      (w.afterRequests n).promised .rotate =
        [saturatingAdd w.q.nextRotation ((w.q.rotatePending + n) % u32Size)] := by
  constructor
  · simp [LogWorld.step, requestRotate, Queue.rotate, afterRequests, hw, replicate_succ',
      Nat.add_assoc]
  · simp [promised, Queue.rotate, afterRequests, hw, Queue.nextRotation]

theorem run_requests (hw : w.q.status = .active) (hp : w.q.rotatePending < u32Size) (n : ℕ) :
    machine.run w (List.replicate n .rotate) = w.afterRequests n ∧
      machine.outputs promised w (List.replicate n .rotate) =
        (List.range n).map fun i =>
          saturatingAdd w.q.nextRotation ((w.q.rotatePending + i) % u32Size) := by
  induction n with
  | zero => simp [afterRequests, outputs, Nat.mod_eq_of_lt hp]
  | succ n ih =>
    obtain ⟨hstep, hprom⟩ := afterRequests_step hw n
    rw [replicate_succ', Runs.Machine.run_append, outputs_append, ih.1, ih.2,
      range_succ, map_append]
    exact ⟨hstep, by simp [outputs, hprom]⟩

def rotations (n : ℕ) : List LogAct :=
  (List.replicate n [.writer .done, .writer .done, .writer .done]).flatten

theorem run_rotation (hw : w.writer = .batch (.rotate :: todo) false) :
    let act : List LogAct := [.writer .done, .writer .done, .writer .done]
    machine.Legal w act ∧ machine.outputs promised w act = [] ∧
      machine.outputs produced w act = [w.q.nextRotation] ∧
      (machine.run w act).writer = .batch todo false ∧
      (machine.run w act).q.nextRotation = saturatingAdd w.q.nextRotation 1 := by
  have h₁ : w.step (.writer .done) = { w with writer := .renaming w.q.nextRotation todo false } := by
    simp [LogWorld.step, stepWriter, hw, nextItem]
  dsimp only [Runs.Machine.Legal, outputs, Runs.Machine.run, foldl_cons, machine]
  rw [h₁]
  simp [possible, promised, produced, LogWorld.step, stepWriter, rename, reopen, hw,
    Queue.nextRotation]

theorem run_rotations (hw : w.writer = .batch (List.replicate n .rotate) false) :
    machine.Legal w (rotations n) ∧ machine.outputs promised w (rotations n) = [] ∧
      machine.outputs produced w (rotations n) =
        (List.range n).map fun i => saturatingAdd w.q.nextRotation i := by
  induction n generalizing w with
  | zero => exact ⟨trivial, rfl, rfl⟩
  | succ n ih =>
    rw [replicate_succ] at hw
    obtain ⟨hlegal, hprom, hprod, hwr, hnext⟩ := run_rotation hw
    obtain ⟨hlegals, hproms, hprods⟩ := ih hwr
    have hcons : rotations (n + 1) =
        [.writer .done, .writer .done, .writer .done] ++ rotations n := rfl
    have hzero : saturatingAdd w.q.nextRotation 0 = w.q.nextRotation :=
      saturatingAdd_zero (nextRotation_lt w.q)
    rw [hcons, Runs.Machine.legal_append, outputs_append,
      outputs_append, hprom, hprod, hproms, hprods, hnext, range_succ_eq_map,
      map_cons, hzero, map_map]
    refine ⟨⟨hlegal, hlegals⟩, rfl, ?_⟩
    rw [singleton_append]
    congr 1
    refine map_congr_left fun i _ => ?_
    rw [Function.comp_apply, saturatingAdd_saturatingAdd, Nat.add_comm 1]

def requestsThenRotations (n : ℕ) : List LogAct :=
  List.replicate n .rotate ++ (.writer .done :: rotations n)

theorem run_requestsThenRotations (hw : w.writer = .top) (hitems : w.q.items = [])
    (hclosed : w.q.closed = false) (hstatus : w.q.status = .active) (hp : w.q.rotatePending = 0)
    (hn : n ≠ 0) :
    machine.Legal w (requestsThenRotations n) ∧
      machine.outputs promised w (requestsThenRotations n) =
        ((List.range n).map fun i => saturatingAdd w.q.nextRotation (i % u32Size)) ∧
      machine.outputs produced w (requestsThenRotations n) =
        (List.range n).map fun i => saturatingAdd w.q.nextRotation i := by
  obtain ⟨hrun, hprom⟩ := run_requests hstatus (hp ▸ by decide) n
  have hlegal : machine.Legal w (List.replicate n .rotate) :=
    Runs.Machine.legal_of_forall (fun a ha _ => by rw [eq_of_mem_replicate ha]; rfl) w
  have hnone : machine.outputs produced w (List.replicate n .rotate) = [] :=
    Runs.Machine.outputs_eq_nil (fun a ha _ => by rw [eq_of_mem_replicate ha]; rfl) w
  let w' := (w.afterRequests n).step (.writer .done)
  have hw' : w'.writer = .batch (List.replicate n .rotate) false := by
    simp [w', LogWorld.step, stepWriter, afterRequests, hw, LogWorld.drain, hitems, hn, hclosed]
  have hnext : w'.q.nextRotation = w.q.nextRotation := by
    simp [w', LogWorld.step, stepWriter, afterRequests, hw, LogWorld.drain, hitems, hn,
      Queue.nextRotation]
  obtain ⟨hlegals, hproms, hprods⟩ := run_rotations hw'
  rw [requestsThenRotations, Runs.Machine.legal_append, outputs_append,
    outputs_append, hrun, hprom, hnone, outputs, outputs]
  have hprod : (w.afterRequests n).produced (.writer .done) = [] :=
    produced_eq_nil (by simp [afterRequests, hw]) _
  refine ⟨⟨hlegal, by simp [machine, possible, afterRequests, hw], hlegals⟩, ?_, ?_⟩
  · change _ ++ machine.outputs promised w' (rotations n) = _
    rw [hproms, append_nil, hp]
    simp only [Nat.zero_add]
  · rw [hprod, nil_append, nil_append]
    change machine.outputs produced w' (rotations n) = _
    rw [hprods, hnext]

theorem wrapped_count_misleads :
    let start := create consoleLog ⟨[], none⟩ none none none
    machine.Legal start (requestsThenRotations (u32Size + 1)) ∧
      (machine.outputs promised start (requestsThenRotations (u32Size + 1)))[u32Size]? = some 0 ∧
      (machine.outputs produced start (requestsThenRotations (u32Size + 1)))[u32Size]? =
        some u32Size := by
  intro start
  obtain ⟨hlegal, hprom, hprod⟩ :=
    run_requestsThenRotations (w := start) rfl rfl rfl rfl rfl u32Size.succ_ne_zero
  have hnext : start.q.nextRotation = 0 := by decide
  refine ⟨hlegal, ?_, ?_⟩
  · rw [hprom, List.getElem?_map, List.getElem?_range (Nat.lt_succ_self _), hnext]
    simp [saturatingAdd]
  · rw [hprod, List.getElem?_map, List.getElem?_range (Nat.lt_succ_self _), hnext]
    decide

def RenamesFree (w : LogWorld) (a : LogAct) : Prop :=
  ∀ n ∈ w.produced a, ∀ f ∈ w.dir.rotated, f.1 ≠ w.suffix n

def BelowMaximum (w : LogWorld) (a : LogAct) : Prop :=
  w.produced a ≠ [] → w.q.rotation ≠ some (u64Size - 1)

instance (w : LogWorld) (a : LogAct) : Decidable (w.RenamesFree a) :=
  inferInstanceAs (Decidable (∀ n ∈ w.produced a, ∀ f ∈ w.dir.rotated, f.1 ≠ w.suffix n))

instance (w : LogWorld) (a : LogAct) : Decidable (w.BelowMaximum a) :=
  inferInstanceAs (Decidable (w.produced a ≠ [] → w.q.rotation ≠ some (u64Size - 1)))

theorem BelowMaximum.renamesFree (h : w.BelowMaximum a) (hw : w.Running) : w.RenamesFree a := by
  intro n hn f hf
  unfold produced at hn
  split at hn
  · split at hn
    · next next todo closing hwr =>
      obtain rfl := mem_singleton.mp hn
      exact hw.suffix_fresh (h (by simp [produced, hwr])) hwr hf
    · cases hn
  · cases hn

theorem RenamesFree.isPrefix (h : w.RenamesFree a) : w.dir.rotated <+: (w.step a).dir.rotated := by
  cases step_rotation w a with
  | idles hi => exact hi.rotated ▸ prefix_rfl
  | requested hdir => exact hdir ▸ prefix_rfl
  | renamed next todo closing hwr _ hdir _ _ hprod =>
    have hfree := h next (hprod ▸ mem_singleton_self next)
    rw [hdir, Directory.rename, filter_eq_self.mpr (by simpa using hfree)]
    exact prefix_append _ _
  | reopened _ _ _ _ _ hrot => exact hrot ▸ prefix_rfl
  | stops _ hrot => exact hrot ▸ prefix_rfl

theorem run_isPrefix (h : machine.Each RenamesFree w as) {bs : List LogAct} (hbs : bs <+: as) :
    (machine.run w bs).dir.rotated <+: (machine.run w as).dir.rotated := by
  induction as generalizing w bs with
  | nil => exact prefix_nil.mp hbs ▸ prefix_rfl
  | cons a as ih =>
    cases bs with
    | nil => exact h.1.isPrefix.trans (ih h.2 nil_prefix)
    | cons b bs =>
      obtain ⟨rfl, hrest⟩ := cons_prefix_cons.mp hbs
      exact ih h.2 hrest

def Highest (numbers : List ℕ) (w : LogWorld) : Prop :=
  w.writer.stopped = true ∨ (∀ n ∈ numbers, ∃ m ∈ w.newest, n ≤ m) ∧ ∀ m ∈ w.newest, m ∈ numbers

variable {numbers : List ℕ}

theorem Highest.congr (h : Highest numbers w) (hs : w.writer.stopped = true → w'.writer.stopped = true)
    (hn : w'.newest = w.newest) : Highest numbers w' := by
  rcases h with h | h
  · exact .inl (hs h)
  · exact .inr (hn ▸ h)

theorem Highest.idles (h : Highest numbers w) (hi : Idles w w') : Highest numbers w' := by
  refine h.congr ?_ (by rw [newest, newest, hi.reopens, hi.rotation])
  intro hs
  rcases hi.writer with hwr | ⟨hno, -⟩
  · rw [hwr]
    exact hs
  · rw [hs] at hno
    cases hno

theorem Highest.next (h : Highest numbers w) (hw : w.Running) {next : ℕ} {todo : List QueueItem}
    {closing : Bool} (hwr : w.writer = .renaming next todo closing) :
    (∀ n ∈ numbers, n ≤ next) ∧ ((∀ n ∈ numbers, n < next) ↔ w.q.rotation ≠ some (u64Size - 1)) := by
  have hnewest : w.newest = w.q.rotation := by
    rw [newest, hwr]
    rfl
  obtain ⟨hle, hmem⟩ : (∀ n ∈ numbers, ∃ m ∈ w.newest, n ≤ m) ∧ ∀ m ∈ w.newest, m ∈ numbers := by
    rcases h with hs | h
    · rw [hwr] at hs
      cases hs
    · exact h
  rw [hnewest] at hle hmem
  have hnext := hw.atRename next todo closing hwr
  have hsmall := hw.small
  rw [Queue.nextRotation] at hnext
  cases hr : w.q.rotation with
  | none =>
    rw [hr] at hle
    exact ⟨fun n hn => by simpa using hle n hn, by simpa using fun n hn => by simpa using hle n hn⟩
  | some r =>
    have hrlt := hsmall r hr
    rw [hr] at hle hmem hnext
    have hle' : ∀ n ∈ numbers, n ≤ r := fun n hn => by simpa using hle n hn
    simp only [Option.elim_some, saturatingAdd] at hnext
    refine ⟨fun n hn => by have := hle' n hn; omega, ?_, ?_⟩
    · intro hall heq
      have := hall r (hmem r rfl)
      have := Option.some.inj heq
      omega
    · intro hne n hn
      have := hle' n hn
      have : r ≠ u64Size - 1 := fun h => hne (by rw [h])
      omega

theorem Highest.step (h : Highest numbers w) (hw : w.Running) (hlt : numbers.Pairwise (· < ·)) :
    Highest (numbers ++ w.produced a) (w.step a) ∧
      ((numbers ++ w.produced a).Pairwise (· < ·) ↔ w.BelowMaximum a) := by
  have hbelow : w.produced a = [] →
      ((numbers ++ w.produced a).Pairwise (· < ·) ↔ w.BelowMaximum a) := by
    intro hprod
    rw [hprod, append_nil]
    exact ⟨fun _ hne => absurd hprod hne, fun _ => hlt⟩
  cases step_rotation w a with
  | idles hi _ hprod =>
    refine ⟨?_, hbelow hprod⟩
    rw [hprod, append_nil]
    exact h.idles hi
  | requested hdir hwr hrot _ _ _ hprod =>
    refine ⟨?_, hbelow hprod⟩
    rw [hprod, append_nil]
    exact h.congr (fun hs => hwr ▸ hs) (by rw [newest, newest, hwr, hrot])
  | renamed next todo closing hwr hwr' hdir hq _ hprod =>
    obtain ⟨hle, hiff⟩ := h.next hw hwr
    have hnewest : (w.step a).newest = some next := by
      rw [newest, hwr']
      rfl
    rw [hprod]
    constructor
    · refine .inr ⟨fun n hn => ⟨next, hnewest, ?_⟩, fun m hm => ?_⟩
      · rcases mem_append.mp hn with hn | hn
        · exact hle n hn
        · exact (mem_singleton.mp hn).le
      · rw [hnewest] at hm
        rw [Option.some.inj hm]
        exact mem_append_right _ (mem_singleton_self _)
    · rw [List.pairwise_append, BelowMaximum, hprod]
      simpa [hlt] using hiff
  | reopened next todo closing hwr hwr' _ _ hrot _ _ hprod =>
    refine ⟨?_, hbelow hprod⟩
    rw [hprod, append_nil]
    refine h.congr (fun hs => ?_) ?_
    · rw [hwr] at hs
      cases hs
    · rw [newest, newest, hwr, hwr', hrot]
      rfl
  | stops hs _ _ hprod =>
    refine ⟨?_, hbelow hprod⟩
    rw [hprod, append_nil]
    exact .inl hs

theorem Highest.run (h : Highest numbers w) (hw : w.Running) (hlt : numbers.Pairwise (· < ·))
    (as : List LogAct) :
    (numbers ++ machine.outputs produced w as).Pairwise (· < ·) ↔
      machine.Each BelowMaximum w as := by
  induction as generalizing w numbers with
  | nil => exact ⟨fun _ => trivial, fun _ => by simpa [outputs] using hlt⟩
  | cons a as ih =>
    obtain ⟨hstep, hiff⟩ := h.step (a := a) hw hlt
    rw [outputs, ← append_assoc]
    constructor
    · intro hall
      have hhere := (List.pairwise_append.mp hall).1
      exact ⟨hiff.mp hhere, (ih hstep (step_running hw a) hhere).mp hall⟩
    · rintro ⟨hhere, hrest⟩
      exact (ih hstep (step_running hw a) (hiff.mpr hhere)).mpr hrest

theorem Fresh.highest {dir : Directory} (hw : w.Fresh dir) :
    Highest (scanRotation dir.rotated).toList w := by
  rcases hw.writer with h | ⟨h, -, -, hr⟩
  · exact .inl (by rw [h]; rfl)
  · have hnewest : w.newest = scanRotation dir.rotated := by
      rw [newest, h, hr]
      rfl
    exact .inr ⟨fun n hn => ⟨n, hnewest ▸ Option.mem_toList.mp hn, le_rfl⟩,
      fun m hm => Option.mem_toList.mpr (hnewest ▸ hm)⟩

theorem rotation_safe_iff (cfg : LogConfig) (dir : Directory) (opened scanned spawned : Option String)
    {as : List LogAct} (h : machine.Legal (create cfg dir opened scanned spawned) as) :
    let start := create cfg dir opened scanned spawned
    machine.Each RenamesFree start as ∧
        (∀ bs, bs <+: as →
          (machine.run start bs).dir.rotated <+: (machine.run start as).dir.rotated) ∧
        ((scanRotation dir.rotated).toList ++ machine.outputs produced start as).Pairwise (· < ·) ↔
      machine.Each BelowMaximum start as := by
  intro start
  have hfresh : start.Fresh dir := create_fresh cfg dir opened scanned spawned
  have hpair : (scanRotation dir.rotated).toList.Pairwise (· < ·) := by
    cases scanRotation dir.rotated <;> simp
  have hiff := hfresh.highest.run hfresh.running hpair as
  constructor
  · rintro ⟨-, -, hincrease⟩
    exact hiff.mp hincrease
  · intro hbelow
    have hfree : machine.Each RenamesFree start as :=
      hbelow.imp_of_invariant (fun w a hw _ _ => step_running hw a)
        (fun w a hw hmax => hmax.renamesFree hw) hfresh.running h
    exact ⟨hfree, fun bs hbs => run_isPrefix hfree hbs, hiff.mpr hbelow⟩

theorem rotation_safe_overlappingRequests :
    let start := create consoleLog ⟨[("007".toList, [1])], none⟩ none none none
    machine.Each RenamesFree start overlappingRequests ∧
      (machine.run start overlappingRequests).dir.rotated =
        [("007".toList, [1]), ("8".toList, []), ("9".toList, [])] := by
  intro start
  have hlegal : machine.Legal start overlappingRequests := by decide +kernel
  have hbelow : machine.Each BelowMaximum start overlappingRequests := by decide +kernel
  exact ⟨((rotation_safe_iff consoleLog _ none none none hlegal).mpr hbelow).1, by decide +kernel⟩

theorem saturated_rename_replaces :
    let start := create consoleLog ⟨[("18446744073709551615".toList, [7])], none⟩ none none none
    let as : List LogAct := [.rotate, .writer .done, .writer .done, .writer .done]
    machine.Legal start as ∧ ¬ machine.Each RenamesFree start as ∧
      machine.outputs produced start as = [u64Size - 1] ∧
      (machine.run start as).dir.rotated = [("18446744073709551615".toList, [])] := by
  decide +kernel

end LogWorld
end SerialNexus
