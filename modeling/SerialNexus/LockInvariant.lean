import SerialNexus.Runs
import SerialNexus.Lock

/-! # Invariants of the endpoint write lock

`Reachable l`: the exclusive lock `l` is reached by operations of which `register` is only called
with an id that is not registered.  `WellFormed` ties the holder and the queue to the map of
origins. -/

namespace SerialNexus

open List Function
open Std (ExtTreeMap)

namespace EndpointLock

inductive Op where
  | register (id : OriginId) (label : String) (mode : WriteMode)
  | unregister (id : OriginId)
  | acquire (id : OriginId)
  | enqueue (id : OriginId)
  | dequeue (id : OriginId)
  | steal (id : OriginId)
  | reclaimHeld (id : OriginId)
  | release (id : OriginId)
  | renew (id : OriginId)
  | recordPurge (id : OriginId) (bytes : ℕ)

def apply (l : EndpointLock) : Op → EndpointLock
  | .register id label mode => l.register id label mode
  | .unregister id => (l.unregister id).2
  | .acquire id => (l.acquire id).2
  | .enqueue id => l.enqueue id
  | .dequeue id => l.dequeue id
  | .steal id => (l.steal id).2
  | .reclaimHeld id => (l.reclaimHeld id).2
  | .release id => (l.release id).2
  | .renew id => (l.renew id).2
  | .recordPurge id bytes => l.recordPurge id bytes

def Allowed (l : EndpointLock) : Op → Prop
  | .register id _ _ => l.origins[id]? = none
  | _ => True

def machine : Runs.Machine EndpointLock Op where
  step := apply
  ok := Allowed

def Reachable (l : EndpointLock) : Prop := machine.Reachable (EndpointLock.new .exclusive) l

def Writer (l : EndpointLock) (id : OriginId) : Prop :=
  ∃ o, l.origins[id]? = some o ∧ o.writeMode ≠ .never

structure WellFormed (l : EndpointLock) : Prop where
  exclusive : l.arbitration = .exclusive
  holder_writer : ∀ i, l.holder = some i → l.Writer i
  holder_not_waiting : ∀ i, l.holder = some i → i ∉ l.waiters
  waiters_nodup : l.waiters.Nodup
  waiters_writer : ∀ w ∈ l.waiters, l.Writer w

theorem new_wellFormed : (EndpointLock.new .exclusive).WellFormed where
  exclusive := rfl
  holder_writer := by simp [EndpointLock.new]
  holder_not_waiting := by simp [EndpointLock.new]
  waiters_nodup := by simp [EndpointLock.new]
  waiters_writer := by simp [EndpointLock.new]

section steps
variable {l : EndpointLock}

variable {i id : OriginId}

theorem Writer.insert {o : Origin} (h : l.Writer i) (hne : l.origins[id]? = none) :
    ∃ o', (l.origins.insert id o)[i]? = some o' ∧ o'.writeMode ≠ .never := by
  obtain ⟨o', ho, hm⟩ := h
  have hid : id ≠ i := by
    rintro rfl
    rw [hne] at ho
    cases ho
  exact ⟨o', by simp [ExtTreeMap.getElem?_insert, hid, ho], hm⟩

theorem Writer.erase (h : l.Writer i) (hne : i ≠ id) :
    ∃ o', (l.origins.erase id)[i]? = some o' ∧ o'.writeMode ≠ .never := by
  obtain ⟨o', ho, hm⟩ := h
  exact ⟨o', by simp [ExtTreeMap.getElem?_erase, Ne.symm hne, ho], hm⟩

theorem register_wellFormed (hl : l.WellFormed) (label : String) (mode : WriteMode)
    (hid : l.origins[id]? = none) : (l.register id label mode).WellFormed := by
  have hnw : id ∉ l.waiters := by
    intro hw
    obtain ⟨o, ho, _⟩ := hl.waiters_writer id hw
    rw [hid] at ho
    cases ho
  unfold register
  split_ifs with hg
  · refine ⟨hl.exclusive, ?_, ?_, hl.waiters_nodup, fun w hw => (hl.waiters_writer w hw).insert hid⟩
    · rintro i hi
      obtain rfl : id = i := Option.some.inj hi
      exact ⟨⟨label, mode, 0⟩, by simp, by simp [hg.1]⟩
    · rintro i hi
      obtain rfl : id = i := Option.some.inj hi
      exact hnw
  · exact ⟨hl.exclusive, fun i hi => (hl.holder_writer i hi).insert hid, hl.holder_not_waiting,
      hl.waiters_nodup, fun w hw => (hl.waiters_writer w hw).insert hid⟩

theorem unregister_wellFormed (hl : l.WellFormed) (id : OriginId) :
    (l.unregister id).2.WellFormed := by
  have hnd : (l.waiters.filter (· ≠ id)).Nodup := hl.waiters_nodup.filter _
  have hw : ∀ w ∈ l.waiters.filter (· ≠ id),
      ∃ o', (l.origins.erase id)[w]? = some o' ∧ o'.writeMode ≠ .never := by
    intro w hw
    simp only [ne_eq, decide_not, mem_filter, Bool.not_eq_eq_eq_not, Bool.not_true,
      decide_eq_false_iff_not] at hw
    exact (hl.waiters_writer w hw.1).erase hw.2
  unfold unregister
  split_ifs with hh
  · exact ⟨hl.exclusive, by simp, by simp, hnd, hw⟩
  · refine ⟨hl.exclusive, ?_, ?_, hnd, hw⟩
    · intro i hi
      refine (hl.holder_writer i hi).erase ?_
      rintro rfl
      exact hh hi
    · intro i hi hmem
      exact hl.holder_not_waiting i hi (mem_of_mem_filter hmem)

theorem granted_wellFormed (hl : l.WellFormed) (hid : l.Writer id) {l' : EndpointLock}
    (ha : l'.arbitration = l.arbitration) (ho : l'.origins = l.origins) (hh : l'.holder = some id)
    (hw : l'.waiters = l.waiters.filter (· ≠ id)) : l'.WellFormed where
  exclusive := ha.trans hl.exclusive
  holder_writer i hi := by
    rw [hh, Option.some.injEq] at hi
    subst hi
    unfold Writer
    rw [ho]
    exact hid
  holder_not_waiting i hi := by
    rw [hh, Option.some.injEq] at hi
    simp [hw, hi]
  waiters_nodup := by
    rw [hw]
    exact hl.waiters_nodup.filter _
  waiters_writer w hmem := by
    rw [hw] at hmem
    unfold Writer
    rw [ho]
    exact hl.waiters_writer w (mem_of_mem_filter hmem)

theorem grantTo_wellFormed (hl : l.WellFormed) (hid : l.Writer id) : (l.grantTo id).WellFormed :=
  granted_wellFormed hl hid rfl rfl rfl rfl

theorem acquire_cases (l : EndpointLock) (id : OriginId) :
    (l.acquire id).2 = l ∨
      (l.Writer id ∧ l.holder = none ∧ l.acquire id = (.granted, l.grantTo id)) := by
  unfold acquire
  cases ho : l.origins[id]? with
  | none => exact .inl rfl
  | some o =>
    dsimp only
    by_cases hn : o.writeMode = .never
    · exact .inl (by rw [if_pos hn])
    rw [if_neg hn]
    by_cases hf : l.arbitration = .freeForAll
    · exact .inl (by rw [if_pos hf])
    rw [if_neg hf]
    have hw : l.Writer id := ⟨o, ho, hn⟩
    cases hh : l.holder with
    | some h => exact .inl (by dsimp only; split_ifs <;> rfl)
    | none =>
      dsimp only
      split_ifs
      · exact .inr ⟨hw, rfl, rfl⟩
      · cases l.heldOriginOtherThan id with
        | some held => exact .inl rfl
        | none =>
          dsimp only
          cases l.waiters.head? with
          | none => exact .inr ⟨hw, rfl, rfl⟩
          | some front =>
            dsimp only
            split_ifs
            · exact .inl rfl
            · exact .inr ⟨hw, rfl, rfl⟩

theorem acquire_answer (hex : l.arbitration = .exclusive) (id : OriginId) :
    match (l.acquire id).1 with
    | .granted => l.Writer id ∧ l.holder = none ∧ (l.acquire id).2 = l.grantTo id
    | .alreadyHeld => l.Writer id ∧ l.holder = some id ∧ (l.acquire id).2 = l
    | .denied _ => l.Writer id ∧ l.holder ≠ some id ∧ (l.acquire id).2 = l
    | .readOnly => l.writeMode id = some .never ∧ (l.acquire id).2 = l
    | .unregistered => l.writeMode id = none ∧ (l.acquire id).2 = l := by
  have hnf : l.arbitration ≠ .freeForAll := by simp [hex]
  unfold acquire writeMode
  cases ho : l.origins[id]? with
  | none => exact ⟨rfl, rfl⟩
  | some o =>
    dsimp only
    by_cases hn : o.writeMode = .never
    · rw [if_pos hn]
      exact ⟨by simp [hn], rfl⟩
    rw [if_neg hn, if_neg hnf]
    have hw : l.Writer id := ⟨o, ho, hn⟩
    cases hh : l.holder with
    | some h =>
      by_cases heq : h = id
      · subst heq
        simpa using hw
      · simpa [heq] using hw
    | none =>
      have hne : (none : Option OriginId) ≠ some id := nofun
      by_cases hm : o.writeMode = .held
      · simpa [hm] using hw
      · cases hother : l.heldOriginOtherThan id with
        | some held => simpa [hm] using hw
        | none =>
          cases hfront : l.waiters.head? with
          | none => simpa [hm] using hw
          | some front =>
            by_cases hf : front = id
            · simpa [hm, hf] using hw
            · simpa [hm, hf] using hw

theorem steal_answer (l : EndpointLock) (id : OriginId) :
    match (l.steal id).1 with
    | .stolen _ => l.arbitration = .exclusive → (l.steal id).2.holder = some id
    | .alreadyHeld => l.holder = some id ∧ (l.steal id).2 = l
    | .readOnly => (l.steal id).2 = l := by
  rw [steal]
  cases ho : l.origins[id]? with
  | none => rfl
  | some o =>
    dsimp only
    by_cases hn : o.writeMode = .never
    · rw [if_pos hn]
    rw [if_neg hn]
    by_cases hf : l.arbitration = .freeForAll
    · rw [if_pos hf]
      intro hex
      rw [hf] at hex
      cases hex
    rw [if_neg hf]
    by_cases hh : l.holder = some id
    · rw [if_pos hh]
      exact ⟨hh, rfl⟩
    · rw [if_neg hh]
      exact fun _ => rfl

theorem steal_holder (hex : l.arbitration = .exclusive) (hid : l.Writer id) :
    (l.steal id).2.holder = some id := by
  obtain ⟨o, ho, hn⟩ := hid
  simp only [steal, ho, hn, hex, if_false, reduceCtorEq]
  split_ifs with hh
  · exact hh
  · rfl

theorem acquire_wellFormed (hl : l.WellFormed) (id : OriginId) : (l.acquire id).2.WellFormed := by
  rcases l.acquire_cases id with h | ⟨hw, _, h⟩
  · rw [h]; exact hl
  · rw [h]; exact grantTo_wellFormed hl hw

theorem enqueue_wellFormed (hl : l.WellFormed) (id : OriginId) : (l.enqueue id).WellFormed := by
  unfold enqueue
  cases ho : l.origins[id]? with
  | none => exact hl
  | some o =>
    dsimp only
    split_ifs with hn hq
    · exact hl
    · push Not at hq
      obtain ⟨hnh, hnq⟩ := hq
      refine ⟨hl.exclusive, hl.holder_writer, ?_, ?_, ?_⟩
      · intro i hi hmem
        rcases mem_append.mp hmem with h | h
        · exact hl.holder_not_waiting i hi h
        · rw [mem_singleton] at h
          exact hnh (h ▸ hi)
      · rw [nodup_append]
        refine ⟨hl.waiters_nodup, by simp, ?_⟩
        rintro a ha b hb rfl
        exact hnq (mem_singleton.mp hb ▸ ha)
      · intro w hw
        rcases mem_append.mp hw with h | h
        · exact hl.waiters_writer w h
        · rw [mem_singleton] at h
          exact ⟨o, h ▸ ho, hn⟩
    · exact hl

theorem dequeue_wellFormed (hl : l.WellFormed) (id : OriginId) : (l.dequeue id).WellFormed where
  exclusive := hl.exclusive
  holder_writer := hl.holder_writer
  holder_not_waiting i hi hmem := hl.holder_not_waiting i hi (mem_of_mem_filter hmem)
  waiters_nodup := hl.waiters_nodup.filter _
  waiters_writer w hw := hl.waiters_writer w (mem_of_mem_filter hw)

theorem steal_wellFormed (hl : l.WellFormed) (id : OriginId) : (l.steal id).2.WellFormed := by
  unfold steal
  cases ho : l.origins[id]? with
  | none => exact hl
  | some o =>
    dsimp only
    split_ifs with hn hf hh
    · exact hl
    · exact hl
    · exact hl
    · exact granted_wellFormed hl ⟨o, ho, hn⟩ rfl rfl rfl rfl

theorem reclaimHeld_wellFormed (hl : l.WellFormed) (id : OriginId) :
    (l.reclaimHeld id).2.WellFormed := by
  unfold reclaimHeld
  cases ho : l.origins[id]? with
  | none => exact hl
  | some o =>
    dsimp only
    split_ifs with hm hf hh
    · exact hl
    · exact grantTo_wellFormed hl ⟨o, ho, by simp [hm]⟩
    · exact hl
    · exact hl

theorem release_wellFormed (hl : l.WellFormed) (id : OriginId) : (l.release id).2.WellFormed := by
  unfold release
  split_ifs
  · exact ⟨hl.exclusive, by simp, by simp, hl.waiters_nodup, hl.waiters_writer⟩
  · exact hl

theorem renew_wellFormed (hl : l.WellFormed) (id : OriginId) : (l.renew id).2.WellFormed := by
  unfold renew
  split_ifs
  · exact ⟨hl.exclusive, hl.holder_writer, hl.holder_not_waiting, hl.waiters_nodup,
      hl.waiters_writer⟩
  · exact hl

theorem Writer.recordPurge {i : OriginId} (h : l.Writer i) (id : OriginId) (bytes : ℕ) :
    (l.recordPurge id bytes).Writer i := by
  obtain ⟨o, ho, hm⟩ := h
  unfold Writer EndpointLock.recordPurge
  by_cases hid : id = i
  · subst hid
    exact ⟨{ o with purged := saturatingAdd o.purged bytes },
      by simp [ho], hm⟩
  · exact ⟨o, by simp [ExtTreeMap.getElem?_modify, hid, ho], hm⟩

theorem recordPurge_wellFormed (hl : l.WellFormed) (id : OriginId) (bytes : ℕ) :
    (l.recordPurge id bytes).WellFormed where
  exclusive := hl.exclusive
  holder_writer i hi := (hl.holder_writer i hi).recordPurge id bytes
  holder_not_waiting := hl.holder_not_waiting
  waiters_nodup := hl.waiters_nodup
  waiters_writer w hw := (hl.waiters_writer w hw).recordPurge id bytes

end steps

theorem apply_wellFormed {l : EndpointLock} (hl : l.WellFormed) (op : Op) (ha : l.Allowed op) :
    (l.apply op).WellFormed := by
  cases op with
  | register id label mode => exact register_wellFormed hl label mode ha
  | unregister id => exact unregister_wellFormed hl id
  | acquire id => exact acquire_wellFormed hl id
  | enqueue id => exact enqueue_wellFormed hl id
  | dequeue id => exact dequeue_wellFormed hl id
  | steal id => exact steal_wellFormed hl id
  | reclaimHeld id => exact reclaimHeld_wellFormed hl id
  | release id => exact release_wellFormed hl id
  | renew id => exact renew_wellFormed hl id
  | recordPurge id bytes => exact recordPurge_wellFormed hl id bytes

theorem Reachable.wellFormed {l : EndpointLock} (h : Reachable l) : l.WellFormed :=
  Runs.Machine.Reachable.invariant h new_wellFormed fun _ op hl ha => apply_wellFormed hl op ha

section registrations

variable (l : EndpointLock)

theorem mem_origins_iff (i : OriginId) : i ∈ l.origins ↔ (l.writeMode i).isSome := by
  rw [writeMode, Option.isSome_map, ExtTreeMap.mem_iff_isSome_getElem?]

theorem writer_iff (i : OriginId) : l.Writer i ↔ ∃ mode, l.writeMode i = some mode ∧ mode ≠ .never := by
  simp only [Writer, writeMode, Option.map_eq_some_iff]
  constructor
  · rintro ⟨o, ho, hm⟩
    exact ⟨_, ⟨o, ho, rfl⟩, hm⟩
  · rintro ⟨_, ⟨o, ho, rfl⟩, hm⟩
    exact ⟨o, ho, hm⟩

theorem register_origins (id : OriginId) (label : String) (mode : WriteMode) :
    (l.register id label mode).origins = l.origins.insert id ⟨label, mode, 0⟩ := by
  unfold register
  dsimp only
  split_ifs <;> rfl

theorem unregister_origins (id : OriginId) : (l.unregister id).2.origins = l.origins.erase id := by
  unfold unregister
  dsimp only
  split_ifs <;> rfl

theorem register_writeMode (id : OriginId) (label : String) (mode : WriteMode) :
    (l.register id label mode).writeMode = update l.writeMode id (some mode) := by
  funext i
  unfold writeMode
  rw [register_origins, ExtTreeMap.getElem?_insert]
  by_cases h : i = id
  · simp [h]
  · simp [h, Ne.symm h]

theorem unregister_writeMode (id : OriginId) :
    (l.unregister id).2.writeMode = update l.writeMode id none := by
  funext i
  unfold writeMode
  rw [unregister_origins, ExtTreeMap.getElem?_erase]
  by_cases h : i = id
  · simp [h]
  · simp [h, Ne.symm h]

theorem recordPurge_writeMode (id : OriginId) (bytes : ℕ) :
    (l.recordPurge id bytes).writeMode = l.writeMode := by
  funext i
  unfold writeMode recordPurge
  by_cases h : id = i
  · subst h
    simp [Option.map_map, Function.comp_def]
  · simp [ExtTreeMap.getElem?_modify, h]

def Op.modes (modes : OriginId → Option WriteMode) : Op → OriginId → Option WriteMode
  | .register id _ mode => update modes id (some mode)
  | .unregister id => update modes id none
  | _ => modes

theorem apply_writeMode (op : Op) : (l.apply op).writeMode = op.modes l.writeMode := by
  have hsame : ∀ l' : EndpointLock, l'.origins = l.origins → l'.writeMode = l.writeMode := by
    intro l' ho
    funext i
    rw [writeMode, writeMode, ho]
  cases op with
  | register id label mode => exact l.register_writeMode id label mode
  | unregister id => exact l.unregister_writeMode id
  | acquire id =>
    rcases l.acquire_cases id with h | ⟨-, -, h⟩
    · exact congrArg writeMode h
    · exact hsame _ (congrArg (fun r => r.2.origins) h)
  | enqueue id =>
    refine hsame _ ?_
    simp only [apply, enqueue]
    split
    · split_ifs <;> rfl
    · rfl
  | dequeue id => exact hsame _ rfl
  | steal id =>
    refine hsame _ ?_
    simp only [apply, steal]
    split
    · rfl
    · split_ifs <;> rfl
  | reclaimHeld id =>
    refine hsame _ ?_
    simp only [apply, reclaimHeld]
    split
    · split_ifs <;> rfl
    · rfl
  | release id =>
    refine hsame _ ?_
    simp only [apply, release]
    split_ifs <;> rfl
  | renew id =>
    refine hsame _ ?_
    simp only [apply, renew]
    split_ifs <;> rfl
  | recordPurge id bytes => exact l.recordPurge_writeMode id bytes

end registrations

section exclusivity
variable {l : EndpointLock}

theorem WellFormed.mayWrite_iff (hl : l.WellFormed) (id : OriginId) :
    l.mayWrite id = true ↔ l.holder = some id := by
  unfold mayWrite
  rw [hl.exclusive]
  constructor
  · intro h
    cases ho : l.origins[id]? with
    | none => simp [ho] at h
    | some o =>
      simp only [ho] at h
      split_ifs at h with hn
      exact of_decide_eq_true h
  · intro h
    obtain ⟨o, ho, hm⟩ := hl.holder_writer id h
    simp [ho, hm, h]

theorem snapshot_holdsLock (l : EndpointLock) :
    l.snapshot.origins.map (·.holdsLock) =
      l.origins.keys.map (fun id => decide (l.holder = some id)) := by
  simp only [snapshot, map_map, ← ExtTreeMap.map_fst_toList_eq_keys]
  rfl

theorem WellFormed.countP_holdsLock (hl : l.WellFormed) :
    l.snapshot.origins.countP (·.holdsLock) = if l.holder.isSome then 1 else 0 := by
  have hcount : l.snapshot.origins.countP (·.holdsLock) =
      l.origins.keys.countP (fun id => decide (l.holder = some id)) := by
    have := congrArg (List.countP id) l.snapshot_holdsLock
    simpa [countP_map, Function.comp_def] using this
  have hnd : l.origins.keys.Nodup := by
    have := ExtTreeMap.distinct_keys (t := l.origins)
    simpa [List.Nodup] using this
  rw [hcount]
  cases hh : l.holder with
  | none => simp
  | some i =>
    obtain ⟨o, ho, _⟩ := hl.holder_writer i hh
    have hmem : i ∈ l.origins.keys := by
      rw [ExtTreeMap.mem_keys, ExtTreeMap.mem_iff_isSome_getElem?, ho]
      rfl
    have hc : l.origins.keys.countP (fun id => decide (some i = some id)) =
        l.origins.keys.count i := by
      rw [List.count]
      congr 1
      funext id
      by_cases h : i = id
      · simp [h]
      · simp [h, Ne.symm h]
    rw [hc, count_eq_one_of_mem hnd hmem]
    rfl

theorem WellFormed.snapshot_waiters (hl : l.WellFormed) :
    l.snapshot.waiters.map some = l.waiters.map l.label := by
  have key : ∀ ws : List OriginId, (∀ w ∈ ws, l.Writer w) →
      (ws.filterMap l.label).map some = ws.map l.label := by
    intro ws
    induction ws with
    | nil => intro _; rfl
    | cons w ws ih =>
      intro h
      obtain ⟨o, ho, _⟩ := h w mem_cons_self
      have hlab : l.label w = some o.label := by simp [label, ho]
      rw [filterMap_cons_some hlab, map_cons, map_cons, hlab,
        ih fun w' hw' => h w' (mem_cons_of_mem _ hw')]
  exact key l.waiters hl.waiters_writer

end exclusivity

theorem write_exclusivity (l : EndpointLock) (h : Reachable l) :
    (∀ i j, l.mayWrite i = true → l.mayWrite j = true → i = j) ∧
    (∀ i, l.holder = some i → l.Writer i ∧ l.mayWrite i = true ∧ i ∉ l.waiters) ∧
    l.waiters.Nodup ∧ (∀ w ∈ l.waiters, l.Writer w) ∧
    l.snapshot.origins.map (·.holdsLock) =
      l.origins.keys.map (fun id => decide (l.holder = some id)) ∧
    l.snapshot.origins.countP (·.holdsLock) = (if l.holder.isSome then 1 else 0) ∧
    l.snapshot.waiters.map some = l.waiters.map l.label := by
  have hl := h.wellFormed
  refine ⟨?_, ?_, hl.waiters_nodup, hl.waiters_writer, l.snapshot_holdsLock, hl.countP_holdsLock,
    hl.snapshot_waiters⟩
  · intro i j hi hj
    rw [hl.mayWrite_iff] at hi hj
    exact Option.some.inj (hi.symm.trans hj)
  · intro i hi
    exact ⟨hl.holder_writer i hi, (hl.mayWrite_iff i).mpr hi, hl.holder_not_waiting i hi⟩

def twoSendsOps : List Op :=
  [.register 7 "send" .onDemand, .register 8 "send" .onDemand, .acquire 7, .enqueue 8, .renew 7]

def twoSends : EndpointLock := machine.run (EndpointLock.new .exclusive) twoSendsOps

theorem twoSends_reachable : Reachable twoSends :=
  ⟨twoSendsOps, .cons rfl (.cons rfl (.cons trivial (.cons trivial (.cons trivial trivial)))), rfl⟩

theorem write_exclusivity_twoSends :
    twoSends.holder = some 7 ∧ twoSends.waiters = [8] ∧
      twoSends.snapshot.origins.countP (·.holdsLock) = 1 :=
  ⟨by decide, by decide, (write_exclusivity twoSends twoSends_reachable).2.2.2.2.2.1⟩

section priority
variable {l : EndpointLock}

theorem heldOriginOtherThan_eq_none_iff (l : EndpointLock) (except : OriginId) :
    l.heldOriginOtherThan except = none ↔
      ∀ (id : OriginId) (o : Origin), l.origins[id]? = some o → id ≠ except → o.writeMode ≠ .held := by
  unfold heldOriginOtherThan
  rw [findSome?_eq_none_iff]
  constructor
  · intro h id o ho hne hm
    have := h (id, o) (ExtTreeMap.mem_toList_iff_getElem?_eq_some.mpr ho)
    simp [hne, hm] at this
  · rintro h ⟨id, o⟩ hmem
    have ho := ExtTreeMap.mem_toList_iff_getElem?_eq_some.mp hmem
    refine if_neg ?_
    rintro ⟨hne, hm⟩
    exact h id o ho hne hm

variable {i : OriginId} {o : Origin}

theorem acquire_onDemand_ne_granted (hx : l.arbitration = .exclusive) {h : OriginId}
    {oh oi : Origin} (hh : l.origins[h]? = some oh) (hmh : oh.writeMode = .held)
    (hi : l.origins[i]? = some oi) (hmi : oi.writeMode = .onDemand) :
    (l.acquire i).1 ≠ .granted := by
  have hne : h ≠ i := by
    rintro rfl
    rw [hh, Option.some.injEq] at hi
    subst hi
    rw [hmh] at hmi
    cases hmi
  have hfound : l.heldOriginOtherThan i ≠ none := by
    rw [ne_eq, heldOriginOtherThan_eq_none_iff]
    exact fun hall => hall h oh hh hne hmh
  unfold acquire
  simp only [hi, hmi, hx, reduceCtorEq, if_false]
  cases l.holder with
  | some j => dsimp only; split_ifs <;> simp
  | none =>
    cases hf : l.heldOriginOtherThan i with
    | none => exact absurd hf hfound
    | some held => simp

theorem acquire_held_of_free (hx : l.arbitration = .exclusive) (hfree : l.holder = none)
    (hi : l.origins[i]? = some o) (hm : o.writeMode = .held) :
    l.acquire i = (.granted, l.grantTo i) := by
  unfold acquire
  simp [hi, hm, hx, hfree]

theorem acquire_front_of_free (hx : l.arbitration = .exclusive) (hfree : l.holder = none)
    (hno : ∀ (id : OriginId) (o : Origin), l.origins[id]? = some o → o.writeMode ≠ .held)
    (hi : l.Writer i) (hfront : l.waiters.head? = none ∨ l.waiters.head? = some i) :
    l.acquire i = (.granted, l.grantTo i) := by
  obtain ⟨o, ho, hm⟩ := hi
  have hnone : l.heldOriginOtherThan i = none := by
    rw [heldOriginOtherThan_eq_none_iff]
    exact fun id o ho _ => hno id o ho
  unfold acquire
  rcases hfront with hf | hf <;> simp [ho, hm, hx, hfree, hno i o ho, hnone, hf]

theorem WellFormed.exists_acquire_granted (hl : l.WellFormed) (hfree : l.holder = none)
    (hi : l.Writer i) : ∃ j : OriginId, l.origins[j]?.isSome ∧ (l.acquire j).1 = .granted := by
  by_cases hheld : ∃ (j : OriginId) (o : Origin), l.origins[j]? = some o ∧ o.writeMode = .held
  · obtain ⟨j, o, ho, hm⟩ := hheld
    exact ⟨j, by simp [ho], by rw [acquire_held_of_free hl.exclusive hfree ho hm]⟩
  · have hno : ∀ (id : OriginId) (o : Origin), l.origins[id]? = some o → o.writeMode ≠ .held :=
      fun id o ho hm => hheld ⟨id, o, ho, hm⟩
    have htake : ∀ j, l.Writer j → l.waiters.head? = none ∨ l.waiters.head? = some j →
        ∃ j : OriginId, l.origins[j]?.isSome ∧ (l.acquire j).1 = .granted := by
      intro j hj hfront
      obtain ⟨o, ho, _⟩ := id hj
      exact ⟨j, by simp [ho], by rw [acquire_front_of_free hl.exclusive hfree hno hj hfront]⟩
    cases hw : l.waiters with
    | nil => exact htake i hi (.inl (by rw [hw]; rfl))
    | cons w ws =>
      exact htake w (hl.waiters_writer w (by rw [hw]; exact mem_cons_self))
        (.inr (by rw [hw]; rfl))

theorem acquire_held_reclaimHeld (hx : l.arbitration = .exclusive) (hi : l.origins[i]? = some o)
    (hm : o.writeMode = .held) :
    ((l.acquire i).1 = .granted ↔ (l.reclaimHeld i).1 = true) ∧
      (l.acquire i).2 = (l.reclaimHeld i).2 := by
  cases hh : l.holder with
  | none =>
    rw [acquire_held_of_free hx hh hi hm]
    simp [reclaimHeld, hi, hm, hx, hh]
  | some h =>
    unfold acquire reclaimHeld
    simp only [hi, hm, hx, hh, reduceCtorEq, if_false, if_true]
    split_ifs <;> simp

end priority

theorem held_priority (l : EndpointLock) (h : Reachable l) :
    (∀ (k : OriginId) (ok : Origin) (i : OriginId) (oi : Origin), l.origins[k]? = some ok → ok.writeMode = .held →
      l.origins[i]? = some oi → oi.writeMode = .onDemand → (l.acquire i).1 ≠ .granted) ∧
    (l.holder = none → (∃ i, l.Writer i) →
      ∃ j : OriginId, l.origins[j]?.isSome ∧ (l.acquire j).1 = .granted) ∧
    (∀ (i : OriginId) (o : Origin), l.origins[i]? = some o → o.writeMode = .held →
      ((l.acquire i).1 = .granted ↔ (l.reclaimHeld i).1 = true) ∧
        (l.acquire i).2 = (l.reclaimHeld i).2) := by
  have hl := h.wellFormed
  refine ⟨?_, ?_, ?_⟩
  · intro k ok i oi hk hmk hi hmi
    exact acquire_onDemand_ne_granted hl.exclusive hk hmk hi hmi
  · rintro hfree ⟨i, hi⟩
    exact hl.exists_acquire_granted hfree hi
  · intro i o hi hm
    exact acquire_held_reclaimHeld hl.exclusive hi hm

def oustedDemuxOps : List Op :=
  [.register 0 "mux" .held, .register 1 "pty" .onDemand, .enqueue 1, .steal 1, .release 1]

def oustedDemux : EndpointLock := machine.run (EndpointLock.new .exclusive) oustedDemuxOps

theorem oustedDemux_reachable : Reachable oustedDemux :=
  ⟨oustedDemuxOps, .cons rfl (.cons rfl (.cons trivial (.cons trivial (.cons trivial trivial)))), rfl⟩

theorem held_priority_oustedDemux :
    oustedDemux.holder = none ∧ (oustedDemux.acquire 1).1 = .denied 0 ∧
      ∃ j : OriginId, oustedDemux.origins[j]?.isSome ∧ (oustedDemux.acquire j).1 = .granted :=
  ⟨by decide, by decide,
    (held_priority oustedDemux oustedDemux_reachable).2.1 (by decide) ⟨0, ⟨"mux", .held, 0⟩, by decide⟩⟩

def HolderWrites (l : EndpointLock) : Prop := ∀ i, l.holder = some i → l.Writer i

section holder
variable {l : EndpointLock}

theorem HolderWrites.of_holder (h : l.HolderWrites) {l' : EndpointLock}
    (ho : l'.origins = l.origins)
    (hh : ∀ i, l'.holder = some i → l.holder = some i ∨ l.Writer i) : l'.HolderWrites := by
  intro i hi
  unfold Writer
  rw [ho]
  exact (hh i hi).elim (h i) id

theorem apply_holderWrites (h : l.HolderWrites) (op : Op) (ha : l.Allowed op) :
    (l.apply op).HolderWrites := by
  cases op with
  | register id label mode =>
    intro i hi
    simp only [apply, register] at hi ⊢
    split_ifs at hi ⊢ with hg
    · obtain rfl : id = i := Option.some.inj hi
      exact ⟨⟨label, mode, 0⟩, by simp, by simp [hg.1]⟩
    · exact (h i hi).insert ha
  | unregister id =>
    simp only [apply, unregister]
    split_ifs with hh
    · exact nofun
    · intro i hi
      refine (h i hi).erase ?_
      rintro rfl
      exact hh hi
  | acquire id =>
    rcases l.acquire_cases id with he | ⟨hw, -, he⟩
    · simp only [apply, he]
      exact h
    · simp only [apply, he]
      refine h.of_holder rfl fun i hi => .inr ?_
      obtain rfl : id = i := Option.some.inj hi
      exact hw
  | enqueue id =>
    simp only [apply, enqueue]
    split
    · split_ifs
      · exact h
      · exact h.of_holder rfl fun i hi => .inl hi
      · exact h
    · exact h
  | dequeue id => exact h.of_holder rfl fun i hi => .inl hi
  | steal id =>
    simp only [apply, steal]
    split
    · exact h
    · next o ho =>
      split_ifs with hn
      · exact h
      · exact h
      · exact h
      · refine h.of_holder rfl fun i hi => .inr ?_
        obtain rfl : id = i := Option.some.inj hi
        exact ⟨o, ho, hn⟩
  | reclaimHeld id =>
    simp only [apply, reclaimHeld]
    split
    · next o ho =>
      split_ifs with hm
      · exact h
      · refine h.of_holder rfl fun i hi => .inr ?_
        obtain rfl : id = i := Option.some.inj hi
        exact ⟨o, ho, by simp [hm]⟩
      · exact h
      · exact h
    · exact h
  | release id =>
    simp only [apply, release]
    split_ifs
    · exact h.of_holder rfl nofun
    · exact h
  | renew id =>
    simp only [apply, renew]
    split_ifs
    · exact h.of_holder rfl fun i hi => .inl hi
    · exact h
  | recordPurge id bytes => exact fun i hi => (h i hi).recordPurge id bytes

theorem new_holderWrites (arbitration : Arbitration) : (EndpointLock.new arbitration).HolderWrites :=
  nofun

variable {id : OriginId}

theorem acquire_refused (h : ¬ l.Writer id) :
    l.acquire id = (.unregistered, l) ∨ l.acquire id = (.readOnly, l) := by
  unfold acquire
  cases ho : l.origins[id]? with
  | none => exact .inl rfl
  | some o =>
    have hn : o.writeMode = .never := by
      by_contra hn
      exact h ⟨o, ho, hn⟩
    exact .inr (if_pos hn)

theorem acquire_of_writer (h : l.Writer id) :
    (l.acquire id).1 = .granted ∨ (l.acquire id).1 = .alreadyHeld ∨
      ∃ other, (l.acquire id).1 = .denied other := by
  obtain ⟨o, ho, hn⟩ := h
  unfold acquire
  rw [ho]
  dsimp only
  rw [if_neg hn]
  by_cases hf : l.arbitration = .freeForAll
  · rw [if_pos hf]
    exact .inl rfl
  rw [if_neg hf]
  cases l.holder with
  | some holder =>
    dsimp only
    split_ifs
    · exact .inr (.inl rfl)
    · exact .inr (.inr ⟨_, rfl⟩)
  | none =>
    dsimp only
    by_cases hm : o.writeMode = .held
    · rw [if_pos hm]
      exact .inl rfl
    rw [if_neg hm]
    cases l.heldOriginOtherThan id with
    | some held => exact .inr (.inr ⟨_, rfl⟩)
    | none =>
      cases l.waiters.head? with
      | none => exact .inl rfl
      | some front =>
        dsimp only
        split_ifs
        · exact .inr (.inr ⟨_, rfl⟩)
        · exact .inl rfl

theorem mayWrite_writer (h : l.mayWrite id = true) : l.Writer id := by
  unfold mayWrite at h
  split at h
  · cases h
  · next o ho =>
    split_ifs at h with hn
    exact ⟨o, ho, hn⟩

end holder

end EndpointLock
end SerialNexus
