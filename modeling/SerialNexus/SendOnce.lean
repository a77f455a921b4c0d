import SerialNexus.DaemonFrame
import SerialNexus.LockFairness
import SerialNexus.SendVerb

/-! # A send is all or nothing

`Moves` says what one step of a `send` can do: it changes the registration of its own origin only,
it puts its line into the channel exactly if it replies with success, and once it is over its origin
is gone and the waiters were woken if nobody holds the lock. -/

namespace SerialNexus

open List Function EndpointLock

theorem EndpointLock.Confined.absent {l : EndpointLock} (h : l.Confined) {x : OriginId}
    (hx : l.writeMode x = none) : l.holder ≠ some x ∧ x ∉ l.waiters := by
  have hout : x ∉ l.origins := by
    intro hmem
    rw [writeMode, Option.map_eq_none_iff] at hx
    rw [Std.ExtTreeMap.mem_iff_isSome_getElem?, hx] at hmem
    cases hmem
  exact ⟨fun hholder => hout (h.holder x hholder), fun hwaits => hout (h.waiters x hwaits)⟩

namespace SendVerb

variable (v : SendVerb)

@[simp] theorem notify_params : v.notify.params = v.params := by
  unfold notify
  split <;> rfl

@[simp] theorem notify_id : v.notify.id = v.id := by
  unfold notify
  split <;> rfl

@[simp] theorem notify_over : v.notify.phase.over = v.phase.over := by
  unfold notify
  split
  · next h => rw [h]; rfl
  · rfl

@[simp] theorem notify_notify : v.notify.notify = v.notify := by
  obtain ⟨params, id, phase⟩ := v
  cases phase <;> rfl

def puts : List Chunk :=
  match v.phase with
  | .done (.ok _) => [v.params.bytes]
  | _ => []

@[simp] theorem notify_puts : v.notify.puts = v.puts := by
  obtain ⟨params, id, phase⟩ := v
  cases phase <;> rfl

end SendVerb

namespace SendWorld

variable {s s' s'' : SendWorld} {k : ℕ} {v : SendVerb} {id : OriginId} {debug : String → String}

/-- What was put into the channel has left it or is in its queue, in order. -/
def Tied (s : SendWorld) : Prop := s.left ++ s.queue.queue = s.entered.map Prod.snd

theorem Tied.trySend (h : s.Tied) {chunk : Chunk} {queue : Channel Chunk}
    (hsend : s.queue.trySend chunk = (.ok, queue)) (sender : Option ℕ) :
    Tied { s with queue, entered := s.entered ++ [(sender, chunk)] } := by
  unfold Tied at h ⊢
  rw [Channel.queue_of_trySend_ok hsend, map_append, ← h, ← append_assoc]
  rfl

def Spares (s s' : SendWorld) (j : ℕ) : Prop :=
  s'.verbs j = s.verbs j ∨ s'.verbs j = (s.verbs j).map SendVerb.notify

variable {j : ℕ} {phase : SendPhase}

theorem Spares.trans (h : Spares s s' j) (h' : Spares s' s'' j) : Spares s s'' j := by
  unfold Spares at h h' ⊢
  rcases h with h | h
  · rwa [h] at h'
  · refine .inr ?_
    rcases h' with h' | h'
    · rw [h', h]
    · rw [h', h, Option.map_map]
      congr 1
      funext v
      exact v.notify_notify

structure Prepares (id : OriginId) (s s' : SendWorld) : Prop where
  confined : s.lock.Confined → s'.lock.Confined
  modes : ∀ x ≠ id, s'.lock.writeMode x = s.lock.writeMode x
  spares : ∀ j, Spares s s' j
  attached : s'.attached = s.attached
  next : s'.nextSendOrigin = s.nextSendOrigin
  entered : s'.entered = s.entered
  channel : s'.queue = s.queue ∧ s'.left = s.left
  wakes : s.wakes ≤ s'.wakes

theorem Prepares.refl (id : OriginId) (s : SendWorld) : Prepares id s s :=
  ⟨fun h => h, fun _ _ => rfl, fun _ => .inl rfl, rfl, rfl, rfl, ⟨rfl, rfl⟩, le_rfl⟩

theorem Prepares.tied (h : Prepares id s s') (hs : s.Tied) : s'.Tied := by
  unfold Tied
  rw [h.channel.1, h.channel.2, h.entered]
  exact hs

theorem Prepares.trans (h : Prepares id s s') (h' : Prepares id s' s'') : Prepares id s s'' where
  confined hs := h'.confined (h.confined hs)
  modes x hx := (h'.modes x hx).trans (h.modes x hx)
  spares j := (h.spares j).trans (h'.spares j)
  attached := h'.attached.trans h.attached
  next := h'.next.trans h.next
  entered := h'.entered.trans h.entered
  channel := ⟨h'.channel.1.trans h.channel.1, h'.channel.2.trans h.channel.2⟩
  wakes := h.wakes.trans h'.wakes

theorem Prepares.apply (s : SendWorld) (op : Op) : Prepares op.origin s (s.withLock (s.lock.apply op)) where
  confined h := confined_stable.apply s.lock op h
  modes x hx := by
    change (s.lock.apply op).writeMode x = _
    rw [apply_writeMode]
    cases op with
    | register | unregister => exact update_of_ne hx _ _
    | _ => rfl
  spares _ := .inl rfl
  attached := rfl
  next := rfl
  entered := rfl
  channel := ⟨rfl, rfl⟩
  wakes := le_rfl

theorem Prepares.wake (id : OriginId) (s : SendWorld) : Prepares id s s.wake :=
  ⟨fun h => h, fun _ _ => rfl, fun _ => .inr rfl, rfl, rfl, rfl, ⟨rfl, rfl⟩, Nat.le_succ _⟩

theorem Prepares.wakeIfFree (id : OriginId) (s : SendWorld) : Prepares id s s.wakeIfFree := by
  unfold SendWorld.wakeIfFree
  split_ifs
  · exact .wake id s
  · exact .refl id s

theorem Prepares.dropWaiter (s : SendWorld) (id : OriginId) : Prepares id s (s.dropWaiter id) :=
  (Prepares.apply s (.dequeue id)).trans (.wakeIfFree id _)

def Leaves (id : OriginId) (s s' : SendWorld) : Prop :=
  s'.lock.writeMode id = none ∧ (s'.lock.holder = none → s.wakes < s'.wakes)

theorem unregistered (l : EndpointLock) (id : OriginId) : (l.unregister id).2.writeMode id = none := by
  rw [unregister_writeMode, update_self]

theorem cleanUp_leaves (s : SendWorld) (id : OriginId) :
    Prepares id s (s.cleanUp id) ∧ Leaves id s (s.cleanUp id) :=
  ⟨(Prepares.apply s (.unregister id)).trans (.wake id _),
    unregistered s.lock id, fun _ => Nat.lt_succ_self _⟩

theorem dropTransient_leaves (s : SendWorld) (id : OriginId) :
    Prepares id s (s.dropTransient id) ∧ Leaves id s (s.dropTransient id) := by
  refine ⟨(Prepares.apply s (.unregister id)).trans (.wakeIfFree id _), ?_⟩
  unfold SendWorld.dropTransient SendWorld.wakeIfFree
  split_ifs with hfree
  · exact ⟨unregistered s.lock id, fun _ => Nat.lt_succ_self _⟩
  · exact ⟨unregistered s.lock id, fun h => absurd h hfree⟩

structure Moves (k : ℕ) (v : SendVerb) (id : OriginId) (s s' : SendWorld) : Prop where
  confined : s.lock.Confined → s'.lock.Confined
  modes : ∀ x ≠ id, s'.lock.writeMode x = s.lock.writeMode x
  spares : ∀ j ≠ k, Spares s s' j
  attached : s'.attached = s.attached
  next : s'.nextSendOrigin = s.nextSendOrigin
  tied : s.Tied → s'.Tied
  outcome : ∃ phase, s'.verbs k = some { v with phase } ∧
    s'.entered = s.entered ++ ({ v with phase } : SendVerb).puts.map (some k, ·) ∧
    (phase.over = true → Leaves id s s')

theorem Moves.prepare (h : Prepares id s s') (h' : Moves k v id s' s'') : Moves k v id s s'' := by
  obtain ⟨phase, hverb, hentered, hover⟩ := h'.outcome
  refine ⟨fun hs => h'.confined (h.confined hs), fun x hx => (h'.modes x hx).trans (h.modes x hx),
    fun j hj => (h.spares j).trans (h'.spares j hj), h'.attached.trans h.attached,
    h'.next.trans h.next, fun hs => h'.tied (h.tied hs), phase, hverb, ?_, fun ho => ?_⟩
  · rw [hentered, h.entered]
  · obtain ⟨hgone, hwoken⟩ := hover ho
    exact ⟨hgone, fun hfree => h.wakes.trans_lt (hwoken hfree)⟩

theorem Moves.settle (h : Prepares id s s') (hputs : ({ v with phase } : SendVerb).puts = [])
    (hover : phase.over = true → Leaves id s s') :
    Moves k v id s (s'.setVerb k { v with phase }) where
  confined := h.confined
  modes := h.modes
  spares j hj := by
    unfold Spares
    rw [setVerb_of_ne _ hj]
    exact h.spares j
  attached := h.attached
  next := h.next
  tied := h.tied
  outcome := by
    refine ⟨phase, setVerb_self _ _ _, ?_, hover⟩
    rw [hputs, map_nil, append_nil]
    exact h.entered

theorem Leaves.prepare (h : Prepares id s s') (h' : Leaves id s' s'') : Leaves id s s'' :=
  ⟨h'.1, fun hfree => h.wakes.trans_lt (h'.2 hfree)⟩

theorem Moves.guards (s : SendWorld) (id : OriginId)
    (hputs : ({ v with phase } : SendVerb).puts = []) :
    Moves k v id s (((s.dropWaiter id).dropTransient id).setVerb k { v with phase }) :=
  have hwaiter := Prepares.dropWaiter s id
  have ⟨htransient, hleaves⟩ := dropTransient_leaves (s.dropWaiter id) id
  .settle (hwaiter.trans htransient) hputs fun _ => hleaves.prepare hwaiter

theorem Moves.transient (s : SendWorld) (id : OriginId)
    (hputs : ({ v with phase } : SendVerb).puts = []) :
    Moves k v id s ((s.dropTransient id).setVerb k { v with phase }) :=
  have ⟨htransient, hleaves⟩ := dropTransient_leaves s id
  .settle htransient hputs fun _ => hleaves

theorem deliver_moves (s : SendWorld) (k : ℕ) (v : SendVerb) (id : OriginId) (room expired : Bool) :
    Moves k v id s (s.deliver debug k v id room expired) := by
  unfold SendWorld.deliver
  split
  · next queue hsend =>
    let s₁ : SendWorld := { s with queue, entered := s.entered ++ [(some k, v.params.bytes)] }
    obtain ⟨hclean, hleaves⟩ := cleanUp_leaves s₁ id
    refine ⟨hclean.confined, hclean.modes, fun j hj => ?_, hclean.attached, hclean.next,
      fun hs => hclean.tied (hs.trySend hsend _), _, setVerb_self _ _ _, hclean.entered,
      fun _ => hleaves⟩
    unfold Spares
    rw [setVerb_of_ne _ hj]
    exact hclean.spares j
  · obtain ⟨hclean, hleaves⟩ := cleanUp_leaves s id
    exact .settle hclean rfl fun _ => hleaves
  · split_ifs
    · exact .transient s id rfl
    · exact .settle (.refl id s) rfl nofun

theorem turn_moves (s : SendWorld) (k : ℕ) (v : SendVerb) (id : OriginId) (room expired : Bool) :
    Moves k v id s (s.turn debug k v id room expired) := by
  have hacquire := Prepares.apply s (.acquire id)
  unfold SendWorld.turn
  split_ifs
  · exact .guards s id rfl
  · change Prepares id s (s.withLock (s.lock.acquire id).2) at hacquire
    cases hq : s.lock.acquire id with
    | mk answer l =>
      rw [hq] at hacquire
      cases answer with
      | granted | alreadyHeld => exact .prepare hacquire (deliver_moves _ k v id room expired)
      | readOnly | unregistered => exact .prepare hacquire (.transient _ id rfl)
      | denied held =>
        have hqueue := Prepares.apply (s.withLock l) (.enqueue id)
        exact .settle (hacquire.trans hqueue) rfl nofun

theorem expire_moves (s : SendWorld) (k : ℕ) (v : SendVerb) (id : OriginId) :
    Moves k v id s (s.expire debug k v id) :=
  .guards s id rfl

theorem poll_moves (debug : String → String) (s : SendWorld) (k : ℕ) (late room expired : Bool) :
    s.poll debug k late room expired = s ∨
      ∃ v id, s.verbs k = some v ∧ v.id = some id ∧ v.phase.over = false ∧
        Moves k v id s (s.poll debug k late room expired) := by
  unfold SendWorld.poll
  cases hv : s.verbs k with
  | none => exact .inl rfl
  | some v =>
    dsimp only
    split
    · next id notified hid hphase =>
      split_ifs
      · exact .inr ⟨v, id, rfl, hid, by rw [hphase]; rfl, expire_moves s k v id⟩
      · exact .inr ⟨v, id, rfl, hid, by rw [hphase]; rfl, turn_moves s k v id room expired⟩
      · exact .inl rfl
    · next id hid hphase =>
      exact .inr ⟨v, id, rfl, hid, by rw [hphase]; rfl, deliver_moves s k v id room expired⟩
    · exact .inl rfl

theorem cancel_moves (s : SendWorld) (k : ℕ) :
    s.cancel k = s ∨
      ∃ v id, s.verbs k = some v ∧ v.id = some id ∧ v.phase.over = false ∧
        Moves k v id s (s.cancel k) := by
  unfold SendWorld.cancel
  cases hv : s.verbs k with
  | none => exact .inl rfl
  | some v =>
    dsimp only
    split
    · next id notified hid hphase =>
      exact .inr ⟨v, id, rfl, hid, by rw [hphase]; rfl, .guards s id rfl⟩
    · next id hid hphase =>
      exact .inr ⟨v, id, rfl, hid, by rw [hphase]; rfl, .transient s id rfl⟩
    · exact .inl rfl

theorem start_moves (debug : String → String) (s : SendWorld) (k : ℕ) (p : SendParams)
    (late room expired : Bool) :
    (∃ e, s.start debug k p late room expired = s.setVerb k ⟨p, none, .done (.error e)⟩) ∨
      Moves k ⟨p, some s.nextSendOrigin, .waiting false⟩ s.nextSendOrigin
        { s with nextSendOrigin := wrappingAdd s.nextSendOrigin 1 }
        (s.start debug k p late room expired) := by
  unfold SendWorld.start
  split_ifs with hlisted hpath hopen hsteal hlate
  · exact .inl ⟨_, rfl⟩
  · exact .inl ⟨_, rfl⟩
  · exact .inl ⟨_, rfl⟩
  all_goals
    refine .inr (Moves.prepare (Prepares.apply
      { s with nextSendOrigin := wrappingAdd s.nextSendOrigin 1 }
      (.register s.nextSendOrigin "send" .onDemand)) ?_)
  · exact .prepare ((Prepares.apply _ (.steal _)).trans (.wake _ _)) (deliver_moves _ k _ _ room expired)
  · exact expire_moves _ k _ _
  · exact turn_moves _ k _ _ room expired

def putsOf (s : SendWorld) (k : ℕ) : List Chunk := (s.entered.filter (·.1 = some k)).map Prod.snd

structure Sound (s : SendWorld) : Prop where
  confined : s.lock.Confined
  tied : s.Tied
  ids : ∀ k v id, s.verbs k = some v → v.id = some id → id < s.nextSendOrigin
  apart : ∀ j k v w id, s.verbs j = some v → s.verbs k = some w → v.id = some id →
    w.id = some id → j = k
  puts : ∀ k, s.putsOf k = ((s.verbs k).map SendVerb.puts).getD []
  gone : ∀ k v id, s.verbs k = some v → v.phase.over = true → v.id = some id →
    id ∈ s.attached ∨ s.lock.writeMode id = none

theorem Spares.before (h : Spares s s' j) (hv : s'.verbs j = some v) :
    ∃ w, s.verbs j = some w ∧ w.id = v.id ∧ w.phase.over = v.phase.over := by
  rcases h with h | h
  · exact ⟨v, h ▸ hv, rfl, rfl⟩
  · rw [h, Option.map_eq_some_iff] at hv
    obtain ⟨w, hw, rfl⟩ := hv
    exact ⟨w, hw, (w.notify_id).symm, (w.notify_over).symm⟩

theorem Spares.puts (h : Spares s s' j) :
    (s'.verbs j).map SendVerb.puts = (s.verbs j).map SendVerb.puts := by
  rcases h with h | h
  · rw [h]
  · rw [h, Option.map_map]
    congr 1
    funext v
    exact v.notify_puts

theorem putsOf_append {more : List (Option ℕ × Chunk)} (h : s'.entered = s.entered ++ more) (j : ℕ) :
    s'.putsOf j = s.putsOf j ++ (more.filter (·.1 = some j)).map Prod.snd := by
  unfold putsOf
  rw [h, filter_append, map_append]

theorem Sound.moves (hs : s.Sound) (hm : Moves k v id s s') (hid : v.id = some id)
    (hnext : id < s.nextSendOrigin) (hputs : s.putsOf k = [])
    (hown : ∀ j w, s.verbs j = some w → w.id = some id → j = k) : s'.Sound := by
  obtain ⟨phase, hverb, hentered, hover⟩ := hm.outcome
  -- every other `send` is as it was, but for a wake
  have hbefore : ∀ j w, j ≠ k → s'.verbs j = some w →
      ∃ w₀, s.verbs j = some w₀ ∧ w₀.id = w.id ∧ w₀.phase.over = w.phase.over :=
    fun j w hj hw => (hm.spares j hj).before hw
  have hmine : ∀ w, s'.verbs k = some w → w = { v with phase } :=
    fun w hw => Option.some.inj (hw.symm.trans hverb)
  have hother : ∀ j w, j ≠ k → s'.verbs j = some w → w.id ≠ some id := by
    intro j w hj hw hwid
    obtain ⟨w₀, hw₀, hid₀, -⟩ := hbefore j w hj hw
    exact hj (hown j w₀ hw₀ (hid₀.trans hwid))
  refine ⟨hm.confined hs.confined, hm.tied hs.tied, ?_, ?_, ?_, ?_⟩
  · intro j w x hw hx
    rw [hm.next]
    by_cases hj : j = k
    · subst hj
      rw [hmine w hw] at hx
      exact Option.some.inj (hid.symm.trans hx) ▸ hnext
    · obtain ⟨w₀, hw₀, hid₀, -⟩ := hbefore j w hj hw
      exact hs.ids j w₀ x hw₀ (hid₀.trans hx)
  · intro i j w w' x hw hw' hx hx'
    by_cases hi : i = k
    · by_contra hne
      have hj : j ≠ k := fun h => hne (hi.trans h.symm)
      subst hi
      rw [hmine w hw] at hx
      exact hother j w' hj hw' (hx'.trans (hx.symm.trans hid))
    · by_cases hj : j = k
      · subst hj
        rw [hmine w' hw'] at hx'
        exact absurd (hx.trans (hx'.symm.trans hid)) (hother i w hi hw)
      · obtain ⟨w₀, hw₀, hid₀, -⟩ := hbefore i w hi hw
        obtain ⟨w₀', hw₀', hid₀', -⟩ := hbefore j w' hj hw'
        exact hs.apart i j w₀ w₀' x hw₀ hw₀' (hid₀.trans hx) (hid₀'.trans hx')
  · intro j
    rw [putsOf_append hentered]
    by_cases hj : j = k
    · subst hj
      rw [hputs, hverb]
      simp [filter_map, Function.comp_def]
    · have hnone : (({ v with phase } : SendVerb).puts.map (some k, ·)).filter (·.1 = some j) = [] := by
        rw [filter_eq_nil_iff]
        intro entry hentry
        obtain ⟨chunk, -, rfl⟩ := mem_map.mp hentry
        simpa using fun h => hj h.symm
      rw [hnone, map_nil, append_nil, (hm.spares j hj).puts]
      exact hs.puts j
  · intro j w x hw hw_over hx
    rw [hm.attached]
    by_cases hj : j = k
    · subst hj
      rw [hmine w hw] at hw_over hx
      obtain rfl : id = x := Option.some.inj (hid.symm.trans hx)
      exact .inr (hover hw_over).1
    · obtain ⟨w₀, hw₀, hid₀, hover₀⟩ := hbefore j w hj hw
      have hne : x ≠ id := fun h => hother j w hj hw (h ▸ hx)
      rw [hm.modes x hne]
      exact hs.gone j w₀ x hw₀ (hover₀.trans hw_over) (hid₀.trans hx)

theorem Sound.refused (hs : s.Sound) (hk : s.verbs k = none) (p : SendParams) (e : RpcError) :
    (s.setVerb k ⟨p, none, .done (.error e)⟩).Sound := by
  have hother : ∀ j w x, (s.setVerb k ⟨p, none, .done (.error e)⟩).verbs j = some w →
      w.id = some x → s.verbs j = some w := by
    intro j w x hw hx
    by_cases hj : j = k
    · subst hj
      rw [setVerb_self] at hw
      rw [← Option.some.inj hw] at hx
      cases hx
    · rwa [setVerb_of_ne _ hj] at hw
  refine ⟨hs.confined, hs.tied, ?_, ?_, ?_, ?_⟩
  · exact fun j w x hw hx => hs.ids j w x (hother j w x hw hx) hx
  · exact fun i j w w' x hw hw' hx hx' =>
      hs.apart i j w w' x (hother i w x hw hx) (hother j w' x hw' hx') hx hx'
  · intro j
    change s.putsOf j = _
    rw [hs.puts j]
    by_cases hj : j = k
    · subst hj
      rw [hk, setVerb_self]
      rfl
    · rw [setVerb_of_ne _ hj]
  · exact fun j w x hw hover hx => hs.gone j w x (hother j w x hw hx) hover hx

structure Elsewhere (s s' : SendWorld) : Prop where
  confined : s.lock.Confined → s'.lock.Confined
  tied : s.Tied → s'.Tied
  spares : ∀ j, Spares s s' j
  next : s.nextSendOrigin ≤ s'.nextSendOrigin
  puts : ∀ j, s'.putsOf j = s.putsOf j
  gone : ∀ x, x ∈ s.attached ∨ s.lock.writeMode x = none →
    x ∈ s'.attached ∨ s'.lock.writeMode x = none

theorem Sound.elsewhere (hs : s.Sound) (h : Elsewhere s s') : s'.Sound := by
  refine ⟨h.confined hs.confined, h.tied hs.tied, ?_, ?_, ?_, ?_⟩
  · intro j w x hw hx
    obtain ⟨w₀, hw₀, hid₀, -⟩ := (h.spares j).before hw
    exact (hs.ids j w₀ x hw₀ (hid₀.trans hx)).trans_le h.next
  · intro i j w w' x hw hw' hx hx'
    obtain ⟨w₀, hw₀, hid₀, -⟩ := (h.spares i).before hw
    obtain ⟨w₀', hw₀', hid₀', -⟩ := (h.spares j).before hw'
    exact hs.apart i j w₀ w₀' x hw₀ hw₀' (hid₀.trans hx) (hid₀'.trans hx')
  · intro j
    rw [h.puts j, hs.puts j, (h.spares j).puts]
  · intro j w x hw hover hx
    obtain ⟨w₀, hw₀, hid₀, hover₀⟩ := (h.spares j).before hw
    exact h.gone x (hs.gone j w₀ x hw₀ (hover₀.trans hover) (hid₀.trans hx))

theorem Elsewhere.of_same (hlock : s'.lock = s.lock) (htied : s.Tied → s'.Tied) (hspares : ∀ j, Spares s s' j)
    (hnext : s.nextSendOrigin ≤ s'.nextSendOrigin) (hputs : ∀ j, s'.putsOf j = s.putsOf j)
    (hattached : s'.attached = s.attached) : Elsewhere s s' := by
  refine ⟨fun h => hlock ▸ h, htied, hspares, hnext, hputs, fun x hx => ?_⟩
  rw [hlock, hattached]
  exact hx

theorem use_elsewhere (s : SendWorld) (op : Op) (wakes : Bool) : Elsewhere s (s.use op wakes) := by
  have hgone : ∀ x, x ∈ s.attached ∨ s.lock.writeMode x = none →
      x ∈ (s.use op false).attached ∨ (s.lock.apply op).writeMode x = none := by
    intro x hx
    rw [apply_writeMode]
    cases op with
    | register id label mode =>
      rcases hx with hx | hx
      · exact .inl (mem_append_left _ hx)
      · by_cases hne : x = id
        · exact .inl (hne ▸ mem_append_right _ (mem_singleton_self _))
        · exact .inr ((update_of_ne hne _ _).trans hx)
    | unregister id =>
      refine hx.imp_right fun hx => ?_
      by_cases hne : x = id
      · exact hne ▸ update_self _ _ _
      · exact (update_of_ne hne _ _).trans hx
    | _ => exact hx
  have hconfined : s.lock.Confined → (s.lock.apply op).Confined := confined_stable.apply s.lock op
  unfold SendWorld.use
  dsimp only
  split_ifs
  · exact ⟨hconfined, id, fun _ => .inr rfl, le_rfl, fun _ => rfl, hgone⟩
  · exact ⟨hconfined, id, fun _ => .inl rfl, le_rfl, fun _ => rfl, hgone⟩

theorem put_elsewhere (s : SendWorld) (chunk : Chunk) : Elsewhere s (s.put chunk) := by
  unfold SendWorld.put
  split
  · next hsend =>
    refine .of_same rfl (fun hs => hs.trySend hsend _) (fun _ => .inl rfl) le_rfl (fun j => ?_) rfl
    rw [putsOf_append (s := s) rfl]
    simp
  · exact .of_same rfl id (fun _ => .inl rfl) le_rfl (fun _ => rfl) rfl

theorem receive_tied (s : SendWorld) (h : s.Tied) : (s.step debug .receive).Tied := by
  change s.left ++ s.queue.recv.1.toList ++ s.queue.recv.2.queue = _
  rw [append_assoc, s.queue.recv_queue]
  exact h

theorem hangUp_tied (s : SendWorld) (h : s.Tied) : (s.step debug .hangUp).Tied := by
  change s.left ++ s.queue.queue ++ [] = _
  rw [append_nil]
  exact h

inductive Happens (s : SendWorld) : SendWorld → Prop
  | elsewhere {s' : SendWorld} : Elsewhere s s' → Happens s s'
  | refused (k : ℕ) (p : SendParams) (e : RpcError) : s.verbs k = none →
      Happens s (s.setVerb k ⟨p, none, .done (.error e)⟩)
  | begins {s' : SendWorld} (k : ℕ) (p : SendParams) : s.verbs k = none →
      Moves k ⟨p, some s.nextSendOrigin, .waiting false⟩ s.nextSendOrigin
        { s with nextSendOrigin := s.nextSendOrigin + 1 } s' → Happens s s'
  | goes {s' : SendWorld} (k : ℕ) (v : SendVerb) (id : OriginId) : s.verbs k = some v →
      v.id = some id → v.phase.over = false → Moves k v id s s' → Happens s s'

theorem step_happens {a : SendVerbAct} (hok : (machine debug).ok s a)
    (hroom : a.sends = true → s.nextSendOrigin + 1 < u64Size) : Happens s (s.step debug a) := by
  cases a with
  | start k p late room expired =>
    have hk := hok k p late room expired rfl
    have hwrap := wrappingAdd_of_lt (hroom rfl)
    rcases start_moves debug s k p late room expired with ⟨e, he⟩ | hmoves
    · change Happens s (s.start debug k p late room expired)
      rw [he]
      exact .refused k p e hk
    · rw [hwrap] at hmoves
      exact .begins k p hk hmoves
  | poll k late room expired =>
    rcases poll_moves debug s k late room expired with hsame | ⟨v, id, hv, hid, hlive, hm⟩
    · refine .elsewhere ?_
      change Elsewhere s (s.poll debug k late room expired)
      rw [hsame]
      exact .of_same rfl id (fun _ => .inl rfl) le_rfl (fun _ => rfl) rfl
    · exact .goes k v id hv hid hlive hm
  | cancel k =>
    rcases cancel_moves s k with hsame | ⟨v, id, hv, hid, hlive, hm⟩
    · refine .elsewhere ?_
      change Elsewhere s (s.cancel k)
      rw [hsame]
      exact .of_same rfl id (fun _ => .inl rfl) le_rfl (fun _ => rfl) rfl
    · exact .goes k v id hv hid hlive hm
  | use op wakes => exact .elsewhere (use_elsewhere s op wakes)
  | put chunk => exact .elsewhere (put_elsewhere s chunk)
  | receive =>
    exact .elsewhere (.of_same rfl s.receive_tied (fun _ => .inl rfl) le_rfl (fun _ => rfl) rfl)
  | hangUp =>
    exact .elsewhere (.of_same rfl s.hangUp_tied (fun _ => .inl rfl) le_rfl (fun _ => rfl) rfl)
  | close => exact .elsewhere (.of_same rfl id (fun _ => .inr rfl) le_rfl (fun _ => rfl) rfl)
  | list listed path =>
    exact .elsewhere (.of_same rfl id (fun _ => .inl rfl) le_rfl (fun _ => rfl) rfl)
  | elsewhere =>
    refine .elsewhere (.of_same rfl id (fun _ => .inl rfl) ?_ (fun _ => rfl) rfl)
    change s.nextSendOrigin ≤ wrappingAdd s.nextSendOrigin 1
    rw [wrappingAdd_of_lt (hroom rfl)]
    exact Nat.le_succ _

theorem Happens.sound (h : Happens s s') (hs : s.Sound) : s'.Sound := by
  cases h with
  | elsewhere h => exact hs.elsewhere h
  | refused k p e hk => exact hs.refused hk p e
  | begins k p hk hm =>
    have hfresh : ∀ j w, s.verbs j = some w → w.id ≠ some s.nextSendOrigin := by
      intro j w hw hid
      exact absurd (hs.ids j w _ hw hid) (lt_irrefl _)
    have hs₀ : Sound { s with nextSendOrigin := s.nextSendOrigin + 1 } :=
      ⟨hs.confined, hs.tied, fun j w x hw hx => Nat.lt_succ_of_lt (hs.ids j w x hw hx), hs.apart, hs.puts,
        hs.gone⟩
    refine hs₀.moves hm rfl (Nat.lt_succ_self _) ?_ fun j w hw hid => absurd hid (hfresh j w hw)
    change s.putsOf k = []
    rw [hs.puts k, hk]
    rfl
  | goes k v id hv hid hlive hm =>
    refine hs.moves hm hid (hs.ids k v id hv hid) ?_ fun j w hw hwid => hs.apart j k w v id hw hv hwid hid
    rw [hs.puts k, hv]
    obtain ⟨params, id, phase⟩ := v
    cases phase with
    | done reply => cases hlive
    | _ => rfl

theorem Happens.leaves (h : Happens s s') (hv : s'.verbs k = some v) (hover : v.phase.over = true)
    (hbefore : ∀ w, s.verbs k = some w → w.phase.over = false) (hid : v.id = some id) :
    Leaves id s s' := by
  have hspared : ¬ Spares s s' k := by
    intro hspares
    obtain ⟨w, hw, -, hsame⟩ := hspares.before hv
    rw [hbefore w hw, hover] at hsame
    cases hsame
  cases h with
  | elsewhere h => exact absurd (h.spares k) hspared
  | refused j p e hj =>
    by_cases hk : k = j
    · subst hk
      rw [setVerb_self] at hv
      rw [← Option.some.inj hv] at hid
      cases hid
    · exact absurd (.inl (setVerb_of_ne _ hk _)) hspared
  | begins j p hj hm =>
    by_cases hk : k = j
    · subst hk
      obtain ⟨phase, hverb, -, hleaves⟩ := hm.outcome
      obtain rfl := Option.some.inj (hv.symm.trans hverb)
      obtain rfl := Option.some.inj hid
      exact hleaves hover
    · exact absurd (hm.spares k hk) hspared
  | goes j w x hw hx hlive hm =>
    by_cases hk : k = j
    · subst hk
      obtain ⟨phase, hverb, -, hleaves⟩ := hm.outcome
      obtain rfl := Option.some.inj (hv.symm.trans hverb)
      obtain rfl := Option.some.inj (hx.symm.trans hid)
      exact hleaves hover
    · exact absurd (hm.spares k hk) hspared

theorem step_next (debug : String → String) (s : SendWorld) (a : SendVerbAct) :
    (s.step debug a).nextSendOrigin = s.nextSendOrigin ∨
      a.sends = true ∧ (s.step debug a).nextSendOrigin = wrappingAdd s.nextSendOrigin 1 := by
  cases a with
  | start k p late room expired =>
    rcases start_moves debug s k p late room expired with ⟨e, he⟩ | hmoves
    · exact .inl (by rw [step, he]; rfl)
    · exact .inr ⟨rfl, hmoves.next⟩
  | poll k late room expired =>
    rcases poll_moves debug s k late room expired with hsame | ⟨_, _, -, -, -, hm⟩
    · exact .inl (by rw [step, hsame])
    · exact .inl hm.next
  | cancel k =>
    rcases cancel_moves s k with hsame | ⟨_, _, -, -, -, hm⟩
    · exact .inl (by rw [step, hsame])
    · exact .inl hm.next
  | use op wakes =>
    refine .inl ?_
    simp only [step, SendWorld.use]
    split_ifs <;> rfl
  | put chunk =>
    refine .inl ?_
    simp only [step, SendWorld.put]
    split <;> rfl
  | receive | hangUp | close | list => exact .inl rfl
  | elsewhere => exact .inr ⟨rfl, rfl⟩

theorem run_happens {as : List SendVerbAct} (hl : (machine debug).Legal s as)
    (hroom : s.nextSendOrigin + as.countP SendVerbAct.sends < u64Size) :
    (machine debug).Each (fun s a => Happens s (s.step debug a)) s as := by
  induction as generalizing s with
  | nil => trivial
  | cons a as ih =>
    rw [countP_cons] at hroom
    have hhere : a.sends = true → s.nextSendOrigin + 1 < u64Size := by
      intro hsends
      rw [if_pos hsends] at hroom
      omega
    refine ⟨step_happens hl.1 hhere, ih hl.2 ?_⟩
    change (s.step debug a).nextSendOrigin + _ < _
    rcases s.step_next debug a with hnext | ⟨hsends, hnext⟩
    · rw [hnext]
      omega
    · rw [hnext, wrappingAdd_of_lt (hhere hsends)]
      rw [if_pos hsends] at hroom
      omega

theorem initial_sound (arbitration : Arbitration) (cap : ℕ) : (initial arbitration cap).Sound where
  confined := confined_stable.new arbitration
  tied := rfl
  ids _ _ _ hv := by cases hv
  apart _ _ _ _ _ hv := by cases hv
  puts _ := rfl
  gone _ _ _ hv := by cases hv

theorem send_all_or_nothing (arbitration : Arbitration) (cap : ℕ) {as : List SendVerbAct}
    (h : (machine debug).Legal (initial arbitration cap) as)
    (hfew : as.countP SendVerbAct.sends < 2 ^ 63) :
    let s := (machine debug).run (initial arbitration cap) as
    s.left ++ s.queue.queue = s.entered.map Prod.snd ∧
    (∀ k v, s.verbs k = some v → (s.putsOf k = [] ∨ s.putsOf k = [v.params.bytes]) ∧
      (∀ reply, v.phase = .done (.ok reply) → s.putsOf k = [v.params.bytes]) ∧
      (∀ e, v.phase = .done (.error e) → s.putsOf k = []) ∧
      (v.phase = .dropped → s.putsOf k = []) ∧
      (v.phase.over = true → ∀ id, v.id = some id → id ∉ s.attached →
        s.lock.writeMode id = none ∧ s.lock.holder ≠ some id ∧ id ∉ s.lock.waiters)) ∧
    (machine debug).Each (fun s a => ∀ k v id, (s.step debug a).verbs k = some v →
      v.phase.over = true → (∀ w, s.verbs k = some w → w.phase.over = false) → v.id = some id →
      (s.step debug a).lock.writeMode id = none ∧ (s.step debug a).lock.holder ≠ some id ∧
        id ∉ (s.step debug a).lock.waiters ∧
        ((s.step debug a).lock.holder = none → s.wakes < (s.step debug a).wakes))
      (initial arbitration cap) as := by
  intro s
  have hroom : (initial arbitration cap).nextSendOrigin + as.countP SendVerbAct.sends < u64Size := by
    change sendOriginBase + _ < _
    have hbase : sendOriginBase + 2 ^ 63 < u64Size := by decide
    omega
  have hhappens := run_happens h hroom
  have hinv : ∀ s a, Sound s → (machine debug).ok s a → Happens s (s.step debug a) →
      Sound ((machine debug).step s a) := fun s a hs _ hstep => hstep.sound hs
  have hstart := initial_sound arbitration cap
  have hsound : s.Sound := Runs.Machine.invariant_of_each hinv hstart h hhappens
  refine ⟨hsound.tied, fun k v hv => ?_, hhappens.imp_of_invariant hinv (fun s a hs hstep => ?_) hstart h⟩
  · have hputs : s.putsOf k = v.puts := by
      rw [hsound.puts k, hv]
      rfl
    refine ⟨?_, fun reply hphase => ?_, fun e hphase => ?_, fun hphase => ?_, fun hover id hid hnew => ?_⟩
    · rw [hputs]
      unfold SendVerb.puts
      split
      · exact .inr rfl
      · exact .inl rfl
    · rw [hputs, SendVerb.puts, hphase]
    · rw [hputs, SendVerb.puts, hphase]
    · rw [hputs, SendVerb.puts, hphase]
    · have hgone := (hsound.gone k v id hv hover hid).resolve_left hnew
      exact ⟨hgone, hsound.confined.absent hgone⟩
  · intro k v id hv hover hbefore hid
    obtain ⟨hgone, hwoken⟩ := hstep.leaves hv hover hbefore hid
    obtain ⟨hholder, hqueued⟩ := (hstep.sound hs).confined.absent hgone
    exact ⟨hgone, hholder, hqueued, hwoken⟩

def threeSends : List SendVerbAct :=
  [.put [1], .start 0 ⟨"mux:out", "go", 500, true⟩ false false false,
    .start 1 ⟨"mux:out", "no", 500, false⟩ false true false,
    .start 2 ⟨"mux:out", "ok", 500, false⟩ false true false,
    .cancel 1, .receive, .poll 0 false true false, .receive, .poll 2 false true false]

theorem send_all_or_nothing_threeSends :
    let s := (machine fun name => name).run (initial .exclusive 1) threeSends
    s.entered = [(none, [1]), (some 0, [103, 111, 10]), (some 2, [111, 107, 10])] ∧
      s.left = [[1], [103, 111, 10]] ∧ s.queue.queue = [[111, 107, 10]] ∧
      s.lock.holder = none ∧ s.lock.waiters = [] ∧
      ∀ k v, s.verbs k = some v → ∀ reply, v.phase = .done (.ok reply) →
        s.putsOf k = [v.params.bytes] := by
  intro s
  have hlegal : (machine fun name => name).Legal (initial .exclusive 1) threeSends := by
    refine ⟨?_, ?_, ?_, ?_, ?_, ?_, ?_, ?_, ?_, trivial⟩
    all_goals
      rintro k p late room expired ⟨⟩
    all_goals
      rfl
  have hfew : threeSends.countP SendVerbAct.sends < 2 ^ 63 := by decide
  obtain ⟨htied, hall, -⟩ := send_all_or_nothing .exclusive 1 hlegal hfew
  have hentered :
      s.entered = [(none, [1]), (some 0, [103, 111, 10]), (some 2, [111, 107, 10])] := by
    decide +kernel
  have hleft : s.left = [[1], [103, 111, 10]] := by decide +kernel
  refine ⟨hentered, hleft, ?_, by decide +kernel, by decide +kernel, fun k v hv => (hall k v hv).2.1⟩
  -- what is in the queue follows from what went in and what came out
  change s.left ++ s.queue.queue = s.entered.map Prod.snd at htied
  rw [hleft, hentered] at htied
  simpa using htied

end SendWorld
end SerialNexus
