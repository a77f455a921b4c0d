import SerialNexus.Runs
import SerialNexus.Words
import SerialNexus.Channel
import SerialNexus.GraphModel

/-! # The hostward fan-out

The live fan-out list of a host-facing endpoint (`FanOutList` of `daemon/src/runtime.rs`): a
broadcast offers the chunk to every attached sink in turn, never waiting; a full queue costs that
consumer the chunk, and a chunk that no sink was alive for is charged as unattached. -/

namespace SerialNexus

open List Function

structure FanOutSink where
  target : EndpointAddr
  tx : ℕ
  counters : ℕ
deriving DecidableEq

structure FanOut where
  live : Bool
  delivered : ℕ
  droppedFull : ℕ
deriving DecidableEq

structure Buffers where
  chans : ℕ → Channel Chunk
  full : ℕ → ℕ

def fanOutLoop (chunk : Chunk) : List FanOutSink → FanOut → Buffers → FanOut × Buffers
  | [], out, b => (out, b)
  | sink :: sinks, out, b =>
    match (b.chans sink.tx).trySend chunk with
    | (.ok, chan) =>
      fanOutLoop chunk sinks { out with live := true, delivered := chunk.length }
        { b with chans := update b.chans sink.tx chan }
    | (.full, _) =>
      fanOutLoop chunk sinks
        { out with live := true, droppedFull := out.droppedFull + chunk.length }
        { b with
          full := update b.full sink.counters
            (wrappingAdd (b.full sink.counters) chunk.length) }
    | (.closed, _) => fanOutLoop chunk sinks out b

def fanOut (chunk : Chunk) (sinks : List FanOutSink) (b : Buffers) (unattached : ℕ) :
    FanOut × Buffers × ℕ :=
  let (out, b) := fanOutLoop chunk sinks ⟨false, 0, 0⟩ b
  (out, b, if out.live then unattached else wrappingAdd unattached chunk.length)

def fate (chan : Channel Chunk) : Option Bool :=
  if chan.isOpen then some (decide (chan.queue.length < chan.cap)) else none

theorem trySend_ok_iff (chan : Channel Chunk) (chunk : Chunk) :
    (chan.trySend chunk).1 = .ok ↔ fate chan = some true := by
  rcases chan.trySend_cases chunk with ⟨ho, hr, ha, -⟩ | ⟨ho, hr, ha⟩ | ⟨ho, ha⟩
  · simp [fate, ho, hr, ha]
  · simp [fate, ho, hr, ha]
  · simp [fate, ho, ha]

def missed (chan : Channel Chunk) (chunk : Chunk) : ℕ :=
  if fate chan = some false then chunk.length else 0

theorem trySend_queue_iff (chan : Channel Chunk) (chunk : Chunk) :
    (chan.trySend chunk).2.queue = chan.queue ++ [chunk] ↔ fate chan = some true := by
  rcases chan.trySend_cases chunk with ⟨ho, hr, -, hq⟩ | ⟨ho, hr, ha⟩ | ⟨ho, ha⟩
  · simp [fate, ho, hr, hq]
  · simp [fate, ho, hr, ha]
  · simp [fate, ho, ha]

theorem fanOutLoop_cons (chunk : Chunk) (sink : FanOutSink) (sinks : List FanOutSink)
    (out : FanOut) (b : Buffers) :
    ∃ out' b', fanOutLoop chunk (sink :: sinks) out b = fanOutLoop chunk sinks out' b' ∧
      out'.live = (out.live || (b.chans sink.tx).isOpen) ∧
      out'.delivered =
        (if fate (b.chans sink.tx) = some true then chunk.length else out.delivered) ∧
      out'.droppedFull = out.droppedFull + missed (b.chans sink.tx) chunk ∧
      b'.chans = update b.chans sink.tx ((b.chans sink.tx).trySend chunk).2 ∧
      ∀ c total, b.full c = total % u64Size → b'.full c =
        (total + if sink.counters = c then missed (b.chans sink.tx) chunk else 0) % u64Size := by
  rcases (b.chans sink.tx).trySend_cases chunk with ⟨ho, hr, ha, -⟩ | ⟨ho, hr, ha⟩ | ⟨ho, ha⟩
  · have hfate : fate (b.chans sink.tx) = some true := by simp [fate, ho, hr]
    refine ⟨{ out with live := true, delivered := chunk.length },
      { b with chans := update b.chans sink.tx ((b.chans sink.tx).trySend chunk).2 },
      ?_, ?_⟩
    · rw [fanOutLoop, ← Prod.mk.eta (p := (b.chans sink.tx).trySend chunk), ha]
    · simp [missed, hfate, ho]
  · have hfate : fate (b.chans sink.tx) = some false := by simp [fate, ho, hr]
    refine ⟨_, _, by rw [fanOutLoop, ha], ?_⟩
    simp only [missed, hfate, ho, ha, update_eq_self, Bool.or_true, if_true, true_and,
      reduceCtorEq, Option.some.injEq, if_false]
    intro c total hc
    by_cases he : sink.counters = c
    · subst he
      rw [update_self, if_pos rfl, hc, wrappingAdd_mod]
    · rw [update_of_ne (Ne.symm he), if_neg he, hc, Nat.add_zero]
  · have hfate : fate (b.chans sink.tx) = none := by simp [fate, ho]
    exact ⟨out, b, by rw [fanOutLoop, ha], by simp [missed, hfate, ho, ha]⟩

structure FanOut.After (chunk : Chunk) (sinks : List FanOutSink) (out : FanOut) (b : Buffers)
    (out' : FanOut) (b' : Buffers) : Prop where
  live : out'.live = true ↔ out.live = true ∨ ∃ s ∈ sinks, (b.chans s.tx).isOpen = true
  delivered : out'.delivered =
    if ∃ s ∈ sinks, fate (b.chans s.tx) = some true then chunk.length else out.delivered
  droppedFull : out'.droppedFull =
    out.droppedFull + (sinks.map fun s => missed (b.chans s.tx) chunk).sum
  chans : ∀ k, b'.chans k =
    if k ∈ sinks.map (·.tx) then ((b.chans k).trySend chunk).2 else b.chans k
  full : ∀ c total, b.full c = total % u64Size → b'.full c =
    (total + ((sinks.filter (·.counters = c)).map fun s =>
      missed (b.chans s.tx) chunk).sum) % u64Size

theorem fanOutLoop_after (chunk : Chunk) (sinks : List FanOutSink)
    (hnd : (sinks.map (·.tx)).Nodup) (out : FanOut) (b : Buffers) :
    FanOut.After chunk sinks out b (fanOutLoop chunk sinks out b).1
      (fanOutLoop chunk sinks out b).2 := by
  induction sinks generalizing out b with
  | nil => exact ⟨by simp [fanOutLoop], by simp [fanOutLoop], by simp [fanOutLoop],
      by simp [fanOutLoop], by simp [fanOutLoop]⟩
  | cons sink sinks ih =>
    obtain ⟨hnot, hnd⟩ := nodup_cons.mp hnd
    obtain ⟨out', b', heq, hlive, hdel, hdrop, hchans, hfull⟩ :=
      fanOutLoop_cons chunk sink sinks out b
    have hlater : ∀ s ∈ sinks, b'.chans s.tx = b.chans s.tx := by
      intro s hs
      have hne : s.tx ≠ sink.tx := fun h => hnot (mem_map.mpr ⟨s, hs, h⟩)
      rw [hchans, update_of_ne hne]
    have hrest := ih hnd out' b'
    rw [heq]
    refine ⟨?_, ?_, ?_, ?_, ?_⟩
    · have hopen : (∃ s ∈ sinks, (b'.chans s.tx).isOpen = true) ↔
          ∃ s ∈ sinks, (b.chans s.tx).isOpen = true :=
        exists_congr fun s => and_congr_right fun hs => by rw [hlater s hs]
      rw [hrest.live, hlive, hopen, Bool.or_eq_true, or_assoc, exists_mem_cons_iff]
    · have htook : (∃ s ∈ sinks, fate (b'.chans s.tx) = some true) ↔
          ∃ s ∈ sinks, fate (b.chans s.tx) = some true :=
        exists_congr fun s => and_congr_right fun hs => by rw [hlater s hs]
      simp only [hrest.delivered, hdel, htook, exists_mem_cons_iff]
      by_cases hrest : ∃ s ∈ sinks, fate (b.chans s.tx) = some true
      · rw [if_pos hrest, if_pos (.inr hrest)]
      · simp only [hrest, or_false, if_false]
    · rw [hrest.droppedFull, hdrop, map_cons, sum_cons, Nat.add_assoc,
        map_congr_left fun s hs => by rw [hlater s hs]]
    · intro k
      rw [hrest.chans k, hchans, map_cons]
      by_cases hk : k = sink.tx
      · subst hk
        simp [hnot]
      · simp [hk]
    · intro c total hc
      rw [hrest.full c _ (hfull c total hc), map_congr_left fun s hs => by
        rw [hlater s (mem_of_mem_filter hs)]]
      by_cases he : sink.counters = c
      · simp [he, Nat.add_assoc]
      · simp [he]

structure FanWorld where
  sinks : List FanOutSink
  buffers : Buffers
  unattached : ℕ
  seen : List FanOutSink
  received : ℕ → List Chunk
  fates : ℕ → List (Chunk × Bool)

inductive FanAct where
  | broadcast (chunk : Chunk)
  | attach (sink : FanOutSink) (cap : ℕ)
  | detach (target : EndpointAddr)
  | receive (k : ℕ)
  | hangUp (k : ℕ)

namespace FanWorld

def start : FanWorld where
  sinks := []
  buffers := ⟨fun _ => .new 0, fun _ => 0⟩
  unattached := 0
  seen := []
  received _ := []
  fates _ := []

variable (w : FanWorld)

def attached (k : ℕ) : Bool := decide (k ∈ w.sinks.map (·.tx))

def broadcast (chunk : Chunk) : FanOut × FanWorld :=
  let (out, buffers, unattached) := fanOut chunk w.sinks w.buffers w.unattached
  (out,
    { w with
      buffers
      unattached
      fates := fun k =>
        if w.attached k then
          w.fates k ++ (fate (w.buffers.chans k)).toList.map (chunk, ·)
        else w.fates k })

def detach (target : EndpointAddr) : Bool × FanWorld :=
  let sinks := w.sinks.filter (·.target ≠ target)
  (decide (sinks.length ≠ w.sinks.length), { w with sinks })

def setChan (k : ℕ) (chan : Channel Chunk) : FanWorld :=
  { w with buffers := { w.buffers with chans := update w.buffers.chans k chan } }

def step : FanAct → FanWorld
  | .broadcast chunk => (w.broadcast chunk).2
  | .attach sink cap =>
    { w.setChan sink.tx (.new cap) with
      sinks := w.sinks ++ [sink]
      seen := w.seen ++ [sink] }
  | .detach target => (w.detach target).2
  | .receive k =>
    let (chunk, chan) := (w.buffers.chans k).recv
    { w.setChan k chan with
      received := update w.received k (w.received k ++ chunk.toList) }
  | .hangUp k => w.setChan k (w.buffers.chans k).hangUp

def Allowed : FanAct → Prop
  | .attach sink _ => sink.tx ∉ w.seen.map (·.tx)
  | _ => True

def machine : Runs.Machine FanWorld FanAct := ⟨step, Allowed⟩

end FanWorld

structure Solo where
  attached : Bool
  chan : Channel Chunk
  received : List Chunk
  fates : List (Chunk × Bool)

inductive SoloAct where
  | broadcast (chunk : Chunk)
  | attach (cap : ℕ)
  | detach
  | receive
  | hangUp

namespace Solo

def step (s : Solo) : SoloAct → Solo
  | .broadcast chunk =>
    if s.attached then
      { s with
        chan := (s.chan.trySend chunk).2
        fates := s.fates ++ (fate s.chan).toList.map (chunk, ·) }
    else s
  | .attach cap => { s with attached := true, chan := .new cap }
  | .detach => { s with attached := false }
  | .receive => { s with chan := s.chan.recv.2, received := s.received ++ s.chan.recv.1.toList }
  | .hangUp => { s with chan := s.chan.hangUp }

def machine : Runs.Machine Solo SoloAct := ⟨step, fun _ _ => True⟩

end Solo

namespace FanWorld

def view (w : FanWorld) (k : ℕ) : Solo := ⟨w.attached k, w.buffers.chans k, w.received k, w.fates k⟩

def own (me : FanOutSink) : FanAct → Option SoloAct
  | .broadcast chunk => some (.broadcast chunk)
  | .attach sink cap => if sink.tx = me.tx then some (.attach cap) else none
  | .detach target => if target = me.target then some .detach else none
  | .receive k => if k = me.tx then some .receive else none
  | .hangUp k => if k = me.tx then some .hangUp else none

def Mine (me : FanOutSink) (sinks : List FanOutSink) : Prop :=
  ∀ s ∈ sinks, s.tx = me.tx → s.target = me.target

end FanWorld

def taken (fates : List (Chunk × Bool)) : List Chunk := (fates.filter (·.2)).map (·.1)

def bytesMissed (fates : List (Chunk × Bool)) : ℕ := ((fates.filter (!·.2)).map (·.1.length)).sum

theorem taken_append (fs gs : List (Chunk × Bool)) : taken (fs ++ gs) = taken fs ++ taken gs := by
  simp [taken]

theorem bytesMissed_append (fs gs : List (Chunk × Bool)) :
    bytesMissed (fs ++ gs) = bytesMissed fs + bytesMissed gs := by
  simp [bytesMissed]

theorem bytesMissed_fate (chan : Channel Chunk) (chunk : Chunk) :
    bytesMissed ((fate chan).toList.map (chunk, ·)) = missed chan chunk := by
  unfold missed
  cases fate chan with
  | none => rfl
  | some took => cases took <;> simp [bytesMissed]

structure Solo.Kept (s : Solo) : Prop where
  received : s.received <+: taken s.fates
  queued : s.chan.isOpen = true → s.received ++ s.chan.queue = taken s.fates

theorem taken_fate (chan : Channel Chunk) (chunk : Chunk) (ho : chan.isOpen = true) :
    (chan.trySend chunk).2.queue =
      chan.queue ++ taken ((fate chan).toList.map (chunk, ·)) := by
  rcases chan.trySend_cases chunk with ⟨-, hr, -, hq⟩ | ⟨-, hr, ha⟩ | ⟨hc, -⟩
  · simp [hq, fate, ho, hr, taken]
  · simp [fate, ho, hr, ha, taken]
  · rw [ho] at hc
    cases hc

theorem Solo.Kept.step {s : Solo} (h : s.Kept) (b : SoloAct)
    (hnew : ∀ cap, b = .attach cap → s.fates = []) : (s.step b).Kept := by
  cases b with
  | broadcast chunk =>
    unfold Solo.step
    split_ifs with ha
    · constructor
      · change s.received <+: taken (s.fates ++ _)
        rw [taken_append]
        exact h.received.trans (prefix_append _ _)
      · intro ho
        have ho : s.chan.isOpen = true := by simpa using ho
        change s.received ++ (s.chan.trySend chunk).2.queue = taken (s.fates ++ _)
        rw [taken_append, ← h.queued ho, taken_fate s.chan chunk ho, append_assoc]
    · exact h
  | attach cap =>
    have hf := hnew cap rfl
    have hr : s.received = [] := by
      have := h.received
      rw [hf] at this
      exact prefix_nil.mp this
    refine ⟨h.received, fun _ => ?_⟩
    change s.received ++ [] = taken s.fates
    rw [hr, hf]
    rfl
  | detach => exact ⟨h.received, h.queued⟩
  | receive =>
    have hq := s.chan.recv_queue
    constructor
    · change s.received ++ s.chan.recv.1.toList <+: taken s.fates
      by_cases ho : s.chan.isOpen = true
      · rw [← h.queued ho, ← hq]
        exact (prefix_append_right_inj _).mpr (prefix_append _ _)
      · have hnil := s.chan.drained (by simpa using ho)
        rw [hnil, append_eq_nil_iff] at hq
        rw [hq.1, append_nil]
        exact h.received
    · intro ho
      have ho : s.chan.isOpen = true := s.chan.recv_isOpen ▸ ho
      change (s.received ++ s.chan.recv.1.toList) ++ s.chan.recv.2.queue = taken s.fates
      rw [append_assoc, hq, h.queued ho]
  | hangUp =>
    refine ⟨h.received, fun ho => ?_⟩
    cases ho

namespace FanWorld

def chargedTo (w : FanWorld) (c : ℕ) : ℕ :=
  ((w.seen.filter (·.counters = c)).map fun s => bytesMissed (w.fates s.tx)).sum

structure Good (w : FanWorld) : Prop where
  sinks : w.sinks.Sublist w.seen
  nodup : (w.seen.map (·.tx)).Nodup
  fresh : ∀ k, k ∉ w.seen.map (·.tx) → w.fates k = []
  kept : ∀ k, (w.view k).Kept
  charged : ∀ c, w.buffers.full c = w.chargedTo c % u64Size

theorem start_good : start.Good where
  sinks := List.Sublist.refl _
  nodup := nodup_nil
  fresh _ _ := rfl
  kept _ := ⟨List.nil_prefix, fun _ => rfl⟩
  charged _ := rfl

variable {w : FanWorld}

theorem Good.sinks_nodup (h : w.Good) : (w.sinks.map (·.tx)).Nodup :=
  h.nodup.sublist (h.sinks.map _)

variable {me : FanOutSink} {a : FanAct} {as : List FanAct}

theorem Good.mine (h : w.Good) (hme : me ∈ w.seen) : Mine me w.sinks := by
  intro s hs htx
  rw [inj_on_of_nodup_map h.nodup (h.sinks.subset hs) hme htx]

theorem Good.after (h : w.Good) (chunk : Chunk) :
    FanOut.After chunk w.sinks ⟨false, 0, 0⟩ w.buffers (w.broadcast chunk).1
      (w.broadcast chunk).2.buffers :=
  fanOutLoop_after chunk w.sinks h.sinks_nodup _ _

theorem broadcast_fates (w : FanWorld) (chunk : Chunk) (k : ℕ) :
    (w.broadcast chunk).2.fates k =
      if w.attached k then w.fates k ++ (fate (w.buffers.chans k)).toList.map (chunk, ·)
      else w.fates k := rfl

theorem detach_attached (w : FanWorld) (target : EndpointAddr) (k : ℕ) :
    (w.detach target).2.attached k = true ↔ ∃ s ∈ w.sinks, s.tx = k ∧ s.target ≠ target := by
  rw [attached, decide_eq_true_eq, mem_map]
  constructor
  · rintro ⟨s, hs, hk⟩
    obtain ⟨hs, ht⟩ := mem_filter.mp hs
    exact ⟨s, hs, hk, of_decide_eq_true ht⟩
  · rintro ⟨s, hs, hk, ht⟩
    exact ⟨s, mem_filter.mpr ⟨hs, decide_eq_true ht⟩, hk⟩

theorem view_step (h : w.Good) (hme : Mine me w.sinks) (a : FanAct) :
    (w.step a).view me.tx = ((own me a).map (w.view me.tx).step).getD (w.view me.tx) := by
  cases a with
  | broadcast chunk =>
    have hchan := (h.after chunk).chans me.tx
    change Solo.mk (w.attached me.tx) ((w.broadcast chunk).2.buffers.chans me.tx)
      (w.received me.tx) ((w.broadcast chunk).2.fates me.tx) =
        (w.view me.tx).step (.broadcast chunk)
    rw [hchan, broadcast_fates]
    by_cases ha : me.tx ∈ w.sinks.map (·.tx)
    · simp [Solo.step, view, attached, ha]
    · simp [Solo.step, view, attached, ha]
  | attach sink cap =>
    by_cases htx : sink.tx = me.tx
    · simp [step, own, view, setChan, Solo.step, attached, htx]
    · simp [step, own, view, setChan, attached, htx, Ne.symm htx]
  | detach target =>
    change Solo.mk ((w.detach target).2.attached me.tx) _ _ _ = _
    by_cases ht : target = me.target
    · have hgone : (w.detach target).2.attached me.tx = false := by
        rw [← Bool.not_eq_true, detach_attached]
        rintro ⟨s, hs, htx, hne⟩
        exact hne ((hme s hs htx).trans ht.symm)
      rw [hgone, own, if_pos ht]
      rfl
    · have hstay : (w.detach target).2.attached me.tx = w.attached me.tx := by
        rw [Bool.eq_iff_iff, detach_attached, attached, decide_eq_true_eq, mem_map]
        refine exists_congr fun s => and_congr_right fun hs => and_iff_left_of_imp fun htx => ?_
        rw [hme s hs htx]
        exact Ne.symm ht
      rw [hstay, own, if_neg ht]
      rfl
  | receive k =>
    by_cases hk : k = me.tx
    · simp [step, own, view, setChan, attached, hk, Solo.step]
    · simp [step, own, view, setChan, attached, hk, Ne.symm hk]
  | hangUp k =>
    by_cases hk : k = me.tx
    · simp [step, own, view, setChan, attached, hk, Solo.step]
    · simp [step, own, view, setChan, attached, hk, Ne.symm hk]

theorem sum_attached {sinks seen : List FanOutSink} (hsub : sinks.Sublist seen)
    (hnd : (seen.map (·.tx)).Nodup) (p : FanOutSink → Bool) (f : FanOutSink → ℕ) :
    ((seen.filter p).map fun s => if s.tx ∈ sinks.map (·.tx) then f s else 0).sum =
      ((sinks.filter p).map f).sum := by
  induction hsub with
  | slnil => rfl
  | @cons sinks seen a hsub ih =>
    obtain ⟨hnot, hnd⟩ := nodup_cons.mp hnd
    have ha : a.tx ∉ sinks.map (·.tx) := fun h => hnot ((hsub.map _).subset h)
    rw [← ih hnd, filter_cons]
    split_ifs
    · rw [map_cons, sum_cons, if_neg ha, Nat.zero_add]
    · rfl
  | @cons_cons sinks seen a hsub ih =>
    obtain ⟨hnot, hnd⟩ := nodup_cons.mp hnd
    have hmem : ∀ s ∈ seen.filter p,
        (s.tx ∈ (a :: sinks).map (·.tx) ↔ s.tx ∈ sinks.map (·.tx)) := by
      intro s hs
      have hne : s.tx ≠ a.tx := fun h =>
        hnot (mem_map.mpr ⟨s, mem_of_mem_filter hs, h⟩)
      rw [map_cons, mem_cons, or_iff_right hne]
    have hrest := ih hnd
    rw [← map_congr_left fun s hs => if_congr (hmem s hs) rfl rfl] at hrest
    rw [filter_cons, filter_cons]
    split_ifs
    · have ha : a.tx ∈ (a :: sinks).map (·.tx) := mem_map.mpr ⟨a, mem_cons_self, rfl⟩
      change (if a.tx ∈ (a :: sinks).map (·.tx) then f a else 0) + _ = f a + _
      rw [if_pos ha]
      exact congrArg (f a + ·) hrest
    · exact hrest

theorem Good.chargedTo_broadcast (h : w.Good) (chunk : Chunk) (c : ℕ) :
    (w.broadcast chunk).2.chargedTo c = w.chargedTo c +
      ((w.sinks.filter (·.counters = c)).map fun s => missed (w.buffers.chans s.tx) chunk).sum := by
  rw [← sum_attached h.sinks h.nodup, chargedTo, chargedTo, ← sum_map_add]
  refine congrArg List.sum (map_congr_left fun s _ => ?_)
  rw [broadcast_fates]
  by_cases ha : s.tx ∈ w.sinks.map (·.tx)
  · rw [if_pos (by simpa [attached] using ha), if_pos ha, bytesMissed_append, bytesMissed_fate]
  · rw [if_neg (by simpa [attached] using ha), if_neg ha, Nat.add_zero]

theorem Good.exists_mine (h : w.Good) (k : ℕ) : ∃ me : FanOutSink, me.tx = k ∧ Mine me w.sinks := by
  by_cases hk : k ∈ w.seen.map (·.tx)
  · obtain ⟨me, hme, rfl⟩ := mem_map.mp hk
    exact ⟨me, rfl, h.mine hme⟩
  · refine ⟨⟨⟨"", ""⟩, k, 0⟩, rfl, fun s hs htx => absurd ?_ hk⟩
    exact mem_map.mpr ⟨s, h.sinks.subset hs, htx⟩

theorem own_attach {cap : ℕ} (hok : w.Allowed a) (hown : own me a = some (.attach cap)) :
    me.tx ∉ w.seen.map (·.tx) := by
  cases a with
  | broadcast chunk => cases hown
  | attach sink cap' =>
    by_cases htx : sink.tx = me.tx
    · exact htx ▸ hok
    · rw [own, if_neg htx] at hown
      cases hown
  | detach | receive | hangUp =>
    rw [own] at hown
    split_ifs at hown
    cases hown

theorem Good.step_kept (h : w.Good) (hok : w.Allowed a) (k : ℕ) : ((w.step a).view k).Kept := by
  obtain ⟨me, rfl, hme⟩ := h.exists_mine k
  rw [view_step h hme a]
  cases hown : own me a with
  | none => exact h.kept me.tx
  | some b =>
    refine (h.kept me.tx).step b fun cap hb => h.fresh me.tx ?_
    exact own_attach hok (hb ▸ hown)

theorem Good.step (h : w.Good) (hok : w.Allowed a) : (w.step a).Good := by
  have hkept := h.step_kept hok
  cases a with
  | broadcast chunk =>
    refine ⟨h.sinks, h.nodup, ?_, hkept, ?_⟩
    · intro k hk
      have ha : w.attached k = false := by
        rw [attached, decide_eq_false_iff_not]
        exact fun hs => hk ((h.sinks.map _).subset hs)
      change (w.broadcast chunk).2.fates k = []
      rw [broadcast_fates, ha]
      exact h.fresh k hk
    · intro c
      change (w.broadcast chunk).2.buffers.full c = (w.broadcast chunk).2.chargedTo c % u64Size
      rw [(h.after chunk).full c _ (h.charged c), h.chargedTo_broadcast]
  | attach sink cap =>
    have hnew : sink.tx ∉ w.seen.map (·.tx) := hok
    refine ⟨h.sinks.append (List.Sublist.refl _), ?_, ?_, hkept, ?_⟩
    · change ((w.seen ++ [sink]).map (·.tx)).Nodup
      rw [map_append, map_singleton]
      exact concat_eq_append ▸ h.nodup.concat hnew
    · intro k hk
      refine h.fresh k fun hs => hk ?_
      change k ∈ (w.seen ++ [sink]).map (·.tx)
      rw [map_append]
      exact mem_append_left _ hs
    · intro c
      have hsame : (w.step (.attach sink cap)).chargedTo c = w.chargedTo c := by
        change (((w.seen ++ [sink]).filter (·.counters = c)).map fun s =>
          bytesMissed (w.fates s.tx)).sum = w.chargedTo c
        rw [filter_append, map_append, sum_append, filter_singleton]
        cases decide (sink.counters = c) with
        | false => rfl
        | true => simp [h.fresh _ hnew, bytesMissed, chargedTo]
      rw [hsame]
      exact h.charged c
  | detach target => exact ⟨filter_sublist.trans h.sinks, h.nodup, h.fresh, hkept, h.charged⟩
  | receive | hangUp => exact ⟨h.sinks, h.nodup, h.fresh, hkept, h.charged⟩

theorem Good.run (h : w.Good) (hl : machine.Legal w as) : (machine.run w as).Good :=
  Runs.Machine.invariant (fun _ _ hw hok => hw.step hok) h hl

/-! ### Isolation -/

def Attaches (me : FanOutSink) (as : List FanAct) : Prop :=
  ∀ sink cap, .attach sink cap ∈ as → sink.tx = me.tx → sink.target = me.target

theorem Mine.step (hme : Mine me w.sinks)
    (ha : ∀ sink cap, a = .attach sink cap → sink.tx = me.tx → sink.target = me.target) :
    Mine me (w.step a).sinks := by
  cases a with
  | broadcast | receive | hangUp => exact hme
  | attach sink cap =>
    intro s hs
    rcases mem_append.mp hs with hs | hs
    · exact hme s hs
    · rw [mem_singleton.mp hs]
      exact ha sink cap rfl
  | detach target => exact fun s hs => hme s (mem_of_mem_filter hs)

theorem view_run (h : w.Good) (hme : Mine me w.sinks) (hl : machine.Legal w as)
    (hat : Attaches me as) :
    (machine.run w as).view me.tx =
      Solo.machine.run (w.view me.tx) (as.filterMap (own me)) := by
  induction as generalizing w with
  | nil => rfl
  | cons a as ih =>
    have hmine : Mine me (w.step a).sinks :=
      hme.step fun sink cap he => hat sink cap (he ▸ mem_cons_self)
    have hrest : Attaches me as := fun sink cap hs => hat sink cap (mem_cons_of_mem _ hs)
    have hrun := ih (h.step hl.1) hmine hl.2 hrest
    rw [view_step h hme] at hrun
    rw [Runs.Machine.run_cons]
    refine hrun.trans ?_
    cases hown : own me a with
    | none => rw [filterMap_cons_none hown]; rfl
    | some b => rw [filterMap_cons_some hown]; rfl

theorem view_eq_of_own_eq {bs : List FanAct} (hl : machine.Legal start as)
    (hl' : machine.Legal start bs) (hat : Attaches me as) (hat' : Attaches me bs)
    (hown : as.filterMap (own me) = bs.filterMap (own me)) :
    (machine.run start as).view me.tx = (machine.run start bs).view me.tx := by
  have hmine : Mine me start.sinks := nofun
  rw [view_run start_good hmine hl hat, view_run start_good hmine hl' hat', hown]

theorem detach_removed (w : FanWorld) (target : EndpointAddr) :
    (w.detach target).1 = true ↔ ∃ s ∈ w.sinks, s.target = target := by
  simp only [detach, decide_eq_true_eq]
  rw [Ne, length_filter_eq_length_iff]
  simp

theorem fan_out_isolation (as : List FanAct) (hl : machine.Legal start as) :
    let w := machine.run start as
    (∀ k, w.received k <+: taken (w.fates k) ∧
      ((w.buffers.chans k).isOpen = true →
        w.received k ++ (w.buffers.chans k).queue = taken (w.fates k))) ∧
    (∀ c, w.buffers.full c = w.chargedTo c % u64Size) ∧
    (∀ me bs, machine.Legal start bs → Attaches me as → Attaches me bs →
      as.filterMap (own me) = bs.filterMap (own me) →
        w.view me.tx = (machine.run start bs).view me.tx) ∧
    (∀ target, (w.detach target).2 = { w with sinks := w.sinks.filter (·.target ≠ target) } ∧
      ((w.detach target).1 = true ↔ ∃ s ∈ w.sinks, s.target = target)) ∧
    (∀ chunk,
      (w.broadcast chunk).2.unattached =
        (if ∃ s ∈ w.sinks, (w.buffers.chans s.tx).isOpen = true then w.unattached
          else wrappingAdd w.unattached chunk.length) ∧
      (w.broadcast chunk).1.delivered =
        if ∃ s ∈ w.sinks, ((w.buffers.chans s.tx).trySend chunk).1 = .ok then chunk.length
        else 0) := by
  intro w
  have h : w.Good := start_good.run hl
  refine ⟨fun k => ⟨(h.kept k).received, (h.kept k).queued⟩, h.charged, ?_, ?_, ?_⟩
  · exact fun me bs hl' hat hat' hown => view_eq_of_own_eq hl hl' hat hat' hown
  · exact fun target => ⟨rfl, w.detach_removed target⟩
  · intro chunk
    have hlive := (h.after chunk).live
    have hdel := (h.after chunk).delivered
    constructor
    · change (if (w.broadcast chunk).1.live then _ else _) = _
      refine if_congr ?_ rfl rfl
      simpa using hlive
    · rw [hdel]
      exact if_congr (by simp only [trySend_ok_iff]) rfl rfl

def recorder : FanOutSink := ⟨⟨"log", "device"⟩, 0, 0⟩
def terminal : FanOutSink := ⟨⟨"pty", "device"⟩, 1, 1⟩
def watcher : FanOutSink := ⟨⟨"watch", "device"⟩, 2, 2⟩

instance (w : FanWorld) : ∀ a, Decidable (machine.ok w a)
  | .attach sink _ => inferInstanceAs (Decidable (sink.tx ∉ w.seen.map (·.tx)))
  | .broadcast _ | .detach _ | .receive _ | .hangUp _ => .isTrue trivial

def crowded : List FanAct :=
  [.attach recorder 2, .attach terminal 1, .broadcast [1], .broadcast [2, 3], .receive 0,
    .detach terminal.target, .hangUp 1, .broadcast [4], .broadcast [5]]

def quiet : List FanAct :=
  [.attach watcher 0, .hangUp 2, .attach recorder 2, .broadcast [1], .broadcast [2, 3], .receive 0,
    .detach watcher.target, .broadcast [4], .broadcast [5]]

theorem fan_out_isolation_crowded :
    machine.Legal start crowded ∧
      (machine.run start crowded).view 0 = (machine.run start quiet).view 0 ∧
      (machine.run start crowded).received 0 ++
        ((machine.run start crowded).buffers.chans 0).queue = [[1], [2, 3], [4]] ∧
      (machine.run start crowded).buffers.full 0 = 1 ∧
      (machine.run start crowded).buffers.full 1 = 2 := by
  have hl : machine.Legal start crowded := by decide +kernel
  obtain ⟨hkept, -, hiso, -⟩ := fan_out_isolation crowded hl
  refine ⟨hl, hiso recorder quiet (by decide +kernel) ?_ ?_ (by rfl), ?_, by decide +kernel,
    by decide +kernel⟩
  · intro sink cap hs htx
    simp only [crowded, mem_cons, FanAct.attach.injEq, reduceCtorEq, not_mem_nil, or_false] at hs
    rcases hs with ⟨rfl, -⟩ | ⟨rfl, -⟩
    · rfl
    · cases htx
  · intro sink cap hs htx
    simp only [quiet, mem_cons, FanAct.attach.injEq, reduceCtorEq, not_mem_nil,
      false_or, or_false] at hs
    rcases hs with ⟨rfl, -⟩ | ⟨rfl, -⟩
    · cases htx
    · rfl
  · rw [(hkept 0).2 (by decide +kernel)]
    decide +kernel

theorem dropped_receiver_and_empty_chunk :
    (∃ as k, machine.Legal start as ∧
      (machine.run start as).received k ++ ((machine.run start as).buffers.chans k).queue ≠
        taken ((machine.run start as).fates k)) ∧
    (∃ chunk : Chunk, (start.broadcast chunk).1.delivered = chunk.length ∧
      ¬ ∃ s ∈ start.sinks, ((start.buffers.chans s.tx).trySend chunk).1 = .ok) :=
  ⟨⟨[.attach recorder 2, .broadcast [1], .hangUp 0], 0, by decide +kernel, by decide +kernel⟩,
    [], by decide +kernel, by decide +kernel⟩

end FanWorld

structure HostwardChannelStat where
  active : Bool
  delivered : ℕ
  discarded : ℕ
  foldsFull : Bool
deriving DecidableEq

def routeChannelData (chunk : Chunk) (sinks : Option (List FanOutSink)) (b : Buffers)
    (stat : Option HostwardChannelStat) : Buffers × Option HostwardChannelStat :=
  match sinks with
  | none =>
    (b, stat.map fun s =>
      { s with active := true, discarded := wrappingAdd s.discarded chunk.length })
  | some sinks =>
    let (fan, b, unattached) := fanOut chunk sinks b (stat.elim 0 (·.discarded))
    (b, stat.map fun s =>
      { s with
        active := true
        delivered := wrappingAdd s.delivered fan.delivered
        discarded :=
          if s.foldsFull then wrappingAdd unattached fan.droppedFull else unattached })

end SerialNexus
