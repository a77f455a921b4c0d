import SerialNexus.History
import SerialNexus.TapWorld

/-! # A console, from the endpoint to the log of the browser

`web/src/assets/app.js` opens a tap, anchors the log of the console in the offset space the daemon
answers with (`openTap`), folds in what the tap sends (`onTapData`), and keeps a record of it across
reloads.  `Page` is one page over the hub of one endpoint; between its moves the daemon, the
producers and the other clients do what they like.

The answer to `tap.open` is written before the first message of the tap: opening is one move, and
being refused is another. -/

namespace SerialNexus

open List Function

namespace TapWorld

/-- What a page on connection `c` can rely on while others act. -/
structure Grows (c : ConnId) (w w' : TapWorld) : Prop where
  epoch : w'.hub.epoch = w.hub.epoch
  stream : w.stream <+: w'.stream
  grants : ∀ id g, w.grants id = some g → w'.grants id = some g
  received : w'.received c = w.received c

variable {w : TapWorld} {c : ConnId}

theorem step_grows {a : TapAct} (ha : w.Allowed a) (hc : a ≠ .receive c) : w.Grows c (w.step a) := by
  cases a with
  | mirror chunk =>
    refine ⟨?_, prefix_rfl, fun _ _ h => h, rfl⟩
    change (w.hub.mirror w.feed chunk).1.epoch = _
    unfold TapHub.mirror TapHub.carry
    split_ifs
    · split <;> rfl
    · rfl
  | drain =>
    change w.Grows c w.drainFeed
    unfold drainFeed
    split
    · next chunk feed _ =>
      exact ⟨rfl, prefix_append _ _, fun _ _ h => h, rfl⟩
    · exact ⟨rfl, prefix_rfl, fun _ _ h => h, rfl⟩
  | ingest chunk => exact ⟨rfl, prefix_append _ _, fun _ _ h => h, rfl⟩
  | register id c' replay =>
    refine ⟨?_, prefix_rfl, fun i g h => ?_, rfl⟩
    · change (w.hub.register w.conns id c' 0 replay).2.1.epoch = _
      rw [TapHub.register_eq]
      rfl
    · have hne : i ≠ id := by
        rintro rfl
        rw [ha.1] at h
        cases h
      exact (update_of_ne hne _ _).trans h
  | armWait id m lookback context replay =>
    refine ⟨?_, prefix_rfl, fun _ _ h => h, rfl⟩
    change (w.hub.armWait id m lookback context replay).2.epoch = _
    unfold TapHub.armWait
    split_ifs
    · rfl
    · dsimp only
      split <;> rfl
  | disarm id =>
    refine ⟨?_, prefix_rfl, fun _ _ h => h, rfl⟩
    change (w.hub.disarm id).2.epoch = _
    unfold TapHub.disarm
    split <;> rfl
  | receive c' =>
    have hne : c ≠ c' := fun h => hc (h ▸ rfl)
    change w.Grows c (w.receiveOn c')
    unfold receiveOn
    split
    · exact ⟨rfl, prefix_rfl, fun _ _ h => h, update_of_ne hne _ _⟩
    · exact ⟨rfl, prefix_rfl, fun _ _ h => h, rfl⟩
  | skipped | attachTerminal | close | detachAll | foreign | hangUp =>
    exact ⟨rfl, prefix_rfl, fun _ _ h => h, rfl⟩

theorem receiveOn_some {msg : TapMsg} (h : (w.conns c).out.recv.1 = some msg) :
    (w.receiveOn c).hub = w.hub ∧ (w.receiveOn c).stream = w.stream ∧
      (w.receiveOn c).grants = w.grants ∧ (w.receiveOn c).received c = w.received c ++ [msg] := by
  unfold receiveOn
  split
  · next msg' out he =>
    rw [he] at h
    obtain rfl := Option.some.inj h
    exact ⟨rfl, rfl, rfl, update_self ..⟩
  · next out he =>
    rw [he] at h
    cases h

end TapWorld

/-- A reader past every message of a tap lags by at most what the tap dropped. -/
theorem Ascending.le_add_holes {fro upto f : ℕ} {ds : List Datum} (h : Ascending fro ds upto)
    (hfro : fro ≤ f) (hds : ∀ d ∈ ds, d.offset + d.bytes.length ≤ f) :
    upto ≤ f + holes fro ds upto := by
  induction ds generalizing fro with
  | nil =>
    simp only [holes]
    omega
  | cons d ds ih =>
    have := ih h.2 (hds d mem_cons_self) fun e he => hds e (mem_cons_of_mem _ he)
    simp only [holes]
    omega

section slices
variable {stream : Chunk} {o n : ℕ}

theorem slice_stream (hle : o + n ≤ stream.length) :
    History.slice (fun x => stream.getD x 0) o n = (stream.drop o).take n := by
  refine ext_getElem ?_ fun i hi hi' => ?_
  · rw [History.slice_length, length_take, length_drop]
    omega
  · rw [History.slice_length] at hi
    have hlt : o + i < stream.length := by omega
    simp [History.slice, hlt]

theorem Datum.At.slice {d : Datum} (hd : d.At stream) :
    d.bytes = History.slice (fun x => stream.getD x 0) d.offset d.bytes.length := by
  rw [slice_stream hd.1]
  exact prefix_iff_eq_take.mp hd.2

theorem Datum.at_slice (hle : o + n ≤ stream.length) (gap : ℕ) :
    Datum.At stream ⟨History.slice (fun x => stream.getD x 0) o n, o, gap⟩ := by
  refine ⟨by rw [History.slice_length]; exact hle, ?_⟩
  rw [slice_stream hle]
  exact take_prefix _ _

end slices

namespace History

variable {h : History} {f o : ℕ}

theorem trim_epoch (h : History) : h.trim.epoch = h.epoch := by
  unfold trim
  split
  · split_ifs <;> rfl
  · rfl

theorem splice_epoch (h : History) (offset : ℕ) (bytes : Chunk) :
    (h.splice offset bytes).2.epoch = h.epoch := by
  unfold splice
  dsimp only
  split_ifs
  · rfl
  · exact trim_epoch _
  · exact trim_epoch _

theorem fromStored_spec (bytes : Chunk) (endOffset : ℕ) (epoch : Option ℕ) (cap : ℕ) :
    let h := fromStored bytes endOffset epoch cap
    h.frontier = some endOffset ∧ h.Counted ∧ h.dropped = 0 ∧ h.retained <:+ bytes ∧
      h.epoch = epoch := by
  unfold fromStored
  dsimp only
  split_ifs with hne
  · have hcounted : Counted { newHistory cap with
        epoch, frontier := some endOffset, chunks := [bytes], total := bytes.length } := by
      simp [Counted, retained]
    obtain ⟨hcount, hsuffix, hfrontier, hdropped⟩ := trim_spec hcounted
    exact ⟨hfrontier, hcount, hdropped, by simpa [retained] using hsuffix, trim_epoch _⟩
  · exact ⟨rfl, rfl, rfl, nil_suffix, rfl⟩

theorem Anchored.noteGap_eq (ha : h.Anchored f) (ho : o ≤ maxExact) :
    (h.noteGap o).1 = o - f ∧ (h.noteGap o).2 =
      { h with dropped := h.dropped + (o - f), frontier := some (max f o) } := by
  have hdropped := ha.dropped_le
  simp only [noteGap, ha.frontier]
  split_ifs with hle
  · rw [Nat.sub_eq_zero_of_le hle, max_eq_left hle, ← ha.frontier]
    exact ⟨rfl, rfl⟩
  · rw [toNumber_of_le (show o - f ≤ maxExact by omega), toNumber_of_le (by omega),
      max_eq_right (by omega)]
    exact ⟨rfl, rfl⟩

end History

structure Trace where
  older : Chunk
  shown : List Datum
  anchor : ℕ
  announced : ℕ

namespace Trace

def bytes (t : Trace) : Chunk := (t.shown.map (·.bytes)).flatten

def all (t : Trace) : Chunk := t.older ++ t.bytes

def enter (t : Trace) (fromOffset : ℕ) : Trace := ⟨t.all, [], fromOffset, 0⟩

/-- What was shown and what was announced tile the stream from the anchor to `f`. -/
structure Tiles (t : Trace) (stream : Chunk) (f : ℕ) : Prop where
  adds_up : t.anchor + t.bytes.length + t.announced = f
  le_stream : f ≤ stream.length
  exact : ∀ d ∈ t.shown, d.At stream
  apart : t.shown.Pairwise fun d e => d.offset + d.bytes.length ≤ e.offset
  below : ∀ d ∈ t.shown, d.offset + d.bytes.length ≤ f

variable {t : Trace} {stream stream' : Chunk} {f : ℕ}

theorem Tiles.grow (ht : t.Tiles stream f) (hs : stream <+: stream') : t.Tiles stream' f := by
  obtain ⟨more, rfl⟩ := hs
  refine ⟨ht.adds_up, ht.le_stream.trans ?_, fun d hd => (ht.exact d hd).append more, ht.apart,
    ht.below⟩
  rw [length_append]
  exact Nat.le_add_right _ _

theorem tiles_enter (older : Chunk) (hf : f ≤ stream.length) : Tiles ⟨older, [], f, 0⟩ stream f :=
  ⟨rfl, hf, by simp, by simp, by simp⟩

end Trace

structure Log where
  history : History
  trace : Trace

namespace Log

def empty : Log := ⟨.newHistory History.defaultCap, ⟨[], [], 0, 0⟩⟩

def ofRecord (bytes : Chunk) (endOffset : ℕ) (epoch : Option ℕ) (trace : Trace) : Log :=
  ⟨.fromStored bytes endOffset epoch History.defaultCap, trace⟩

def adopt (l : Log) (res : Registered) (hadBytes : Bool) : Log :=
  let restarted := if hadBytes then History.offsetSpaceChanged l.history.epoch res.epoch else false
  let h := { l.history with epoch := some res.epoch }
  if hadBytes = false then
    ⟨{ h with frontier := some res.fromOffset }, l.trace.enter res.fromOffset⟩
  else if restarted then ⟨(h.reanchor res.fromOffset).2, l.trace.enter res.fromOffset⟩
  else
    ⟨(h.noteGap res.fromOffset).2,
      { l.trace with announced := l.trace.announced + (h.noteGap res.fromOffset).1 }⟩

def onTapData (l : Log) (d : Datum) : Log :=
  let r := l.history.splice d.offset d.bytes
  ⟨r.2, { l.trace with
    shown := l.trace.shown ++ [⟨r.1, max d.offset (l.history.frontier.getD d.offset), d.gapBefore⟩]
    announced := l.trace.announced + (r.2.dropped - l.history.dropped) }⟩

def clear (l : Log) : Log :=
  ofRecord [] (l.history.frontier.getD 0) l.history.epoch ⟨[], [], l.history.frontier.getD 0, 0⟩

/-- A log over the hub of `epoch`: it ends at `f` in the hub's offset space, or has not entered it. -/
structure Ok (epoch : ℕ) (stream : Chunk) (l : Log) : Prop where
  counted : l.history.Counted
  retained : l.history.retained <:+ l.trace.all
  live : l.history.epoch = some epoch → ∃ f, l.history.frontier = some f ∧
    l.trace.Tiles stream f ∧ l.history.dropped ≤ l.trace.announced
  other : l.history.epoch ≠ some epoch → l.history.dropped = 0 ∧ l.trace.shown = []

variable {l : Log} {t : Trace} {stream stream' : Chunk} {epoch f : ℕ}

theorem Ok.grow (hl : l.Ok epoch stream) (hs : stream <+: stream') : l.Ok epoch stream' :=
  ⟨hl.counted, hl.retained,
    fun he => (hl.live he).imp fun _ h => ⟨h.1, h.2.1.grow hs, h.2.2⟩, hl.other⟩

theorem empty_ok (epoch : ℕ) (stream : Chunk) : empty.Ok epoch stream :=
  ⟨rfl, nil_suffix, fun h => absurd h (by simp [empty, History.newHistory]), fun _ => ⟨rfl, rfl⟩⟩

theorem ofRecord_ok {bytes : Chunk} {e : Option ℕ} (hbytes : bytes <:+ t.all)
    (hlive : e = some epoch → t.Tiles stream f) (hother : e ≠ some epoch → t.shown = []) :
    (ofRecord bytes f e t).Ok epoch stream := by
  obtain ⟨hf, hc, hd, hr, he⟩ := History.fromStored_spec bytes f e History.defaultCap
  refine ⟨hc, hr.trans hbytes, fun h => ⟨f, hf, hlive (he.symm.trans h), ?_⟩,
    fun h => ⟨hd, hother (he ▸ h)⟩⟩
  exact hd.le.trans (Nat.zero_le _)

theorem Ok.clear (hl : l.Ok epoch stream) : l.clear.Ok epoch stream := by
  refine ofRecord_ok nil_suffix (fun he => ?_) fun _ => rfl
  obtain ⟨f, hf, ht, -⟩ := hl.live he
  rw [hf]
  exact Trace.tiles_enter [] ht.le_stream

theorem Ok.anchored (hl : l.Ok epoch stream) (hlen : stream.length ≤ maxExact)
    (hf : l.history.frontier = some f) (ht : l.trace.Tiles stream f)
    (hd : l.history.dropped ≤ l.trace.announced) : l.history.Anchored f := by
  have hsum := ht.adds_up
  exact ⟨hf, hl.counted, by omega, ht.le_stream.trans hlen⟩

theorem Ok.adopt (hl : l.Ok epoch stream) (hlen : stream.length ≤ maxExact) {res : Registered}
    (hres : res.epoch = epoch) (hle : res.fromOffset ≤ stream.length) {hadBytes : Bool}
    (hhad : hadBytes = l.history.frontier.isSome) :
    (l.adopt res hadBytes).Ok epoch stream ∧ (l.adopt res hadBytes).history.epoch = some epoch ∧
      ∃ f, (l.adopt res hadBytes).history.frontier = some f ∧ res.fromOffset ≤ f := by
  have henter : ∀ h : History, h.epoch = some epoch → h.Counted → h.retained = l.history.retained →
      h.frontier = some res.fromOffset → h.dropped = 0 →
      Ok epoch stream ⟨h, l.trace.enter res.fromOffset⟩ ∧ h.epoch = some epoch ∧
        ∃ f, h.frontier = some f ∧ res.fromOffset ≤ f := by
    intro h he hc hr hf hd
    refine ⟨⟨hc, ?_, fun _ => ⟨_, hf, Trace.tiles_enter _ hle, hd.le⟩, fun hne => absurd he hne⟩, he, _, hf,
      le_rfl⟩
    dsimp only
    rw [hr, Trace.all, Trace.bytes, Trace.enter, map_nil, flatten_nil, append_nil]
    exact hl.retained
  cases hadBytes with
  | false =>
    -- nothing restored: the log starts where the tap does
    have hother : l.history.epoch ≠ some epoch := by
      intro he
      obtain ⟨f, hf, -⟩ := hl.live he
      simp [hf] at hhad
    exact henter _ (congrArg some hres) hl.counted rfl rfl (hl.other hother).1
  | true =>
    simp only [Log.adopt, if_true, Bool.true_eq_false, if_false]
    split_ifs with hrestart
    · have hother : l.history.epoch ≠ some epoch := by
        simpa [History.offsetSpaceChanged, hres] using hrestart
      refine henter _ ?_ ?_ ?_ ?_ ?_ <;> unfold History.reanchor <;> split_ifs with hsame
      exacts [congrArg some hres, congrArg some hres, hl.counted, hl.counted, rfl, rfl, hsame, rfl,
        (hl.other hother).1, (hl.other hother).1]
    · have hsame : l.history.epoch = some epoch := by
        simpa [History.offsetSpaceChanged, hres] using hrestart
      obtain ⟨f, hf, ht, hd⟩ := hl.live hsame
      obtain ⟨hlost, hnoted⟩ := (hl.anchored hlen hf ht hd).noteGap_eq (hle.trans hlen)
      rw [← hsame.trans (congrArg some hres.symm), hlost, hnoted]
      have hsum := ht.adds_up
      refine ⟨⟨hl.counted, hl.retained, fun _ => ⟨_, rfl, ⟨?_, max_le ht.le_stream hle, ht.exact,
        ht.apart, fun d hd => (ht.below d hd).trans (le_max_left _ _)⟩, Nat.add_le_add_right hd _⟩,
        fun hne => absurd hsame hne⟩, hsame, _, rfl, le_max_right _ _⟩
      change l.trace.anchor + l.trace.bytes.length + (l.trace.announced + _) = _
      omega

/-- One message folded into the log. -/
theorem Ok.onTapData {d : Datum} (hl : l.Ok epoch stream) (hlen : stream.length ≤ maxExact)
    (he : l.history.epoch = some epoch) (hat : d.At stream) :
    (l.onTapData d).Ok epoch stream ∧ (l.onTapData d).history.epoch = some epoch ∧
      ∀ f, l.history.frontier = some f →
        (l.onTapData d).history.frontier = some (max f (d.offset + d.bytes.length)) := by
  obtain ⟨f, hf, ht, hd⟩ := hl.live he
  have hend := hat.1
  have hle := ht.le_stream
  have hsum := ht.adds_up
  obtain ⟨hfresh, hanch, hdropped, hretained⟩ :=
    (hl.anchored hlen hf ht hd).splice (S := fun x => stream.getD x 0) (hend.trans hlen)
  rw [← hat.slice] at hfresh hanch hdropped hretained
  have hlength : (l.history.splice d.offset d.bytes).1.length =
      d.offset + d.bytes.length - max d.offset f := by rw [hfresh, History.slice_length]
  have hepoch := (History.splice_epoch l.history d.offset d.bytes).trans he
  refine ⟨⟨hanch.counted, ?_, fun _ => ⟨_, hanch.frontier, ?_, ?_⟩, fun hne => absurd hepoch hne⟩,
    hepoch, fun f' hf' => ?_⟩
  · obtain ⟨lost, hlost⟩ := hl.retained
    refine hretained.trans ⟨lost, ?_⟩
    rw [← append_assoc, hlost]
    simp [Trace.all, Trace.bytes, Log.onTapData]
  · simp only [Log.onTapData, hf, Option.getD_some]
    refine ⟨?_, by omega, ?_, ?_, ?_⟩
    · simp only [Trace.bytes, map_append, flatten_append, length_append, map_cons,
        map_nil, flatten_singleton, hlength, hdropped] at hsum ⊢
      omega
    · intro e he
      rcases mem_append.mp he with he | he
      · exact ht.exact e he
      · rw [mem_singleton.mp he, hfresh]
        exact Datum.at_slice (by omega) _
    · refine List.pairwise_append.mpr ⟨ht.apart, List.pairwise_singleton _ _, fun e he e' he' => ?_⟩
      rw [mem_singleton.mp he']
      exact (ht.below e he).trans (le_max_right _ _)
    · intro e he
      rcases mem_append.mp he with he | he
      · exact (ht.below e he).trans (le_max_left _ _)
      · rw [mem_singleton.mp he]
        simp only [hlength]
        omega
  · change (l.history.splice d.offset d.bytes).2.dropped ≤ l.trace.announced + (_ - l.history.dropped)
    omega
  · rw [← Option.some.inj (hf.symm.trans hf')]
    exact hanch.frontier

end Log

/-- A record of the page's storage, with the past of the log it was taken from. -/
structure Stored where
  bytes : Chunk
  endOffset : ℕ
  epoch : Option ℕ
  trace : Trace

def Stored.restore (s : Stored) : Log := .ofRecord s.bytes s.endOffset s.epoch s.trace

structure Page where
  world : TapWorld
  conn : ConnId
  tap : Option ℕ
  log : Log
  stored : Option Stored
  opfsOk : Bool

inductive PageAct where
  | daemon (a : TapAct)
  | receive
  | select (id : ℕ) (saved loads : Bool)
  | refused (saved loads : Bool)
  | resume (id : ℕ)
  | suspend
  | save
  | clear
  | storageFailed
  | reconnect (conn : ConnId)
  | reload (conn : ConnId) (opfsOk : Bool)

namespace Page

variable (p : Page)

def flushSave : Page :=
  match p.opfsOk, p.log.history.epoch, p.log.history.bytesOf, p.log.history.frontier with
  | true, some epoch, some bytes, some frontier =>
    { p with stored := some ⟨bytes, frontier, some epoch, p.log.trace⟩ }
  | _, _, _, _ => p

def openTap (log : Log) (id : ℕ) (hadBytes : Bool) : Page :=
  let res := (p.world.hub.register p.world.conns id p.conn 0 true).1
  { p with
    world := p.world.registerTap id p.conn true
    tap := some id
    log := log.adopt res hadBytes }

/-- A selection up to its `tap.open`, and whether a record was restored.  A save that fails meanwhile
turns the storage off, but the record it should have replaced is still loaded. -/
def adoptConsole (saved loads : Bool) : Page × Bool :=
  let q := if saved then p.flushSave else { p with opfsOk := false }
  let stored := if p.opfsOk && loads then q.stored else none
  ({ q with tap := none, log := stored.elim .empty Stored.restore }, stored.isSome)

def onMessage : TapMsg → Page
  | .data id bytes offset gapBefore =>
    if p.tap = some id then { p with log := p.log.onTapData ⟨bytes, offset, gapBefore⟩ } else p
  | .closed id _ _ => if p.tap = some id then { p.flushSave with tap := none } else p

def step : PageAct → Page
  | .daemon a => { p with world := p.world.step a }
  | .receive =>
    match (p.world.conns p.conn).out.recv.1 with
    | some msg => { p with world := p.world.receiveOn p.conn }.onMessage msg
    | none => p
  | .select id saved loads =>
    let (q, hadBytes) := p.adoptConsole saved loads
    q.openTap q.log id hadBytes
  | .refused saved loads => (p.adoptConsole saved loads).1
  | .resume id => p.openTap p.log id p.log.history.frontier.isSome
  | .suspend => { p.flushSave with tap := none }
  | .save => p.flushSave
  | .clear => { p with log := p.log.clear, stored := if p.opfsOk then none else p.stored }
  | .storageFailed => { p with opfsOk := false }
  | .reconnect conn => { p.flushSave with tap := none, conn }
  | .reload conn opfsOk => { p with tap := none, log := .empty, conn, opfsOk }

def CanOpen (id : ℕ) : Prop :=
  p.world.Allowed (.register id p.conn true) ∧ (p.world.conns p.conn).out.isOpen = true

def Allowed : PageAct → Prop
  | .daemon a => p.world.Allowed a ∧ a ≠ .receive p.conn ∧ (p.world.step a).stream.length ≤ maxExact
  | .select id _ _ => p.CanOpen id
  | .resume id => p.tap = none ∧ p.CanOpen id
  | _ => True

def machine : Runs.Machine Page PageAct := ⟨step, Allowed⟩

def start (endpoint : String) (ringCap epoch feedCap : ℕ) (conns : Conns) (conn : ConnId)
    (record : Option (Chunk × ℕ × Option ℕ)) : Page where
  world := .start endpoint ringCap epoch feedCap conns
  conn := conn
  tap := none
  log := .empty
  stored := record.map fun r => ⟨r.1, r.2.1, r.2.2, ⟨r.1, [], 0, 0⟩⟩
  opfsOk := true

/-- The log has passed everything its tap `id` was heard to say. -/
def Follows (grants : ℕ → Option Grant) (conn : ConnId) (epoch : ℕ) (log : Log)
    (heard : List TapMsg) (id : ℕ) : Prop :=
  log.history.epoch = some epoch ∧ ∃ g, grants id = some g ∧ g.out = conn ∧ g.wasOpen = true ∧
    ∀ f, log.history.frontier = some f → g.answer.fromOffset ≤ f ∧
      ∀ d ∈ dataFor id heard, d.offset + d.bytes.length ≤ f

structure Inv (epoch : ℕ) (p : Page) : Prop where
  world : p.world.Exact
  hub : p.world.hub.epoch = epoch
  short : p.world.stream.length ≤ maxExact
  log : p.log.Ok epoch p.world.stream
  tapped : ∀ id, p.tap = some id →
    Follows p.world.grants p.conn epoch p.log (p.world.received p.conn) id
  stored : ∀ s, p.stored = some s → s.restore.Ok epoch p.world.stream

variable {epoch : ℕ} {p : Page}

theorem Inv.daemon (hi : p.Inv epoch) {a : TapAct} (ha : p.world.Allowed a)
    (hc : a ≠ .receive p.conn) (hlen : (p.world.step a).stream.length ≤ maxExact) :
    Inv epoch { p with world := p.world.step a } := by
  have hg := TapWorld.step_grows ha hc
  refine ⟨TapWorld.step_exact hi.world a ha (hlen.trans_lt (by decide)), hg.epoch.trans hi.hub, hlen,
    hi.log.grow hg.stream, fun id hid => ?_, fun s hs => (hi.stored s hs).grow hg.stream⟩
  obtain ⟨he, g, hgrant, hrest⟩ := hi.tapped id hid
  refine ⟨he, g, hg.grants id g hgrant, ?_⟩
  dsimp only
  rw [hg.received]
  exact hrest

theorem Inv.untapped (hi : p.Inv epoch) (conn : ConnId) {log : Log}
    (hlog : log.Ok epoch p.world.stream) (opfsOk : Bool) :
    Inv epoch { p with tap := none, conn, log, opfsOk } :=
  ⟨hi.world, hi.hub, hi.short, hlog, fun _ h => absurd h (by simp), hi.stored⟩

theorem Inv.flushSave (hi : p.Inv epoch) : p.flushSave.Inv epoch := by
  unfold Page.flushSave
  split
  · next e bytes frontier ho he hb hf =>
    refine ⟨hi.world, hi.hub, hi.short, hi.log, hi.tapped, fun s hs => ?_⟩
    obtain rfl := Option.some.inj hs
    refine Log.ofRecord_ok ?_ (fun h => ?_) fun h => (hi.log.other (he ▸ h)).2
    · rw [History.bytesOf_eq hi.log.counted, Option.some.injEq] at hb
      exact hb ▸ hi.log.retained
    · obtain ⟨f, hf', ht, -⟩ := hi.log.live (he.trans h)
      rwa [Option.some.inj (hf'.symm.trans hf)] at ht
  · exact hi

theorem Inv.adoptConsole (hi : p.Inv epoch) (saved loads : Bool) :
    (p.adoptConsole saved loads).1.Inv epoch ∧ (p.adoptConsole saved loads).2 =
      (p.adoptConsole saved loads).1.log.history.frontier.isSome := by
  have hq : (if saved then p.flushSave else { p with opfsOk := false }).Inv epoch := by
    split_ifs
    · exact hi.flushSave
    · exact ⟨hi.world, hi.hub, hi.short, hi.log, hi.tapped, hi.stored⟩
  unfold Page.adoptConsole
  generalize (if saved then p.flushSave else { p with opfsOk := false }) = q at hq ⊢
  dsimp only
  cases hs : (if p.opfsOk && loads then q.stored else none) with
  | none => exact ⟨hq.untapped _ (Log.empty_ok _ _) _, rfl⟩
  | some s =>
    have hstored : q.stored = some s := by
      split_ifs at hs
      exact hs
    exact ⟨hq.untapped _ (hq.stored s hstored) _,
      (congrArg Option.isSome (History.fromStored_spec _ _ _ _).1).symm⟩

theorem CanOpen.adoptConsole {id : ℕ} (h : p.CanOpen id) (saved loads : Bool) :
    (p.adoptConsole saved loads).1.CanOpen id := by
  cases saved with
  | true =>
    have hflush : p.flushSave.CanOpen id := by
      unfold Page.flushSave
      split <;> exact h
    exact hflush
  | false => exact h

theorem Inv.clear (hi : p.Inv epoch) : (p.step .clear).Inv epoch := by
  refine ⟨hi.world, hi.hub, hi.short, hi.log.clear, fun id hid => ?_, fun s hs => ?_⟩
  · obtain ⟨hf, -, -, -, he⟩ := History.fromStored_spec [] (p.log.history.frontier.getD 0)
      p.log.history.epoch History.defaultCap
    obtain ⟨hepoch, g, hg⟩ := hi.tapped id hid
    obtain ⟨f, hf', -⟩ := hi.log.live hepoch
    refine ⟨he.trans hepoch, g, hg.1, hg.2.1, hg.2.2.1, fun f' h => hg.2.2.2 f' ?_⟩
    have hsame := hf.symm.trans h
    rwa [hf', Option.getD_some, ← hf'] at hsame
  · change (if p.opfsOk then none else p.stored) = some s at hs
    split_ifs at hs
    exact hi.stored s hs

theorem Inv.openTap (hi : p.Inv epoch) {log : Log} (hl : log.Ok epoch p.world.stream) {id : ℕ}
    {hadBytes : Bool} (ha : p.CanOpen id) (hhad : hadBytes = log.history.frontier.isSome) :
    (p.openTap log id hadBytes).Inv epoch := by
  obtain ⟨ha, ho⟩ := ha
  have hg := TapWorld.step_grows (c := p.conn) ha (by simp)
  have hreg := (hi.world.register_spec id true ho).2.1
  have hres : (p.world.hub.register p.world.conns id p.conn 0 true).1.epoch = epoch := by
    rw [TapHub.register_eq]
    exact hi.hub
  obtain ⟨hok, he, f, hf, hle⟩ := hl.adopt hi.short hres (by omega) hhad
  refine ⟨TapWorld.step_exact hi.world _ ha (hi.short.trans_lt (by decide)), hg.epoch.trans hi.hub,
    hi.short, hok, fun i hid => ?_, hi.stored⟩
  obtain rfl := Option.some.inj hid
  refine ⟨he, _, update_self .., rfl, ho, fun f' hf' => ?_⟩
  obtain rfl := Option.some.inj (hf.symm.trans hf')
  refine ⟨hle, fun d hd => ?_⟩
  -- no message of a tap precedes its registration
  have hnil : dataFor id (p.world.received p.conn) = [] :=
    dataFor_eq_nil fun m hm => ha.2 p.conn m ((hi.world.received_prefix p.conn).subset hm)
  change d ∈ dataFor id (p.world.received p.conn) at hd
  rw [hnil] at hd
  cases hd

theorem Inv.receive (hi : p.Inv epoch) {msg : TapMsg}
    (hmsg : (p.world.conns p.conn).out.recv.1 = some msg) : (p.step .receive).Inv epoch := by
  have hworld := TapWorld.receiveOn_exact hi.world p.conn
  obtain ⟨hhub, hstream, hgrants, hreceived⟩ := TapWorld.receiveOn_some hmsg
  have hmem : msg ∈ (p.world.receiveOn p.conn).sent p.conn :=
    (hworld.received_prefix p.conn).subset (by simp [hreceived])
  rw [step, hmsg]
  dsimp only
  generalize p.world.receiveOn p.conn = w at hworld hhub hstream hgrants hreceived hmem ⊢
  have hkeep : ∀ log : Log, log.Ok epoch p.world.stream → (∀ id, p.tap = some id →
      Follows p.world.grants p.conn epoch log (p.world.received p.conn ++ [msg]) id) →
      Inv epoch { p with world := w, log } := by
    intro log hlog htap
    rw [← hstream] at hlog
    rw [← hgrants, ← hreceived] at htap
    exact ⟨hworld, hhub ▸ hi.hub, hstream ▸ hi.short, hlog, htap, hstream ▸ hi.stored⟩
  -- a message of another tap changes nothing
  have hskip : (∀ id, p.tap = some id → dataFor id [msg] = []) → Inv epoch { p with world := w } := by
    refine fun hnone => hkeep p.log hi.log fun id hid => ?_
    rw [Follows, dataFor_append, hnone id hid, append_nil]
    exact hi.tapped id hid
  cases msg with
  | closed id endpoint reason =>
    have hw := hskip fun _ _ => rfl
    unfold onMessage
    dsimp only
    split_ifs
    · exact hw.flushSave.untapped _ hw.flushSave.log _
    · exact hw
  | data id bytes offset gapBefore =>
    by_cases htap : p.tap = some id
    · obtain ⟨he, g, hgrant, hout, hopen, hpast⟩ := hi.tapped id htap
      obtain ⟨f, hf, -⟩ := hi.log.live he
      have hat : Datum.At p.world.stream ⟨bytes, offset, gapBefore⟩ :=
        hstream ▸ hworld.sent_exact p.conn _ hmem (by simp [TapMsg.tapId, hgrants, hgrant])
      obtain ⟨hok, hepoch, hnext⟩ := hi.log.onTapData hi.short he hat
      rw [onMessage, if_pos htap]
      refine hkeep _ hok fun i hid => ?_
      obtain rfl := Option.some.inj (htap.symm.trans hid)
      refine ⟨hepoch, g, hgrant, hout, hopen, fun f' hf' => ?_⟩
      obtain rfl := Option.some.inj ((hnext f hf).symm.trans hf')
      obtain ⟨hfrom, hdata⟩ := hpast f hf
      refine ⟨hfrom.trans (le_max_left _ _), fun d hd => ?_⟩
      rw [dataFor_append] at hd
      rcases mem_append.mp hd with hd | hd
      · exact (hdata d hd).trans (le_max_left _ _)
      · obtain rfl : d = ⟨bytes, offset, gapBefore⟩ := by
          simpa [dataFor, TapMsg.datumFor] using hd
        exact le_max_right _ _
    · rw [onMessage, if_neg htap]
      refine hskip fun i hid => ?_
      have hne : id ≠ i := fun h => htap (h ▸ hid)
      simp [dataFor, TapMsg.datumFor, hne]

theorem Inv.step (hi : p.Inv epoch) {a : PageAct} (ha : p.Allowed a) : (p.step a).Inv epoch := by
  cases a with
  | daemon a => exact hi.daemon ha.1 ha.2.1 ha.2.2
  | receive =>
    cases hmsg : (p.world.conns p.conn).out.recv.1 with
    | some msg => exact hi.receive hmsg
    | none =>
      rw [Page.step, hmsg]
      exact hi
  | select id saved loads =>
    obtain ⟨hadopted, hhad⟩ := hi.adoptConsole saved loads
    exact hadopted.openTap hadopted.log (CanOpen.adoptConsole ha saved loads) hhad
  | refused saved loads => exact (hi.adoptConsole saved loads).1
  | resume id => exact hi.openTap hi.log ha.2 rfl
  | suspend => exact hi.flushSave.untapped _ hi.flushSave.log _
  | save => exact hi.flushSave
  | clear => exact hi.clear
  | storageFailed => exact ⟨hi.world, hi.hub, hi.short, hi.log, hi.tapped, hi.stored⟩
  | reconnect conn => exact hi.flushSave.untapped conn hi.flushSave.log _
  | reload conn opfsOk => exact hi.untapped conn (Log.empty_ok _ _) opfsOk

section runs

variable {endpoint : String} {ringCap feedCap : ℕ} {conns : Conns} {conn : ConnId}
  {record : Option (Chunk × ℕ × Option ℕ)}

theorem start_inv (hrecord : ∀ r ∈ record, r.2.2 ≠ some epoch) :
    (start endpoint ringCap epoch feedCap conns conn record).Inv epoch where
  world := TapWorld.start_exact _ _ _ _ _
  hub := rfl
  short := Nat.zero_le _
  log := Log.empty_ok _ _
  tapped _ h := absurd h (by simp [start])
  stored s hs := by
    obtain ⟨r, hr, rfl⟩ := Option.map_eq_some_iff.mp hs
    exact Log.ofRecord_ok (by simp [Trace.all, Trace.bytes]) (fun h => absurd h (hrecord r hr))
      fun _ => rfl

theorem reachable_inv (hrecord : ∀ r ∈ record, r.2.2 ≠ some epoch)
    (h : machine.Reachable (start endpoint ringCap epoch feedCap conns conn record) p) : p.Inv epoch :=
  h.invariant (start_inv hrecord) fun _ _ hi ha => hi.step ha

/-- **The log of a console is exact.**  Whatever the daemon, its producers, the other clients and
the page itself do, as long as no offset passes `2 ^ 53`. -/
theorem console_log_exact (hrecord : ∀ r ∈ record, r.2.2 ≠ some epoch)
    (h : machine.Reachable (start endpoint ringCap epoch feedCap conns conn record) p) :
    (∃ bytes, p.log.history.bytesOf = some bytes ∧ bytes <:+ p.log.trace.all) ∧
    (p.log.history.epoch = some epoch →
      ∃ f, p.log.history.frontier = some f ∧ p.log.trace.Tiles p.world.stream f) := by
  have hi := reachable_inv hrecord h
  refine ⟨⟨_, History.bytesOf_eq hi.log.counted, hi.log.retained⟩, fun he => ?_⟩
  exact (hi.log.live he).imp fun _ hl => ⟨hl.1, hl.2.1⟩

/-- **A console catches up**: once it has read what was queued for it, all that its log lacks of the
stream is what its tap dropped. -/
theorem console_catches_up (hrecord : ∀ r ∈ record, r.2.2 ≠ some epoch)
    (h : machine.Reachable (start endpoint ringCap epoch feedCap conns conn record) p) {t : Tap}
    (ht : t ∈ p.world.hub.taps) (htap : p.tap = some t.id)
    (hq : (p.world.conns p.conn).out.queue = []) (ho : (p.world.conns p.conn).out.isOpen = true) :
    ∃ f, p.log.history.frontier = some f ∧ f ≤ p.world.stream.length ∧
      p.world.stream.length ≤ f + t.dropped := by
  have hi := reachable_inv hrecord h
  obtain ⟨he, g, hg, hout, hopen, hpast⟩ := hi.tapped _ htap
  obtain ⟨f, hf, htiles, -⟩ := hi.log.live he
  obtain ⟨hfrom, hdata⟩ := hpast f hf
  obtain ⟨g', hg', hout', htile⟩ := hi.world.taps_tile t ht
  obtain rfl := Option.some.inj (hg.symm.trans hg')
  obtain ⟨hasc, hholes⟩ := htile hopen
  -- the page has read everything that was sent on its connection
  have hall : p.world.received p.conn = p.world.sent t.out := by
    rw [← hout', hout, ← hi.world.received_queue p.conn ho, hq, append_nil]
  rw [hall] at hdata
  exact ⟨f, hf, htiles.le_stream, hholes ▸ hasc.le_add_holes hfrom hdata⟩

end runs

def otherBoot : Page := start "usb0" 4 1 256 TapWorld.oneSlot 0 (some ([70, 71], 40, some 0))

def reopened : List PageAct :=
  [.daemon (.ingest [1, 2, 3, 4, 5, 6]), .select 7 true true, .receive, .daemon (.ingest [7, 8]),
    .daemon (.ingest [9]), .receive, .daemon (.ingest [10]), .receive]

def reopenedPage : Page := machine.run otherBoot reopened

theorem reopenedPage_reachable : machine.Reachable otherBoot reopenedPage := by
  refine ⟨reopened, .cons ⟨trivial, by simp, by decide⟩ (.cons ⟨⟨rfl, fun _ _ hm => ?_⟩, rfl⟩
    (.cons trivial (.cons ⟨trivial, by simp, by decide⟩ (.cons ⟨trivial, by simp, by decide⟩
      (.cons trivial (.cons ⟨trivial, by simp, by decide⟩ (.cons trivial trivial))))))), rfl⟩
  cases hm

theorem console_log_exact_reopened :
    reopenedPage.log.history.bytesOf = some [70, 71, 3, 4, 5, 6, 7, 8, 10] ∧
      reopenedPage.log.trace.announced = 1 ∧ reopenedPage.log.trace.anchor = 2 ∧
      ∃ f, reopenedPage.log.history.frontier = some f ∧
        reopenedPage.log.trace.Tiles reopenedPage.world.stream f :=
  ⟨by decide +kernel, by decide +kernel, by decide +kernel,
    (console_log_exact (by simp) reopenedPage_reachable).2 (by decide +kernel)⟩

theorem console_catches_up_reopened : ∃ t ∈ reopenedPage.world.hub.taps, t.dropped = 1 ∧
    ∃ f, reopenedPage.log.history.frontier = some f ∧ f ≤ reopenedPage.world.stream.length ∧
      reopenedPage.world.stream.length ≤ f + t.dropped := by
  obtain ⟨t, ht, hid, hdropped⟩ : ∃ t ∈ reopenedPage.world.hub.taps,
    reopenedPage.tap = some t.id ∧ t.dropped = 1 := by decide +kernel
  exact ⟨t, ht, hdropped, console_catches_up (by simp) reopenedPage_reachable ht hid
    (by decide +kernel) (by decide +kernel)⟩

end Page
end SerialNexus
