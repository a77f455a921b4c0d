import SerialNexus.EnvelopeExact
import SerialNexus.Runs
import SerialNexus.Wire

/-! # The sending half of a leg's pump

The write half of `pump` (`daemon/src/nodes/leg.rs`) takes a chunk from one of its channels, frames
it and writes the frames one after another.  Until its last byte is on the wire or charged the chunk
is in the custody slot: the write half may be dropped in the middle of any write, and what is in the
slot then is charged as gone with the peer.

A step is one event at an await: a chunk comes, the socket takes some bytes, the write fails, or the
other half ends the pump. -/

namespace SerialNexus

open List Framing

def Framable (channel : String) : Prop := 3 + (utf8 channel).length + 1 ≤ maxFrameSize

instance : DecidablePred Framable := fun _ => inferInstanceAs (Decidable (_ ≤ _))

variable {channel : String} {payload bytes : Chunk}

theorem encode_data_ok (h : 3 + (utf8 channel).length + payload.length ≤ maxFrameSize) :
    ∃ frame, encode ⟨channel, .data payload⟩ [] = .ok frame :=
  ⟨_, encode_eq_ok_iff.mpr ⟨h, rfl⟩⟩

theorem encode_data_error (h : maxFrameSize < 3 + (utf8 channel).length + payload.length) :
    ∃ e, encode ⟨channel, .data payload⟩ [] = .error e := by
  cases henc : encode ⟨channel, .data payload⟩ [] with
  | error e => exact ⟨e, rfl⟩
  | ok frame => exact absurd (encode_eq_ok_iff.mp henc).1 (not_le.mpr h)

def Carries (event : Event) (item : DataFrame) : Prop :=
  ∃ payload frame, event.kind = .data payload ∧ encode event [] = .ok frame ∧
    item = .piece payload.length frame

theorem rangesFrom_le {cap total fuel off : ℕ} {r : ℕ × ℕ} (h : r ∈ rangesFrom cap total fuel off) :
    r.2 ≤ total := by
  induction fuel generalizing off with
  | zero => cases h
  | succ fuel ih =>
    rw [rangesFrom] at h
    split_ifs at h
    · cases h
    · rcases mem_cons.mp h with rfl | h
      · exact min_le_right _ _
      · exact ih h

theorem framesOf_carries {ranges : List (ℕ × ℕ)} (h : ∀ r ∈ ranges, r.2 ≤ bytes.length ∧
      3 + (utf8 channel).length + ((bytes.take r.2).drop r.1).length ≤ maxFrameSize) :
    List.Forall₂ Carries (ranges.map fun r => ⟨channel, .data ((bytes.take r.2).drop r.1)⟩)
      (framesOf channel bytes ranges) := by
  induction ranges with
  | nil => exact .nil
  | cons r ranges ih =>
    obtain ⟨hle, hfits⟩ := h r mem_cons_self
    obtain ⟨frame, hframe⟩ := encode_data_ok hfits
    have hlen : ((bytes.take r.2).drop r.1).length = r.2 - r.1 := by
      rw [length_drop, length_take, min_eq_left hle]
    rw [framesOf, hframe, map_cons, ← hlen]
    exact .cons ⟨_, frame, rfl, hframe, rfl⟩ (ih fun r hr => h r (mem_cons_of_mem _ hr))

theorem dataFrames_carries (h : Framable channel) (bytes : Chunk) :
    List.Forall₂ Carries (chunkEvents channel bytes) (dataFrames channel bytes) := by
  rw [chunkEvents_eq_ranges]
  refine framesOf_carries fun r hr => ⟨rangesFrom_le hr, ?_⟩
  have hmem := slice_mem_chunks hr
  have hle := Chunks.length_le_of_mem_chunks (framePayloadCap_pos channel) hmem
  unfold Framable at h
  unfold framePayloadCap at hle
  omega

theorem dataFrames_unframable (h : ¬ Framable channel) (hne : bytes ≠ []) :
    dataFrames channel bytes = [.residual bytes.length] := by
  have hpos := length_pos_iff.mpr hne
  have hcap := framePayloadCap_pos channel
  obtain ⟨fuel, hfuel⟩ : ∃ fuel, bytes.length = fuel + 1 := ⟨bytes.length - 1, by omega⟩
  have hslice : maxFrameSize < 3 + (utf8 channel).length +
      ((bytes.take (min (0 + framePayloadCap channel) bytes.length)).drop 0).length := by
    rw [drop_zero, length_take]
    unfold Framable at h
    omega
  obtain ⟨e, he⟩ := encode_data_error hslice
  unfold dataFrames frameRanges
  conv_lhs => rw [hfuel]
  rw [rangesFrom, ← hfuel, if_neg (by omega), framesOf, he]
  rfl

/-! ### The pump -/

/-- Counters are tallies, which `u64` cells show modulo `2 ^ 64`. -/
structure SendStat where
  deliveredHostward : ℕ
  acceptedTargetward : ℕ
  discardedUnframable : ℕ
  discardedPeerGone : ℕ
  active : Bool
deriving DecidableEq, Repr

namespace SendStat

def credited (hostward : Bool) (s : SendStat) : ℕ :=
  if hostward then s.deliveredHostward else s.acceptedTargetward

def credit (hostward : Bool) (n : ℕ) (s : SendStat) : SendStat :=
  if hostward then { s with deliveredHostward := s.deliveredHostward + n }
  else { s with acceptedTargetward := s.acceptedTargetward + n }

/-- Bytes charged as lost. -/
def charged (s : SendStat) : ℕ := s.discardedUnframable + s.discardedPeerGone

@[simp] theorem credited_credit (hostward : Bool) (n : ℕ) (s : SendStat) :
    (s.credit hostward n).credited hostward = s.credited hostward + n := by
  cases hostward <;> rfl

@[simp] theorem credited_not_credit (hostward : Bool) (n : ℕ) (s : SendStat) :
    (s.credit hostward n).credited (!hostward) = s.credited (!hostward) := by
  cases hostward <;> rfl

@[simp] theorem charged_credit (hostward : Bool) (n : ℕ) (s : SendStat) :
    (s.credit hostward n).charged = s.charged := by
  cases hostward <;> rfl

end SendStat

structure InFlight where
  channel : String
  remaining : ℕ
deriving DecidableEq, Repr

def discharge (slot : Option InFlight) (n : ℕ) : Option InFlight :=
  slot.map fun f => { f with remaining := f.remaining - n }

inductive WriteHalf where
  | waiting
  | writing (channel : String) (payloadLen : ℕ) (frame : List UInt8) (done : ℕ)
      (rest : List DataFrame)
  | parked
  | ended (reason : PumpEnd)
deriving DecidableEq, Repr

structure SendPump where
  sendIsHostward : Bool
  stats : String → Option SendStat
  inFlight : Option InFlight
  write : WriteHalf
  wire : List UInt8
  pulled : List (String × Chunk)

inductive SendAct where
  | pull (channel : String) (bytes : Chunk)
  | close
  | accept (n : ℕ)
  | fail
  | stop (reason : PumpEnd)

namespace SendPump

def start (hostward : Bool) (stats : String → Option SendStat) : SendPump where
  sendIsHostward := hostward
  stats := stats
  inFlight := none
  write := .waiting
  wire := []
  pulled := []

variable (w : SendPump)

def onStat (channel : String) (f : SendStat → SendStat) : SendPump :=
  { w with stats := Function.update w.stats channel ((w.stats channel).map f) }

def account (channel : String) (n : ℕ) (f : SendStat → SendStat) : SendPump :=
  { w with inFlight := discharge w.inFlight n }.onStat channel f

def proceed (channel : String) : List DataFrame → SendPump → SendPump
  | [], w => { w with inFlight := none, write := .waiting }
  | .piece n frame :: rest, w => { w with write := .writing channel n frame 0 rest }
  | .residual n :: rest, w =>
    proceed channel rest (w.account channel n fun s =>
      { s with discardedUnframable := s.discardedUnframable + n })

def takeChunk (channel : String) (bytes : Chunk) : SendPump :=
  { w.onStat channel fun s => { s with active := true } with
    inFlight := some ⟨channel, bytes.length⟩
    pulled := w.pulled ++ [(channel, bytes)] }

def pull (channel : String) (bytes : Chunk) : SendPump :=
  proceed channel (dataFrames channel bytes) (w.takeChunk channel bytes)

def frameWritten (channel : String) (n : ℕ) (rest : List DataFrame) : SendPump :=
  proceed channel rest (w.account channel n fun s => s.credit w.sendIsHostward n)

def finish (reason : PumpEnd) : SendPump :=
  match w.inFlight with
  | some f =>
    if f.remaining > 0 then
      { w with inFlight := none, write := .ended reason }.onStat f.channel fun s =>
        { s with discardedPeerGone := s.discardedPeerGone + f.remaining }
    else { w with inFlight := none, write := .ended reason }
  | none => { w with write := .ended reason }

def step : SendAct → SendPump
  | .pull channel bytes => w.pull channel bytes
  | .close => { w with write := .parked }
  | .accept n =>
    match w.write with
    | .writing channel len frame done rest =>
      let w' := { w with wire := w.wire ++ (frame.drop done).take n }
      if frame.length ≤ done + n then w'.frameWritten channel len rest
      else { w' with write := .writing channel len frame (done + n) rest }
    | _ => w
  | .fail => w.finish .peerGone
  | .stop reason => w.finish reason

def Allowed : SendAct → Prop
  | .pull _ _ | .close => w.write = .waiting
  | .accept n => 0 < n ∧ ∃ channel len frame done rest, w.write = .writing channel len frame done rest
  | .fail => ∃ channel len frame done rest, w.write = .writing channel len frame done rest
  | .stop _ => ∀ reason, w.write ≠ .ended reason

def machine : Runs.Machine SendPump SendAct := ⟨step, Allowed⟩

def custody (channel : String) : ℕ :=
  match w.inFlight with
  | some f => if f.channel = channel then f.remaining else 0
  | none => 0

def whole : List Event := (decodeWhole tryDecode w.wire).1

def events (pulled : List (String × Chunk)) : List Event :=
  sentEvents (pulled.filter fun p => decide (Framable p.1))

structure Balanced (hostward : Bool) (s₀ s : SendStat) (onWire custody taken : ℕ) : Prop where
  credited : s.credited hostward = s₀.credited hostward + onWire
  other : s.credited (!hostward) = s₀.credited (!hostward)
  conserved : s.credited hostward + s.charged + custody = s₀.credited hostward + s₀.charged + taken

def Books (hostward : Bool) (base : String → Option SendStat) (stats : String → Option SendStat)
    (onWire custody taken : String → ℕ) : Prop :=
  ∀ ch s₀, base ch = some s₀ →
    ∃ s, stats ch = some s ∧ Balanced hostward s₀ s (onWire ch) (custody ch) (taken ch)

section books
variable {hostward : Bool} {base stats : String → Option SendStat}
  {onWire custody taken onWire' custody' taken' : String → ℕ}

theorem Books.update (hb : Books hostward base stats onWire custody taken) (ch : String)
    {f : SendStat → SendStat}
    (hf : ∀ s₀ s, Balanced hostward s₀ s (onWire ch) (custody ch) (taken ch) →
      Balanced hostward s₀ (f s) (onWire' ch) (custody' ch) (taken' ch))
    (hother : ∀ c, c ≠ ch → onWire' c = onWire c ∧ custody' c = custody c ∧ taken' c = taken c) :
    Books hostward base (Function.update stats ch ((stats ch).map f)) onWire' custody' taken' := by
  intro c s₀ hs₀
  obtain ⟨s, hs, hbal⟩ := hb c s₀ hs₀
  by_cases hc : c = ch
  · subst hc
    rw [Function.update_self, hs]
    exact ⟨f s, rfl, hf s₀ s hbal⟩
  · obtain ⟨hw, hcust, ht⟩ := hother c hc
    rw [Function.update_of_ne hc, hw, hcust, ht]
    exact ⟨s, hs, hbal⟩

theorem Books.congr (hb : Books hostward base stats onWire custody taken)
    (h : ∀ c, custody' c = custody c) : Books hostward base stats onWire custody' taken := by
  intro c s₀ hs₀
  rw [h c]
  exact hb c s₀ hs₀

end books

def Half (w : SendPump) (pending : List Event) (part : List UInt8) : Prop :=
  match w.write with
  | .waiting | .parked => part = [] ∧ pending = [] ∧ w.inFlight = none
  | .writing channel len frame done rest =>
    part = frame.take done ∧ done < frame.length ∧
      List.Forall₂ Carries pending (.piece len frame :: rest) ∧
      (∀ e ∈ pending, e.channel = channel) ∧
      w.inFlight = some ⟨channel, ((DataFrame.piece len frame :: rest).map
        DataFrame.sourceBytes).sum⟩
  | .ended _ => w.inFlight = none

structure Kept (hostward : Bool) (base : String → Option SendStat) (w : SendPump)
    (sent pending : List Event) (part : List UInt8) : Prop where
  direction : w.sendIsHostward = hostward
  framed : ∃ frames, Framed sent frames ∧ w.wire = (frames.map Prod.fst).flatten ++ part
  partly : tryDecode part = .ok none
  order : events w.pulled = sent ++ pending
  books : Books hostward base w.stats (fun ch => (routed ch sent).length) w.custody
    (fun ch => (sentOn ch w.pulled).length)
  half : w.Half pending part

section kept
variable {hostward : Bool} {base : String → Option SendStat} {w : SendPump}
  {sent pending : List Event} {part : List UInt8} {onWire onWire' taken : String → ℕ}

theorem start_kept (hostward : Bool) (base : String → Option SendStat) :
    Kept hostward base (start hostward base) [] [] [] where
  direction := rfl
  framed := ⟨[], ⟨rfl, nofun⟩, rfl⟩
  partly := rfl
  order := rfl
  books _ s₀ hs₀ := ⟨s₀, hs₀, rfl, rfl, rfl⟩
  half := ⟨rfl, rfl, rfl⟩

variable {channel : String} {e : Event} {frame : List UInt8}

theorem Kept.proceed {items : List DataFrame} (hh : w.sendIsHostward = hostward)
    (hframed : ∃ frames, Framed sent frames ∧ w.wire = (frames.map Prod.fst).flatten)
    (horder : events w.pulled = sent ++ pending)
    (hbooks : Books hostward base w.stats (fun ch => (routed ch sent).length) w.custody
      (fun ch => (sentOn ch w.pulled).length)) (hitems : List.Forall₂ Carries pending items)
    (hchannel : ∀ e ∈ pending, e.channel = channel)
    (hflight : w.inFlight = some ⟨channel, (items.map DataFrame.sourceBytes).sum⟩) :
    Kept hostward base (SendPump.proceed channel items w) sent pending [] := by
  have hframed' : ∃ frames, Framed sent frames ∧ w.wire = (frames.map Prod.fst).flatten ++ [] := by
    simpa only [append_nil] using hframed
  cases hitems with
  | nil =>
    refine ⟨hh, hframed', rfl, horder, hbooks.congr fun c => ?_, rfl, rfl, rfl⟩
    simp [SendPump.proceed, custody, hflight]
  | @cons e item pending rest hcarries hrest =>
    obtain ⟨payload, frame, hkind, hframe, rfl⟩ := hcarries
    have hpos := length_pos_iff.mpr (encode_frame hframe).1.nonempty
    refine ⟨hh, hframed', rfl, horder, hbooks.congr fun c => rfl, rfl, hpos, ?_, hchannel, hflight⟩
    exact .cons ⟨payload, frame, hkind, hframe, rfl⟩ hrest

theorem events_concat (pulled : List (String × Chunk)) (channel : String) (bytes : Chunk) :
    events (pulled ++ [(channel, bytes)]) =
      events pulled ++ if Framable channel then chunkEvents channel bytes else [] := by
  unfold events sentEvents
  rw [filter_append, flatMap_append]
  split_ifs with h <;> simp [h]

theorem sentOn_concat (ch channel : String) (pulled : List (String × Chunk)) (bytes : Chunk) :
    (sentOn ch (pulled ++ [(channel, bytes)])).length =
      (sentOn ch pulled).length + if channel = ch then bytes.length else 0 := by
  unfold sentOn
  rw [flatMap_append, length_append]
  split_ifs with h <;> simp [h]

theorem takeChunk_books (hflight : w.inFlight = none)
    (hbooks : Books hostward base w.stats onWire w.custody
      (fun ch => (sentOn ch w.pulled).length)) (channel : String) (bytes : Chunk) :
    Books hostward base (w.takeChunk channel bytes).stats onWire (w.takeChunk channel bytes).custody
      (fun ch => (sentOn ch (w.takeChunk channel bytes).pulled).length) := by
  have hnone : ∀ c, w.custody c = 0 := fun c => by rw [custody, hflight]
  have hcustody : ∀ c, (w.takeChunk channel bytes).custody c =
      if channel = c then bytes.length else 0 := fun c => rfl
  have htaken : ∀ c, (sentOn c (w.takeChunk channel bytes).pulled).length = _ := fun c =>
    sentOn_concat c channel w.pulled bytes
  refine hbooks.update channel (fun s₀ s hbal => ⟨hbal.credited, hbal.other, ?_⟩) fun c hc => ?_
  · have hconserved := hbal.conserved
    rw [hnone] at hconserved
    rw [hcustody, htaken, if_pos rfl, ← Nat.add_assoc, ← hconserved]
    rfl
  · rw [hcustody, htaken, if_neg (Ne.symm hc), hnone]
    exact ⟨rfl, rfl, rfl⟩

theorem account_books {n k r : ℕ} (hflight : w.inFlight = some ⟨channel, r⟩) (hn : n ≤ r)
    (hbooks : Books hostward base w.stats onWire w.custody taken) {f : SendStat → SendStat}
    (hf : ∀ s, (f s).credited hostward = s.credited hostward + k ∧
      (f s).credited (!hostward) = s.credited (!hostward) ∧
      (f s).credited hostward + (f s).charged = s.credited hostward + s.charged + n)
    (hwire : ∀ c, onWire' c = onWire c + if c = channel then k else 0) :
    Books hostward base (w.account channel n f).stats onWire' (w.account channel n f).custody
      taken := by
  have hcustody : ∀ c, w.custody c = if channel = c then r else 0 := fun c => by
    rw [custody, hflight]
  have hcustody' : ∀ c, (w.account channel n f).custody c = if channel = c then r - n else 0 :=
    fun c => by simp [account, custody, onStat, discharge, hflight]
  refine hbooks.update channel (fun s₀ s hbal => ?_) fun c hc => ⟨?_, ?_, rfl⟩
  · obtain ⟨hcredit, hother, hsum⟩ := hf s
    have hconserved := hbal.conserved
    have hcredited := hbal.credited
    rw [hcustody, if_pos rfl] at hconserved
    refine ⟨?_, hother.trans hbal.other, ?_⟩
    · rw [hwire, if_pos rfl]
      omega
    · rw [hcustody', if_pos rfl]
      omega
  · rw [hwire, if_neg hc, Nat.add_zero]
  · rw [hcustody, hcustody', if_neg (Ne.symm hc), if_neg (Ne.symm hc)]

theorem Kept.pull (hk : Kept hostward base w sent pending part) (hw : w.write = .waiting)
    (channel : String) (bytes : Chunk) :
    ∃ pending' part', Kept hostward base (w.pull channel bytes) sent pending' part' := by
  obtain ⟨hdir, ⟨frames, hframed, hwire⟩, -, horder, hbooks, hhalf⟩ := hk
  unfold Half at hhalf
  rw [hw] at hhalf
  obtain ⟨rfl, rfl, hflight⟩ := hhalf
  rw [append_nil] at hwire horder
  have hbooks' := takeChunk_books hflight hbooks channel bytes
  have horder' := events_concat w.pulled channel bytes
  rw [horder] at horder'
  by_cases hf : Framable channel
  · rw [if_pos hf] at horder'
    refine ⟨_, [], Kept.proceed hdir ⟨frames, hframed, hwire⟩ horder' hbooks'
      (dataFrames_carries hf bytes) ?_ ?_⟩
    · simp [chunkEvents]
    · rw [dataFrames_sourceBytes]
      rfl
  rw [if_neg hf] at horder'
  refine ⟨[], [], ?_⟩
  by_cases hne : bytes = []
  · subst hne
    exact Kept.proceed hdir ⟨frames, hframed, hwire⟩ horder' hbooks' .nil (by simp) rfl
  · -- the whole chunk is refused
    rw [SendPump.pull, dataFrames_unframable hf hne]
    change Kept _ _ (SendPump.proceed channel [] _) _ _ _
    refine Kept.proceed hdir ⟨frames, hframed, hwire⟩ horder' ?_ .nil (by simp) ?_
    · refine account_books (k := 0) rfl le_rfl hbooks' (fun s => ⟨rfl, rfl, ?_⟩) fun c => ?_
      · simp only [SendStat.charged, SendStat.credited]
        omega
      · rw [ite_self, Nat.add_zero]
    · simp [account, takeChunk, discharge, onStat]

theorem framed_concat {frames : List (List UInt8 × Event)} (h : Framed sent frames)
    (he : encode e [] = .ok frame) : Framed (sent ++ [e]) (frames ++ [(frame, e)]) := by
  obtain ⟨hsnd, henc⟩ := h
  refine ⟨by rw [map_append, hsnd]; rfl, fun f hf => ?_⟩
  rcases mem_append.mp hf with hf | hf
  · exact henc f hf
  · obtain rfl := mem_singleton.mp hf
    exact he

theorem routed_concat (c : String) (sent : List Event) {payload : Chunk}
    (he : e.kind = .data payload) :
    (routed c (sent ++ [e])).length =
      (routed c sent).length + if c = e.channel then payload.length else 0 := by
  rw [routed_append, length_append]
  congr 1
  by_cases hc : c = e.channel
  · rw [if_pos hc]
    simp [routed, he, hc]
  · rw [if_neg hc]
    simp [routed, he, Ne.symm hc]

theorem Kept.accept (hk : Kept hostward base w sent pending part) {len : ℕ} {done : ℕ}
    {rest : List DataFrame} (hw : w.write = .writing channel len frame done rest) (n : ℕ) :
    ∃ sent' pending' part', Kept hostward base (w.step (.accept n)) sent' pending' part' := by
  obtain ⟨hdir, ⟨frames, hframed, hwire⟩, -, horder, hbooks, hhalf⟩ := hk
  unfold Half at hhalf
  rw [hw] at hhalf
  obtain ⟨rfl, hdone, hitems, hchannel, hflight⟩ := hhalf
  obtain ⟨e, pending, ⟨payload, frame', hkind, hframe, hitem⟩, hrest, rfl⟩ :=
    forall₂_cons_right_iff.mp hitems
  obtain ⟨rfl, rfl⟩ := DataFrame.piece.inj hitem
  have hpart : frame.take done ++ (frame.drop done).take n = frame.take (done + n) := take_add.symm
  simp only [step, hw]
  split_ifs with hwhole
  · -- the frame is out
    rw [take_of_length_le hwhole] at hpart
    refine ⟨sent ++ [e], pending, [], ?_⟩
    have he := hchannel e mem_cons_self
    subst hdir
    refine Kept.proceed rfl ⟨frames ++ [(frame, e)], framed_concat hframed hframe, ?_⟩ ?_ ?_ hrest
      (fun e he => hchannel e (mem_cons_of_mem _ he)) ?_
    · change w.wire ++ _ = _
      rw [hwire, append_assoc, hpart]
      simp
    · rw [append_assoc]
      exact horder
    · refine account_books (w := { w with wire := w.wire ++ (frame.drop done).take n })
        (k := payload.length) hflight (by simp [DataFrame.sourceBytes]) hbooks (fun s => ?_)
        fun c => ?_
      · simp
        omega
      · rw [routed_concat c sent hkind, he]
    · simp [account, discharge, onStat, hflight, DataFrame.sourceBytes]
  · rw [not_le] at hwhole
    have hproper : frame.take (done + n) ≠ frame := by
      intro h
      have := congrArg List.length h
      rw [length_take] at this
      omega
    refine ⟨sent, e :: pending, frame.take (done + n), hdir, ⟨frames, hframed, ?_⟩,
      (encode_frame hframe).1.partly _ (List.take_prefix _ _) hproper, horder, hbooks, rfl, hwhole,
      hitems, hchannel, hflight⟩
    change w.wire ++ _ = _
    rw [hwire, append_assoc, hpart]

theorem Kept.finish (hk : Kept hostward base w sent pending part) (reason : PumpEnd) :
    Kept hostward base (w.finish reason) sent pending part := by
  obtain ⟨hdir, hframed, hpartly, horder, hbooks, -⟩ := hk
  unfold SendPump.finish
  cases hflight : w.inFlight with
  | none =>
    refine ⟨hdir, hframed, hpartly, horder, hbooks.congr fun c => ?_, rfl⟩
    rw [custody, custody, hflight]
  | some f =>
    have hcustody : ∀ c, w.custody c = if f.channel = c then f.remaining else 0 := fun c => by
      rw [custody, hflight]
    dsimp only
    split_ifs with hpos
    · refine ⟨hdir, hframed, hpartly, horder, ?_, rfl⟩
      refine hbooks.update f.channel (fun s₀ s hbal => ⟨hbal.credited, hbal.other, ?_⟩)
        fun c hc => ⟨rfl, ?_, rfl⟩
      · have hconserved := hbal.conserved
        rw [hcustody, if_pos rfl] at hconserved
        refine Eq.trans ?_ hconserved
        change s.credited hostward + (s.discardedUnframable + (s.discardedPeerGone + f.remaining))
          + 0 = s.credited hostward + (s.discardedUnframable + s.discardedPeerGone) + f.remaining
        omega
      · rw [hcustody, if_neg (Ne.symm hc)]
        rfl
    · refine ⟨hdir, hframed, hpartly, horder, hbooks.congr fun c => ?_, rfl⟩
      rw [hcustody, Nat.eq_zero_of_not_pos hpos, ite_self]
      rfl

theorem Kept.step (hk : Kept hostward base w sent pending part) (a : SendAct) (ha : w.Allowed a) :
    ∃ sent' pending' part', Kept hostward base (w.step a) sent' pending' part' := by
  cases a with
  | pull channel bytes => exact ⟨sent, hk.pull ha channel bytes⟩
  | close =>
    have hhalf := hk.half
    unfold Half at hhalf
    rw [show w.write = .waiting from ha] at hhalf
    exact ⟨sent, pending, part, hk.direction, hk.framed, hk.partly, hk.order, hk.books, hhalf⟩
  | accept n =>
    obtain ⟨-, channel, len, frame, done, rest, hw⟩ := ha
    exact hk.accept hw n
  | fail => exact ⟨sent, pending, part, hk.finish .peerGone⟩
  | stop reason => exact ⟨sent, pending, part, hk.finish reason⟩

end kept

theorem send_custody (hostward : Bool) (base : String → Option SendStat) (as : List SendAct)
    (hl : machine.Legal (start hostward base) as) :
    let w := machine.run (start hostward base) as
    w.whole <+: events w.pulled ∧
    (∀ ch s₀, base ch = some s₀ → ∃ s, w.stats ch = some s ∧
      s.credited hostward = s₀.credited hostward + (routed ch w.whole).length ∧
      s.credited (!hostward) = s₀.credited (!hostward) ∧
      s.credited hostward + s.discardedUnframable + s.discardedPeerGone + w.custody ch =
        s₀.credited hostward + s₀.discardedUnframable + s₀.discardedPeerGone +
          (sentOn ch w.pulled).length) ∧
    (∀ reason, w.write = .ended reason → ∀ ch, w.custody ch = 0) ∧
    (∀ reason, w.write = .waiting → (w.step (.stop reason)).stats = w.stats) := by
  intro w
  obtain ⟨sent, pending, part, hk⟩ : ∃ sent pending part, Kept hostward base w sent pending part :=
    Runs.Machine.invariant (m := machine)
      (I := fun w => ∃ sent pending part, Kept hostward base w sent pending part)
      (fun _ a ⟨_, _, _, hk⟩ ha => hk.step a ha) ⟨[], [], [], start_kept hostward base⟩ hl
  have hwhole : w.whole = sent := by
    obtain ⟨frames, ⟨hsnd, henc⟩, hwire⟩ := hk.framed
    rw [whole, hwire, decodeWhole_frames Session.tryDecode_stable
      (fun f hf => (encode_frame (henc f hf)).1) hk.partly, hsnd]
  rw [hwhole]
  refine ⟨⟨pending, hk.order.symm⟩, fun ch s₀ hs₀ => ?_, fun reason hw ch => ?_, fun reason hw => ?_⟩
  · obtain ⟨s, hs, hbal⟩ := hk.books ch s₀ hs₀
    have hconserved := hbal.conserved
    simp only [SendStat.charged] at hconserved
    exact ⟨s, hs, hbal.credited, hbal.other, by omega⟩
  · have hhalf := hk.half
    rw [Half, hw] at hhalf
    rw [custody, hhalf]
  · have hhalf := hk.half
    rw [Half, hw] at hhalf
    change (w.finish reason).stats = w.stats
    rw [SendPump.finish, hhalf.2.2]

def cutShort : List SendAct :=
  [.pull "a" [1, 2, 3], .accept 5, .accept 6, .pull "a" [4, 5], .accept 7, .fail]

theorem send_custody_cutShort :
    let w := machine.run (start false fun _ => some ⟨0, 0, 0, 0, false⟩) cutShort
    w.whole = [⟨"a", .data [1, 2, 3]⟩] ∧ w.stats "a" = some ⟨0, 3, 0, 2, true⟩ ∧
      w.whole <+: events w.pulled := by
  have hlegal : machine.Legal (start false fun _ => some ⟨0, 0, 0, 0, false⟩) cutShort := by
    refine ⟨rfl, ⟨by decide, _, _, _, _, _, rfl⟩, ⟨by decide, _, _, _, _, _, rfl⟩, ?_,
      ⟨by decide, _, _, _, _, _, rfl⟩, ⟨_, _, _, _, _, rfl⟩, trivial⟩
    change _ = WriteHalf.waiting
    decide +kernel
  refine ⟨by decide +kernel, by decide +kernel, ?_⟩
  exact (send_custody false (fun _ => some ⟨0, 0, 0, 0, false⟩) cutShort hlegal).1

end SendPump
end SerialNexus
