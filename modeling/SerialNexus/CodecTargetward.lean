import SerialNexus.Codec
import SerialNexus.Upstream

/-! # The targetward side of a codec node

`channel_targetward` (`daemon/src/nodes/codec.rs`), one task for each channel.  A task takes a
chunk, cuts it into ranges that fit a frame, frames each with the codec's `mux` and sends it through
`forward_targetward`.  The tasks share the edge of the multiplexed side, so their frames interleave.

A range that cannot be framed or sent costs the rest of its chunk: every handled chunk is an
accepted part followed by a discarded tail.  The codec is the reference codec. -/

namespace SerialNexus

open List Function Framing

inductive MuxTask where
  | idle
  | parked (bytes : Chunk)
  | forwarding (b : WritableOrigin) (bytes : Chunk) (off fin : ℕ) (rest : List (ℕ × ℕ))
      (framed : Chunk) (phase : Forward)
deriving DecidableEq, Repr

structure MuxPump where
  task : MuxTask
  accepted : ℕ
  discarded : ℕ
  dequeued : List Chunk
  handled : List (Chunk × ℕ)
deriving DecidableEq, Repr

namespace MuxPump

def start : MuxPump := ⟨.idle, 0, 0, [], []⟩

variable (p : MuxPump)

def finish (bytes : Chunk) (sent : ℕ) : MuxPump :=
  { p with task := .idle, handled := p.handled ++ [(bytes, sent)] }

def discardTail (bytes : Chunk) (off : ℕ) : MuxPump :=
  { p with discarded := wrappingAdd p.discarded (bytes.length - off) }.finish bytes off

def settled : List UInt8 := p.handled.flatMap fun h => h.1.take h.2

def tails : List UInt8 := p.handled.flatMap fun h => h.1.drop h.2

def part : List UInt8 :=
  match p.task with
  | .forwarding _ bytes off _ _ _ _ => bytes.take off
  | .idle | .parked _ => []

/-- The chunk in hand. -/
def hand : List Chunk :=
  match p.task with
  | .idle => []
  | .parked bytes | .forwarding _ bytes _ _ _ _ _ => [bytes]

end MuxPump

/-- The bytes of a range. -/
def slice (bytes : Chunk) (off fin : ℕ) : Chunk := (bytes.take fin).drop off

def forwardPiece (up : Upstream) (p : MuxPump) (b : WritableOrigin) (bytes : Chunk) (off fin : ℕ)
    (rest : List (ℕ × ℕ)) (framed : Chunk) (phase : Forward) (room : Bool) :
    Bool × Upstream × MuxPump :=
  let (f, up) := up.forwardTargetward b (some framed) phase room
  match f.progress with
  | .pending phase => (false, up, { p with task := .forwarding b bytes off fin rest framed phase })
  | .delivered => (true, up, { p with accepted := wrappingAdd p.accepted (fin - off) })
  | .lost => (false, up, p.discardTail bytes off)

def sendPieces (channel : String) (b : WritableOrigin) (bytes : Chunk) :
    List (ℕ × ℕ) → List Bool → Upstream → MuxPump → Upstream × MuxPump
  | [], _, up, p => (up, p.finish bytes bytes.length)
  | (off, fin) :: rest, rooms, up, p =>
    match ReferenceCodec.mux ⟨channel, .data (slice bytes off fin)⟩ [] with
    | .error _ => (up, p.discardTail bytes off)
    | .ok framed =>
      match forwardPiece up p b bytes off fin rest framed .entering (rooms.headD false) with
      | (true, up, p) => sendPieces channel b bytes rest rooms.tail up p
      | (false, up, p) => (up, p)

def handleChunk (channel : String) (bytes : Chunk) (rooms : List Bool) (up : Upstream)
    (p : MuxPump) : Upstream × MuxPump :=
  match up.edge.awaitOrigin with
  | none => (up, { p with task := .parked bytes })
  | some none => (up, p.discardTail bytes 0)
  | some (some b) => sendPieces channel b bytes (frameRanges channel bytes.length) rooms up p

def pollChannel (channel : String) (rooms : List Bool) (up : Upstream) (p : MuxPump) :
    Upstream × MuxPump :=
  match p.task with
  | .idle => (up, p)
  | .parked bytes => handleChunk channel bytes rooms up p
  | .forwarding b bytes off fin rest framed phase =>
    match forwardPiece up p b bytes off fin rest framed phase (rooms.headD false) with
    | (true, up, p) => sendPieces channel b bytes rest rooms.tail up p
    | (false, up, p) => (up, p)

structure CodecPumps where
  up : Upstream
  pumps : String → MuxPump

inductive CodecAct where
  | take (channel : String) (bytes : Chunk) (rooms : List Bool)
  | poll (channel : String) (rooms : List Bool)
  | upstream (a : UpstreamAct)

namespace CodecPumps

def start (edge : TargetEdge) (locks : LockRef → LockCell) (queues : ℕ → Channel Chunk) :
    CodecPumps where
  up := { edge, locks, queues, sent := [] }
  pumps _ := .start

variable (s : CodecPumps)

/-- One channel moves. -/
def withPump (channel : String) (r : Upstream × MuxPump) : CodecPumps :=
  ⟨r.1, update s.pumps channel r.2⟩

def step : CodecAct → CodecPumps
  | .take channel bytes rooms =>
    let p := s.pumps channel
    s.withPump channel
      (handleChunk channel bytes rooms s.up { p with dequeued := p.dequeued ++ [bytes] })
  | .poll channel rooms => s.withPump channel (pollChannel channel rooms s.up (s.pumps channel))
  | .upstream a => { s with up := s.up.step a }

def Allowed : CodecAct → Prop
  | .take channel _ _ => (s.pumps channel).task = .idle
  | .poll _ _ | .upstream _ => True

instance : ∀ a, Decidable (s.Allowed a)
  | .take channel _ _ => inferInstanceAs (Decidable ((s.pumps channel).task = .idle))
  | .poll _ _ | .upstream _ => .isTrue trivial

def machine : Runs.Machine CodecPumps CodecAct := ⟨step, Allowed⟩

instance (a : CodecAct) : Decidable (machine.ok s a) := inferInstanceAs (Decidable (s.Allowed a))

end CodecPumps

/-! ### Ranges -/

def Ranges (total : ℕ) : ℕ → List (ℕ × ℕ) → Prop
  | off, [] => off = total
  | off, (start, fin) :: rest => start = off ∧ off < fin ∧ fin ≤ total ∧ Ranges total fin rest

theorem ranges_rangesFrom {cap : ℕ} (hcap : 0 < cap) (total : ℕ) {fuel off : ℕ}
    (hoff : off ≤ total) (hfuel : total - off ≤ fuel) :
    Ranges total off (rangesFrom cap total fuel off) := by
  induction fuel generalizing off with
  | zero =>
    change off = total
    omega
  | succ fuel ih =>
    rw [rangesFrom]
    by_cases hend : off ≥ total
    · rw [if_pos hend]
      exact le_antisymm hoff hend
    · rw [if_neg hend]
      exact ⟨rfl, by omega, Nat.min_le_right _ _, ih (Nat.min_le_right _ _) (by omega)⟩

theorem ranges_frameRanges (channel : String) (total : ℕ) :
    Ranges total 0 (frameRanges channel total) :=
  ranges_rangesFrom (framePayloadCap_pos channel) total (Nat.zero_le _) (Nat.sub_le _ _)

theorem take_append_slice (bytes : Chunk) {off fin : ℕ} (h : off ≤ fin) :
    bytes.take off ++ slice bytes off fin = bytes.take fin := by
  have htake : bytes.take off = (bytes.take fin).take off := by
    rw [take_take, Nat.min_eq_left h]
  rw [slice, htake, take_append_drop]

namespace MuxPump

variable {p : MuxPump} {bytes : Chunk} {off : ℕ}

structure Books (p : MuxPump) (part : List UInt8) (hand : List Chunk) : Prop where
  accepted : p.accepted = (p.settled ++ part).length % u64Size
  discarded : p.discarded = p.tails.length % u64Size
  dequeued : p.dequeued = p.handled.map (·.1) ++ hand

theorem settled_finish (p : MuxPump) (bytes : Chunk) (n : ℕ) :
    (p.finish bytes n).settled = p.settled ++ bytes.take n := by
  simp [settled, finish]

theorem tails_finish (p : MuxPump) (bytes : Chunk) (n : ℕ) :
    (p.finish bytes n).tails = p.tails ++ bytes.drop n := by
  simp [tails, finish]

theorem Books.discardTail (h : p.Books (bytes.take off) [bytes]) :
    (p.discardTail bytes off).Books [] [] where
  accepted := by
    rw [MuxPump.discardTail, settled_finish, append_nil]
    exact h.accepted
  discarded := by
    rw [MuxPump.discardTail, tails_finish, length_append, length_drop]
    exact (congrArg (wrappingAdd · _) h.discarded).trans (wrappingAdd_mod _ _)
  dequeued := by
    refine h.dequeued.trans ?_
    simp [MuxPump.discardTail, finish]

theorem Books.finish_eq {part : List UInt8} {hand : List Chunk} (h : p.Books part hand)
    (bytes : Chunk) : p.finish bytes bytes.length = p.discardTail bytes bytes.length := by
  have hsame : wrappingAdd p.discarded 0 = p.discarded := by
    rw [h.discarded, wrappingAdd_mod, Nat.add_zero]
  rw [MuxPump.discardTail, Nat.sub_self, hsame]

theorem settled_add_tails (p : MuxPump) :
    p.settled.length + p.tails.length = (p.handled.map (·.1.length)).sum := by
  unfold settled tails
  induction p.handled with
  | nil => rfl
  | cons h handled ih =>
    have hone : (h.1.take h.2).length + (h.1.drop h.2).length = h.1.length := by
      rw [← length_append, take_append_drop]
    simp only [flatMap_cons, length_append, map_cons, sum_cons]
    omega

theorem Books.total {part : List UInt8} {hand : List Chunk} (h : p.Books part hand) :
    (p.accepted + p.discarded) % u64Size =
      ((p.handled.map (·.1.length)).sum + part.length) % u64Size := by
  rw [h.accepted, h.discarded, ← Nat.add_mod, ← settled_add_tails, length_append,
    Nat.add_right_comm]

theorem part_prefix (p : MuxPump) : p.part <+: p.hand.flatten := by
  unfold part hand
  cases p.task with
  | idle | parked => exact nil_prefix
  | forwarding b bytes off fin rest framed phase =>
    simpa using take_prefix off bytes

theorem of_idle (h : p.task = .idle) : p.hand = [] ∧ p.part = [] := by
  simp [hand, part, h]

def InFlight (channel : String) : MuxTask → Prop
  | .forwarding _ bytes off fin rest framed phase =>
    Ranges bytes.length off ((off, fin) :: rest) ∧
      ReferenceCodec.mux ⟨channel, .data (slice bytes off fin)⟩ [] = .ok framed ∧
      ∀ chunk, phase = .sending chunk → chunk = framed
  | .idle | .parked _ => True

structure Kept (channel : String) (p : MuxPump) : Prop where
  books : p.Books p.part p.hand
  inFlight : InFlight channel p.task

structure Turn (channel : String) (up : Upstream) (stream : List UInt8) (r : Upstream × MuxPump) :
    Prop where
  kept : r.2.Kept channel
  sent : ∃ puts pieces, r.1.sent = up.sent ++ puts ∧
    List.Forall₂ (fun put piece => ReferenceCodec.mux ⟨channel, .data piece⟩ [] = .ok put.2)
      puts pieces ∧
    r.2.settled ++ r.2.part = stream ++ pieces.flatten

variable {channel : String} {up up' : Upstream}

variable {stream : List UInt8} {b : WritableOrigin} {fin : ℕ} {rest : List (ℕ × ℕ)} {framed : Chunk}
  {phase : Forward}

theorem Turn.none (h : p.Kept channel) (hup : up'.sent = up.sent)
    (hstream : p.settled ++ p.part = stream) : Turn channel up stream (up', p) :=
  ⟨h, [], [], by simpa using hup, .nil, by simpa using hstream⟩

theorem Turn.cons {put : ℕ × Chunk} {piece : Chunk} {r : Upstream × MuxPump}
    (hup : up'.sent = up.sent ++ [put])
    (hmux : ReferenceCodec.mux ⟨channel, .data piece⟩ [] = .ok put.2)
    (h : Turn channel up' (stream ++ piece) r) : Turn channel up stream r := by
  obtain ⟨hkept, puts, pieces, hsent, hframes, hstream⟩ := h
  refine ⟨hkept, put :: puts, piece :: pieces, ?_, .cons hmux hframes, ?_⟩
  · rw [hsent, hup, append_assoc]
    rfl
  · rw [hstream, flatten_cons, append_assoc]

theorem Turn.discardTail (h : p.Books (bytes.take off) [bytes]) (hup : up'.sent = up.sent) :
    Turn channel up (p.settled ++ bytes.take off) (up', p.discardTail bytes off) := by
  refine Turn.none ⟨h.discardTail, trivial⟩ hup ?_
  rw [MuxPump.discardTail, settled_finish]
  exact append_nil _

theorem forwardPiece_turn (up : Upstream) (h : p.Books (bytes.take off) [bytes])
    (hflight : InFlight channel (.forwarding b bytes off fin rest framed phase)) (room : Bool) :
    let r := forwardPiece up p b bytes off fin rest framed phase room
    (r.1 = false ∧ Turn channel up (p.settled ++ bytes.take off) r.2) ∨
      (r.1 = true ∧ r.2.1.sent = up.sent ++ [(b.tx, framed)] ∧
        r.2.2.Books (bytes.take fin) [bytes] ∧ r.2.2.settled = p.settled) := by
  obtain ⟨hranges, hmux, hphase⟩ := hflight
  obtain ⟨-, hlt, hle, -⟩ := id hranges
  obtain ⟨puts, hpolled, hsent⟩ := up.forwardTargetward_polled b (some framed) phase room
  have hsending (c : Chunk) (hc : phase = .sending c) : some framed = some c := by
    rw [hphase c hc]
  unfold forwardPiece
  generalize up.forwardTargetward b (some framed) phase room = r at hpolled hsent ⊢
  obtain ⟨f, up'⟩ := r
  cases hpolled with
  | refused | closed => exact .inl ⟨rfl, Turn.discardTail h (by simpa using hsent)⟩
  | parked hp =>
    have hflight : InFlight channel (.forwarding b bytes off fin rest framed .locking) :=
      ⟨hranges, hmux, fun chunk hc => by cases hc⟩
    exact .inl ⟨rfl, Turn.none ⟨⟨h.accepted, h.discarded, h.dequeued⟩, hflight⟩
      (by simpa using hsent) rfl⟩
  | empty hp hnone => cases hnone
  | waiting hs hopen =>
    obtain rfl := Option.some.inj (hs.payload_eq hsending)
    have hflight : InFlight channel (.forwarding b bytes off fin rest _ (.sending _)) :=
      ⟨hranges, hmux, fun chunk hc => by cases hc; rfl⟩
    exact .inl ⟨rfl, Turn.none ⟨⟨h.accepted, h.discarded, h.dequeued⟩, hflight⟩
      (by simpa using hsent) rfl⟩
  | sent hs hopen =>
    obtain rfl := Option.some.inj (hs.payload_eq hsending)
    refine .inr ⟨rfl, hsent, ⟨?_, h.discarded, h.dequeued⟩, rfl⟩
    change wrappingAdd p.accepted (fin - off) = (p.settled ++ bytes.take fin).length % u64Size
    rw [h.accepted, wrappingAdd_mod, length_append, length_append, length_take, length_take]
    congr 1
    omega

theorem piece_turn {rooms : List Bool} (h : p.Books (bytes.take off) [bytes])
    (hflight : InFlight channel (.forwarding b bytes off fin rest framed phase)) (room : Bool)
    (hnext : ∀ up' p', Books p' (bytes.take fin) [bytes] →
      Turn channel up' (p'.settled ++ bytes.take fin)
        (sendPieces channel b bytes rest rooms up' p')) :
    Turn channel up (p.settled ++ bytes.take off)
      (match forwardPiece up p b bytes off fin rest framed phase room with
        | (true, up, p) => sendPieces channel b bytes rest rooms up p
        | (false, up, p) => (up, p)) := by
  have hpiece := forwardPiece_turn up h hflight room
  generalize forwardPiece up p b bytes off fin rest framed phase room = r at hpiece ⊢
  obtain ⟨goesOn, up', p'⟩ := r
  rcases hpiece with ⟨rfl, hturn⟩ | ⟨rfl, hsent, hbooks, hsettled⟩
  · exact hturn
  · refine Turn.cons hsent hflight.2.1 ?_
    have hrest := hnext up' p' hbooks
    dsimp only at hsettled
    rwa [hsettled, ← take_append_slice bytes hflight.1.2.1.le, ← append_assoc] at hrest

theorem sendPieces_turn (b : WritableOrigin) {ranges : List (ℕ × ℕ)} (rooms : List Bool)
    (h : p.Books (bytes.take off) [bytes]) (hranges : Ranges bytes.length off ranges) :
    Turn channel up (p.settled ++ bytes.take off)
      (sendPieces channel b bytes ranges rooms up p) := by
  induction ranges generalizing off rooms up p with
  | nil =>
    obtain rfl : off = bytes.length := hranges
    rw [sendPieces, h.finish_eq]
    exact Turn.discardTail h rfl
  | cons range rest ih =>
    obtain ⟨start, fin⟩ := range
    obtain ⟨rfl, hlt, hle, hrest⟩ := id hranges
    rw [sendPieces]
    cases hmux : ReferenceCodec.mux ⟨channel, .data (slice bytes start fin)⟩ [] with
    | error e => exact Turn.discardTail h rfl
    | ok framed =>
      exact piece_turn h ⟨hranges, hmux, fun chunk hc => by cases hc⟩ _
        fun up' p' hbooks => ih rooms.tail hbooks hrest

theorem forwardPiece_hands (up : Upstream) (p : MuxPump) (b : WritableOrigin) (bytes : Chunk)
    (off fin : ℕ) (rest : List (ℕ × ℕ)) (framed : Chunk) (phase : Forward) (room : Bool) :
    up.Hands (forwardPiece up p b bytes off fin rest framed phase room).2.1 := by
  have hup := up.forwardTargetward_hands b (some framed) phase room
  unfold forwardPiece
  dsimp only
  split <;> exact hup

theorem sendPieces_hands (channel : String) (b : WritableOrigin) (bytes : Chunk)
    (ranges : List (ℕ × ℕ)) (rooms : List Bool) (up : Upstream) (p : MuxPump) :
    up.Hands (sendPieces channel b bytes ranges rooms up p).1 := by
  induction ranges generalizing rooms up p with
  | nil => exact .refl up
  | cons range rest ih =>
    obtain ⟨off, fin⟩ := range
    rw [sendPieces]
    split
    · exact .refl up
    · next framed _ =>
      have hpiece := forwardPiece_hands up p b bytes off fin rest framed .entering
        (rooms.headD false)
      split
      · next up' p' he =>
        rw [he] at hpiece
        exact hpiece.trans (ih _ up' p')
      · next he => rwa [he] at hpiece

theorem handleChunk_hands (channel : String) (bytes : Chunk) (rooms : List Bool) (up : Upstream)
    (p : MuxPump) : up.Hands (handleChunk channel bytes rooms up p).1 := by
  unfold handleChunk
  split
  · exact .refl up
  · exact .refl up
  · exact sendPieces_hands channel _ bytes _ rooms up p

theorem pollChannel_hands (channel : String) (rooms : List Bool) (up : Upstream) (p : MuxPump) :
    up.Hands (pollChannel channel rooms up p).1 := by
  unfold pollChannel
  split
  · exact .refl up
  · exact handleChunk_hands channel _ rooms up p
  · next b bytes off fin rest framed phase _ =>
    have hpiece := forwardPiece_hands up p b bytes off fin rest framed phase (rooms.headD false)
    split
    · next up' p' he =>
      rw [he] at hpiece
      exact hpiece.trans (sendPieces_hands channel b bytes rest _ up' p')
    · next he => rwa [he] at hpiece

theorem handleChunk_turn (rooms : List Bool) (h : p.Books [] [bytes]) :
    Turn channel up p.settled (handleChunk channel bytes rooms up p) := by
  unfold handleChunk
  have hturn : p.settled ++ bytes.take 0 = p.settled := append_nil _
  split
  · exact Turn.none ⟨⟨h.accepted, h.discarded, h.dequeued⟩, trivial⟩ rfl hturn
  · exact hturn ▸ Turn.discardTail h rfl
  · exact hturn ▸ sendPieces_turn _ rooms h (ranges_frameRanges channel bytes.length)

theorem pollChannel_turn (h : p.Kept channel) (rooms : List Bool) :
    Turn channel up (p.settled ++ p.part) (pollChannel channel rooms up p) := by
  obtain ⟨hbooks, hflight⟩ := id h
  unfold pollChannel
  cases htask : p.task with
  | idle => exact Turn.none h rfl rfl
  | parked bytes =>
    simp only [part, hand, htask] at hbooks ⊢
    rw [append_nil]
    exact handleChunk_turn rooms hbooks
  | forwarding b bytes off fin rest framed phase =>
    simp only [part, hand, htask] at hbooks hflight ⊢
    exact piece_turn hbooks hflight _ fun up' p' hbooks' =>
      sendPieces_turn b rooms.tail hbooks' hflight.1.2.2.2

end MuxPump

namespace CodecPumps

def Records (sent : List (ℕ × Chunk)) (events : List Event) : Prop :=
  List.Forall₂ (fun put event => ReferenceCodec.mux event [] = .ok put.2) sent events

structure Sound (s : CodecPumps) (events : List Event) : Prop where
  frames : Records s.up.sent events
  kept : ∀ channel, (s.pumps channel).Kept channel
  stream : ∀ channel, routed channel events = (s.pumps channel).settled ++ (s.pumps channel).part

variable {s : CodecPumps} {events : List Event}

def dataEvents (channel : String) (pieces : List Chunk) : List Event :=
  pieces.map fun piece => ⟨channel, .data piece⟩

theorem routed_dataEvents (channel other : String) (pieces : List Chunk) :
    routed other (dataEvents channel pieces) = if channel = other then pieces.flatten else [] := by
  unfold routed dataEvents
  rw [flatMap_map]
  dsimp only
  split_ifs
  · rw [flatMap_def, map_id']
  · simp

theorem Sound.turn (h : s.Sound events) {channel : String} {stream : List UInt8}
    (hstream : stream = (s.pumps channel).settled ++ (s.pumps channel).part)
    {r : Upstream × MuxPump} (hturn : MuxPump.Turn channel s.up stream r) :
    ∃ events', (s.withPump channel r).Sound events' := by
  obtain ⟨hkept, puts, pieces, hsent, hframes, hnext⟩ := hturn
  refine ⟨events ++ dataEvents channel pieces, ?_, fun c => ?_, fun c => ?_⟩
  · change Records r.1.sent _
    rw [hsent]
    refine rel_append h.frames ?_
    rw [dataEvents, forall₂_map_right_iff]
    exact hframes
  · by_cases hc : c = channel
    · subst hc
      simpa [withPump] using hkept
    · simpa [withPump, update_of_ne hc] using h.kept c
  · rw [routed_append, routed_dataEvents, h.stream c]
    by_cases hc : c = channel
    · subst hc
      rw [if_pos rfl, ← hstream, ← hnext]
      simp [withPump]
    · rw [if_neg (Ne.symm hc), append_nil]
      simp [withPump, update_of_ne hc]

theorem Sound.step (h : s.Sound events) {a : CodecAct} (ha : s.Allowed a) :
    ∃ events', (s.step a).Sound events' := by
  cases a with
  | take channel bytes rooms =>
    have hidle : (s.pumps channel).task = .idle := ha
    obtain ⟨hbooks, -⟩ := h.kept channel
    refine h.turn ?_ (MuxPump.handleChunk_turn rooms ?_)
    · simp [MuxPump.part, hidle]
      rfl
    · simp only [MuxPump.part, MuxPump.hand, hidle] at hbooks
      refine ⟨hbooks.accepted, hbooks.discarded, ?_⟩
      simp [hbooks.dequeued]
  | poll channel rooms => exact h.turn rfl (MuxPump.pollChannel_turn (h.kept channel) rooms)
  | upstream a => exact ⟨events, by simpa [CodecPumps.step] using h.frames, h.kept, h.stream⟩

theorem Sound.start (edge : TargetEdge) (locks : LockRef → LockCell) (queues : ℕ → Channel Chunk) :
    (start edge locks queues).Sound [] where
  frames := .nil
  kept _ := ⟨⟨rfl, rfl, rfl⟩, trivial⟩
  stream _ := rfl

variable {sent : List (ℕ × Chunk)}

theorem Records.decode (h : Records sent events) :
    decodeWhole tryDecode (sent.map (·.2)).flatten = (events, .ok []) := by
  have hlen := List.Forall₂.length_eq h
  have hframes : ∀ f ∈ (sent.map (·.2)).zip events, Frame tryDecode f.1 f.2 := by
    intro f hf
    rw [zip_map_left] at hf
    obtain ⟨⟨put, event⟩, hmem, rfl⟩ := mem_map.mp hf
    exact (encode_frame (ReferenceCodec.mux_eq_ok.mp ((forall₂_iff_zip.mp h).2 hmem))).1
  have hnil : tryDecode [] = .ok none := rfl
  have hwhole := decodeWhole_frames Session.tryDecode_stable hframes hnil
  rwa [append_nil, map_fst_zip (by simp [hlen]), map_snd_zip (by simp [hlen])]
    at hwhole

theorem Records.frame (h : Records sent events) {put : ℕ × Chunk} (hput : put ∈ sent) :
    ∃ event, ReferenceCodec.mux event [] = .ok put.2 := by
  induction h with
  | nil => cases hput
  | cons hmux _ ih =>
    rcases mem_cons.mp hput with rfl | hput
    · exact ⟨_, hmux⟩
    · exact ih hput

theorem Records.receivedBy (h : Records sent events) (k : ℕ) :
    Records (sent.filter (·.1 = k))
      (((sent.zip events).filter (·.1.1 = k)).map (·.2)) := by
  induction h with
  | nil => exact .nil
  | @cons put event sent events hmux _ ih =>
    by_cases hk : put.1 = k
    · simp only [zip_cons_cons, filter_cons, hk, decide_true, if_true, map_cons]
      exact .cons hmux ih
    · simpa only [zip_cons_cons, filter_cons, hk, decide_false, Bool.false_eq_true,
        if_false] using ih

theorem Sound.run {edge : TargetEdge} {locks : LockRef → LockCell} {queues : ℕ → Channel Chunk}
    {as : List CodecAct} (hl : machine.Legal (CodecPumps.start edge locks queues) as) :
    ∃ events, (machine.run (CodecPumps.start edge locks queues) as).Sound events :=
  Runs.Machine.invariant (I := fun s : CodecPumps => ∃ events, s.Sound events)
    (fun _ _ ⟨_, h⟩ ha => h.step ha) ⟨[], Sound.start edge locks queues⟩ hl

/-- Whatever a step of the node itself counts as sent enters the queues. -/
def Hands (s : CodecPumps) : CodecAct → Prop
  | .take channel bytes rooms => s.up.Hands (s.step (.take channel bytes rooms)).up
  | .poll channel rooms => s.up.Hands (s.step (.poll channel rooms)).up
  | .upstream _ => True

theorem step_hands (s : CodecPumps) (a : CodecAct) : s.Hands a := by
  cases a with
  | take channel bytes rooms => exact MuxPump.handleChunk_hands channel bytes rooms s.up _
  | poll channel rooms => exact MuxPump.pollChannel_hands channel rooms s.up _
  | upstream a => trivial

theorem codec_targetward_exact (edge : TargetEdge) (locks : LockRef → LockCell)
    (queues : ℕ → Channel Chunk) (as : List CodecAct)
    (hl : machine.Legal (start edge locks queues) as) :
    let s := machine.run (start edge locks queues) as
    (∀ channel,
      let p := s.pumps channel
      p.dequeued = p.handled.map (·.1) ++ p.hand ∧
      (p.accepted + p.discarded) % u64Size =
        ((p.handled.map (·.1.length)).sum + p.part.length) % u64Size ∧
      (p.task = .idle →
        (p.accepted + p.discarded) % u64Size = (p.dequeued.map List.length).sum % u64Size) ∧
      p.discarded = (p.handled.flatMap fun h => h.1.drop h.2).length % u64Size ∧
      p.part <+: p.hand.flatten) ∧
    (∀ k, ∃ events, decodeWhole tryDecode
      ((s.up.sent.filter (·.1 = k)).map (·.2)).flatten = (events, .ok [])) ∧
    (∀ put ∈ s.up.sent, ∃ event, decodeWhole tryDecode put.2 = ([event], .ok [])) ∧
    machine.Each Hands (start edge locks queues) as ∧
    ∃ events, decodeWhole tryDecode (s.up.sent.map (·.2)).flatten = (events, .ok []) ∧
      ∀ channel,
        let p := s.pumps channel
        routed channel events = (p.handled.flatMap fun h => h.1.take h.2) ++ p.part ∧
        (routed channel events).length % u64Size = p.accepted := by
  intro s
  obtain ⟨events, hsound⟩ := Sound.run hl
  refine ⟨fun channel => ?_, fun k => ⟨_, (hsound.frames.receivedBy k).decode⟩, ?_,
    Runs.Machine.each_of_forall step_hands _ _, events, hsound.frames.decode, fun channel => ⟨hsound.stream channel, ?_⟩⟩
  · obtain ⟨hbooks, -⟩ := hsound.kept channel
    have hbytes := hbooks.total
    refine ⟨hbooks.dequeued, hbytes, fun hidle => ?_, hbooks.discarded, MuxPump.part_prefix _⟩
    obtain ⟨hhand, hpart⟩ := MuxPump.of_idle hidle
    rw [hbooks.dequeued, hbytes, hhand, hpart, append_nil, map_map]
    rfl
  · intro put hput
    obtain ⟨event, hmux⟩ := hsound.frames.frame hput
    have hone : Records [put] [event] := .cons hmux .nil
    exact ⟨event, by simpa using hone.decode⟩
  · rw [hsound.stream channel]
    exact (hsound.kept channel).books.accepted.symm

def stolenRun : List CodecAct :=
  [.upstream (.lockOp 0 (.register 7 "codec" .held)),
    .upstream (.setEdge ⟨some (0, 7), some 0, true⟩), .take "a" [1, 2] [true],
    .upstream (.receive 0), .upstream (.lockOp 0 (.register 9 "send" .onDemand)),
    .upstream (.lockOp 0 (.steal 9)), .take "a" [3] [true], .take "b" [4, 5] [true],
    .upstream (.lockOp 0 (.unregister 9)), .poll "b" [true], .poll "a" [true],
    .upstream (.hangUp 0), .poll "a" [true]]

def unconnected : CodecPumps := start {} (fun _ => ⟨.new .exclusive, false⟩) fun _ => .new 1

theorem codec_targetward_exact_stolenRun :
    let s := machine.run unconnected stolenRun
    (s.pumps "a").accepted = 2 ∧ (s.pumps "a").discarded = 1 ∧ (s.pumps "b").accepted = 2 ∧
      ∃ events, decodeWhole tryDecode (s.up.sent.map (·.2)).flatten = (events, .ok []) ∧
        (routed "a" events).length = 2 ∧ (routed "b" events).length = 2 := by
  intro s
  have hlegal : machine.Legal unconnected stolenRun := by decide +kernel
  obtain ⟨-, -, -, -, events, hevents, hrouted⟩ := codec_targetward_exact _ _ _ _ hlegal
  have hlength (channel : String) := congrArg List.length (hrouted channel).1
  exact ⟨by decide +kernel, by decide +kernel, by decide +kernel, events, hevents,
    (hlength "a").trans (by decide +kernel), (hlength "b").trans (by decide +kernel)⟩

end CodecPumps
end SerialNexus
