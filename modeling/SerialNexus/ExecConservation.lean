import SerialNexus.ExecNode

/-! # What an exec codec does with the bytes it took

`Conserved` is the law of an exec codec's two targetward streams: what its channels accepted is on a
child's stdin, on a counter, in one of the two watched stages or in the feed's hands, and what was
decoded for the device is accepted by a device, on a counter, or in the reader's hands. -/

namespace SerialNexus

open Function List
open DataFrame (sourceBytes)

/-! ### Frames -/

def frameWeight (channel : String) (items : List DataFrame) : ℕ :=
  if channel = muxChannel then 0 else (items.map sourceBytes).sum

theorem feedFrames_sourceBytes (answers : List Bool) (items : List DataFrame) :
    ((feedFrames answers items).1.map sourceBytes).sum + (feedFrames answers items).2.1 +
      ((feedFrames answers items).2.2.rest.map sourceBytes).sum =
        (items.map sourceBytes).sum := by
  induction items generalizing answers with
  | nil => cases answers <;> rfl
  | cons item items ih =>
    cases item with
    | residual n =>
      have h := ih answers
      rw [feedFrames]
      change ((feedFrames answers items).1.map sourceBytes).sum +
        ((feedFrames answers items).2.1 + n) +
          ((feedFrames answers items).2.2.rest.map sourceBytes).sum =
            n + (items.map sourceBytes).sum
      omega
    | piece n frame =>
      cases answers with
      | nil => simp [feedFrames, FeedEnd.rest]
      | cons answer answers =>
        cases answer with
        | false => simp [feedFrames, FeedEnd.rest]
        | true =>
          have h := ih answers
          change n + ((feedFrames answers items).1.map sourceBytes).sum +
            (feedFrames answers items).2.1 +
              ((feedFrames answers items).2.2.rest.map sourceBytes).sum =
                n + (items.map sourceBytes).sum
          omega

theorem feedFrames_pieces (answers : List Bool) {items : List DataFrame}
    (h : ∀ n, .residual n ∉ items) :
    (feedFrames answers items).2.1 = 0 ∧
      ∀ n, .residual n ∉ (feedFrames answers items).2.2.rest := by
  induction items generalizing answers with
  | nil => cases answers <;> exact ⟨rfl, by simp [feedFrames, FeedEnd.rest]⟩
  | cons item items ih =>
    cases item with
    | residual n => exact absurd mem_cons_self (h n)
    | piece n frame =>
      have hrest : ∀ n, .residual n ∉ items := fun n hn => h n (mem_cons_of_mem _ hn)
      cases answers with
      | nil => exact ⟨rfl, h⟩
      | cons answer answers =>
        cases answer with
        | false => exact ⟨rfl, h⟩
        | true => exact ih answers hrest

theorem dataFrames_mux (bytes : Chunk) (n : ℕ) : .residual n ∉ dataFrames muxChannel bytes := by
  have hname : (utf8 muxChannel).length ≤ maxNameLen := by decide
  obtain ⟨frames, -, -, hno⟩ := dataFrames_spec hname bytes
  intro hn
  obtain ⟨m, f, -, he⟩ := hno _ hn
  cases he

theorem frameWeight_dataFrames (item : FeedItem) :
    frameWeight item.channel (dataFrames item.channel item.bytes) = teardownBytes item := by
  unfold frameWeight
  rw [dataFrames_sourceBytes]
  rfl

theorem sum_update {κ : Type*} [DecidableEq κ] {keys : Finset κ} {k : κ} (hk : k ∈ keys)
    {f g : κ → ℕ} (h : ∀ j, j ≠ k → g j = f j) : ∑ j ∈ keys, g j + f k = ∑ j ∈ keys, f j + g k := by
  have hrest : ∑ j ∈ keys.erase k, g j = ∑ j ∈ keys.erase k, f j :=
    Finset.sum_congr rfl fun j hj => h j (Finset.ne_of_mem_erase hj)
  rw [← Finset.add_sum_erase keys g hk, ← Finset.add_sum_erase keys f hk, hrest]
  omega

/-! ### The law -/

def Forwarder.inHand : Forwarder → ℕ
  | .sending chunk => chunk.length
  | _ => 0

def FeedPhase.rest : FeedPhase → ℕ
  | .writing channel rest => frameWeight channel rest
  | .waiting => 0

def ReadPhase.routing : ReadPhase → ℕ
  | .locking _ bytes | .sending _ bytes => bytes.length
  | _ => 0

namespace ExecNode

def fedBytes (s : ExecNode) : ℕ := (s.fed.map fun p => frameWeight p.1 [p.2]).sum

def stage (s : ExecNode) (c : String) : ℕ := (s.inboxes c).queuedBytes + (s.forwarders c).inHand

variable (channels : Finset String)

def books (s : ExecNode) : ℕ :=
  s.fedBytes + s.unframableDiscarded + s.discardedAtTeardown + s.src.queuedBytes + s.feed.rest +
    ∑ c ∈ channels, s.stage c

def muxBooks (s : ExecNode) : ℕ := s.toDevice + s.muxDiscardedTargetward + s.read.routing

def Conserved (s : ExecNode) : Prop :=
  s.fedBytes + s.unframableDiscarded + s.discardedAtTeardown + s.src.queuedBytes + s.feed.rest +
      ∑ c ∈ channels, s.stage c = s.accepted ∧
    s.toDevice + s.muxDiscardedTargetward + s.read.routing = s.decoded

structure Sound (s : ExecNode) : Prop where
  held : ∀ c, (s.inboxes c).held = (s.forwarders c).inHand
  slot : s.src.slot.isSome ∨ s.phase = .stopped
  pieces : ∀ rest, s.feed = .writing muxChannel rest → ∀ n, .residual n ∉ rest

inductive Upcoming where
  | frames (channel : String) (items : List DataFrame)
  | closed
  | idle

def upcoming (s : ExecNode) : Upcoming :=
  match s.feed with
  | .writing channel rest => .frames channel rest
  | .waiting =>
    match (s.src.settleHeld.pollRecv (s.sourceOpen channels)).1 with
    | .ready (some item) => .frames item.channel (dataFrames item.channel item.bytes)
    | .ready none => .closed
    | .pending => .idle

def EndsWell (s : ExecNode) (channel : String) : FeedEnd → Prop
  | .broken rest => frameWeight channel rest = 0 ∧ s.read.routing = 0
  | .done | .asleep _ => True

def Harmless (s : ExecNode) : ExecAct → Prop
  | .pollFeed answers =>
    match s.upcoming channels with
    | .frames channel items => s.EndsWell channel (feedFrames answers items).2.2
    | .closed => s.read.routing = 0
    | .idle => True
  | .stdoutEnds => s.feed.rest = 0 ∧ s.read.routing = 0
  | .nextEvent _ =>
    match s.decoder.nextEvent.1 with
    | .error _ => s.feed.rest = 0 ∧ s.read.routing = 0
    | .ok _ => True
  | .signalStop => s.feed.rest = s.src.held ∧ s.read.routing = 0
  | _ => True

structure Effect (s s' : ExecNode) (x y z : ℕ) : Prop where
  books : s'.books channels + x + s.accepted = s.books channels + y + s'.accepted
  mux : s'.muxBooks + z + s.decoded = s.muxBooks + s'.decoded

variable {channels} {s s' : ExecNode}

variable {x y z : ℕ} {c : String} {chunk : Chunk} {inbox : TargetwardInbox Chunk}

theorem Effect.conserved_iff (h : Effect channels s s' x y z) (hs : s.Conserved channels) :
    s'.Conserved channels ↔ x = y ∧ z = 0 := by
  have h1 := h.books
  have h2 := h.mux
  have h3 : s.books channels = s.accepted := hs.1
  have h4 : s.muxBooks = s.decoded := hs.2
  change s'.books channels = s'.accepted ∧ s'.muxBooks = s'.decoded ↔ _
  constructor
  · rintro ⟨h5, h6⟩
    omega
  · rintro ⟨h5, h6⟩
    omega

theorem Effect.conserved (h : Effect channels s s' 0 0 0) (hs : s.Conserved channels) :
    s'.Conserved channels :=
  (h.conserved_iff hs).mpr ⟨rfl, rfl⟩

theorem Effect.of_quiet {s₁ : ExecNode} (h : Effect channels s s₁ 0 0 0)
    (h' : Effect channels s₁ s' x y z) : Effect channels s s' x y z := by
  have h1 := h.books
  have h2 := h.mux
  have h3 := h'.books
  have h4 := h'.mux
  exact ⟨by omega, by omega⟩

theorem Effect.of_stage (hc : c ∈ channels) {n : ℕ} (hstage : ∀ d, d ≠ c → s'.stage d = s.stage d)
    (hmoved : s'.src.queuedBytes + s'.stage c = s.src.queuedBytes + s.stage c + n)
    (hfed : s'.fed = s.fed) (hlost : s'.unframableDiscarded = s.unframableDiscarded)
    (hgone : s'.discardedAtTeardown = s.discardedAtTeardown) (hfeed : s'.feed = s.feed)
    (hacc : s'.accepted = s.accepted + n) (hmux : s'.muxBooks = s.muxBooks)
    (hdec : s'.decoded = s.decoded) : Effect channels s s' 0 0 0 := by
  have hsum := sum_update hc hstage
  constructor
  · unfold ExecNode.books fedBytes
    rw [hfed, hlost, hgone, hfeed, hacc]
    omega
  · rw [hmux, hdec]
    omega

theorem push_effect (hc : c ∈ channels) (chunk : Chunk) :
    Effect channels s (s.push c chunk) 0 0 0 := by
  have hbytes : teardownBytes chunk = chunk.length := rfl
  refine Effect.of_stage hc (n := if ((s.inboxes c).accept chunk).1 then chunk.length else 0)
    ?_ ?_ rfl rfl rfl rfl ?_ rfl rfl
  · intro d hd
    simp [stage, push, update_of_ne hd]
  · change s.src.queuedBytes +
      ((update s.inboxes c ((s.inboxes c).accept chunk).2 c).queuedBytes +
        (s.forwarders c).inHand) = _
    rw [update_self, stage]
    rcases (s.inboxes c).accept_spec chunk with ⟨hok, -, -, hq⟩ | ⟨hok, h⟩
    · rw [hok, hq, if_pos rfl]
      omega
    · rw [hok, h]
      rfl
  · simp only [push]
    split_ifs <;> rfl

theorem push_sound (hs : s.Sound) (c : String) (chunk : Chunk) : (s.push c chunk).Sound := by
  refine ⟨?_, hs.slot, hs.pieces⟩
  intro d
  change (update s.inboxes c ((s.inboxes c).accept chunk).2 d).held = _
  by_cases hd : d = c
  · subst hd
    rw [update_self]
    rcases (s.inboxes d).accept_spec chunk with ⟨-, -, h, -⟩ | ⟨-, h⟩
    · rw [h]
      exact hs.held d
    · rw [h]
      exact hs.held d
  · rw [update_of_ne hd]
    exact hs.held d

theorem sendToMerge_cases (hf : s.forwarders c = .sending chunk) (hslot : s.src.slot.isSome) :
    (∃ src : TargetwardInbox FeedItem, src.slot.isSome ∧ src.held = s.src.held ∧
        src.queuedBytes = s.src.queuedBytes + teardownBytes (FeedItem.mk c chunk) ∧
        s.sendToMerge c chunk = { s with
          src
          inboxes := update s.inboxes c (s.inboxes c).settleHeld
          forwarders := update s.forwarders c .waiting }) ∨
      s.sendToMerge c chunk = s := by
  unfold sendToMerge
  dsimp only
  rcases s.src.accept_spec ⟨c, chunk⟩ with ⟨hok, hs, hheld, hq⟩ | ⟨hok, -⟩
  · exact .inl ⟨_, hs, hheld, hq, by rw [if_pos hok]⟩
  · refine .inr ?_
    rw [if_neg (by simp [hok]), if_pos hslot, ← hf, update_eq_self]

theorem sendToMerge_effect (hc : c ∈ channels) (hmux : c ≠ muxChannel)
    (hf : s.forwarders c = .sending chunk) (hslot : s.src.slot.isSome) :
    Effect channels s (s.sendToMerge c chunk) 0 0 0 := by
  rcases sendToMerge_cases hf hslot with ⟨src, -, -, hq, he⟩ | he
  · have hbytes : teardownBytes (FeedItem.mk c chunk) = chunk.length := if_neg hmux
    rw [he]
    refine Effect.of_stage hc (n := 0) ?_ ?_ rfl rfl rfl rfl rfl rfl rfl
    · intro d hd
      simp [stage, update_of_ne hd]
    · simp only [stage, update_self, hf, Forwarder.inHand, hq, hbytes]
      change _ + ((s.inboxes c).queuedBytes + 0) = _
      omega
  · rw [he]
    exact ⟨rfl, rfl⟩

theorem sendToMerge_sound (hs : s.Sound) (hf : s.forwarders c = .sending chunk)
    (hslot : s.src.slot.isSome) : (s.sendToMerge c chunk).Sound := by
  rcases sendToMerge_cases hf hslot with ⟨src, hsome, -, -, he⟩ | he
  · rw [he]
    refine ⟨?_, .inl hsome, hs.pieces⟩
    intro d
    by_cases hd : d = c
    · subst hd
      simp [Forwarder.inHand, TargetwardInbox.settleHeld]
    · simp only [update_of_ne hd]
      exact hs.held d
  · rw [he]
    exact hs

def holding (s : ExecNode) (c : String) (inbox : TargetwardInbox Chunk) (chunk : Chunk) :
    ExecNode :=
  { s with
    inboxes := update s.inboxes c inbox
    forwarders := update s.forwarders c (.sending chunk) }

theorem forward_cases (s : ExecNode) (c : String) :
    (∃ chunk, s.forwarders c = .sending chunk ∧ s.forward c = s.sendToMerge c chunk) ∨
      (∃ chunk inbox, (s.forwarders c).inHand = 0 ∧ inbox.held = chunk.length ∧
        chunk.length + inbox.queuedBytes = (s.inboxes c).queuedBytes ∧
        s.forward c = (s.holding c inbox chunk).sendToMerge c chunk) ∨
      ∃ f : Forwarder, f.inHand = 0 ∧ (s.forwarders c).inHand = 0 ∧
        (s.forward c = { s with
            inboxes := update s.inboxes c (s.inboxes c).settleHeld
            forwarders := update s.forwarders c f } ∨
          s.forward c = s) := by
  unfold forward
  cases hf : s.forwarders c with
  | sending chunk => exact .inl ⟨chunk, rfl, rfl⟩
  | finished => exact .inr (.inr ⟨.finished, rfl, rfl, .inr rfl⟩)
  | waiting =>
    have hnothing := (s.inboxes c).settleHeld.pollRecv_nothing (s.senders c)
    cases hp : (s.inboxes c).settleHeld.pollRecv (s.senders c) with
    | mk answer inbox =>
      rw [hp] at hnothing
      match answer with
      | .ready (some chunk) =>
        obtain ⟨-, -, hq, hheld⟩ := (s.inboxes c).settleHeld.pollRecv_item (s.senders c)
          (congrArg Prod.fst hp)
        rw [hp] at hq hheld
        refine .inr (.inl ⟨chunk, inbox, rfl, hheld, hq, ?_⟩)
        simp only [sendToMerge, holding, update_idem]
      | .ready none =>
        obtain rfl := hnothing nofun
        exact .inr (.inr ⟨.finished, rfl, rfl, .inl rfl⟩)
      | .pending =>
        obtain rfl := hnothing nofun
        have hsame : update s.forwarders c .waiting = s.forwarders := by
          rw [← hf, update_eq_self]
        exact .inr (.inr ⟨.waiting, rfl, rfl, .inl (by rw [hsame])⟩)

theorem holding_effect (hc : c ∈ channels) (hhand : (s.forwarders c).inHand = 0)
    (hq : chunk.length + inbox.queuedBytes = (s.inboxes c).queuedBytes) :
    Effect channels s (s.holding c inbox chunk) 0 0 0 := by
  refine Effect.of_stage hc (n := 0) ?_ ?_ rfl rfl rfl rfl rfl rfl rfl
  · intro d hd
    simp [stage, holding, update_of_ne hd]
  · simp only [stage, holding, update_self, hhand]
    change _ + (inbox.queuedBytes + chunk.length) = _
    omega

theorem holding_sound (hs : s.Sound) (hheld : inbox.held = chunk.length) :
    (s.holding c inbox chunk).Sound := by
  refine ⟨?_, hs.slot, hs.pieces⟩
  intro d
  by_cases hd : d = c
  · subst hd
    simpa [holding, Forwarder.inHand] using hheld
  · simpa [holding, update_of_ne hd] using hs.held d

theorem Sound.src_isSome (hs : s.Sound) (hp : s.phase ≠ .stopped) : s.src.slot.isSome :=
  hs.slot.resolve_right hp

theorem forward_effect (hs : s.Sound) (hc : c ∈ channels) (hmux : c ≠ muxChannel)
    (hp : s.phase ≠ .stopped) : Effect channels s (s.forward c) 0 0 0 := by
  rcases s.forward_cases c with ⟨chunk, hf, he⟩ | ⟨chunk, inbox, hhand, hheld, hq, he⟩ |
    ⟨f, hf, hhand, he | he⟩
  · rw [he]
    exact sendToMerge_effect hc hmux hf (hs.src_isSome hp)
  · rw [he]
    exact (holding_effect hc hhand hq).of_quiet
      (sendToMerge_effect hc hmux (by simp [holding]) (hs.src_isSome hp))
  · rw [he]
    refine Effect.of_stage hc (n := 0) ?_ ?_ rfl rfl rfl rfl rfl rfl rfl
    · intro d hd
      simp [stage, update_of_ne hd]
    · simp only [stage, update_self, hf, hhand]
      rfl
  · rw [he]
    exact ⟨rfl, rfl⟩

theorem forward_sound (hs : s.Sound) (hp : s.phase ≠ .stopped) : (s.forward c).Sound := by
  rcases s.forward_cases c with ⟨chunk, hf, he⟩ | ⟨chunk, inbox, hhand, hheld, hq, he⟩ |
    ⟨f, hf, hhand, he | he⟩
  · rw [he]
    exact sendToMerge_sound hs hf (hs.src_isSome hp)
  · rw [he]
    exact sendToMerge_sound (holding_sound hs hheld) (by simp [holding]) (hs.src_isSome hp)
  · rw [he]
    refine ⟨?_, hs.slot, hs.pieces⟩
    intro d
    by_cases hd : d = c
    · subst hd
      simp [hf, TargetwardInbox.settleHeld]
    · simpa [update_of_ne hd] using hs.held d
  · rw [he]
    exact hs

/-! ### The feed -/

theorem endPump_effect (s : ExecNode) (phase : ExecPhase) :
    Effect channels s (s.endPump phase) s.feed.rest 0 s.read.routing := by
  constructor
  · simp only [ExecNode.books, endPump, FeedPhase.rest, fedBytes, stage]
    omega
  · simp only [muxBooks, endPump, ReadPhase.routing]
    omega

theorem endPump_sound (hs : s.Sound) (hp : s.phase ≠ .stopped) (phase : ExecPhase) :
    (s.endPump phase).Sound :=
  ⟨hs.held, .inl (hs.src_isSome hp), nofun⟩

theorem fedBytes_append (channel : String) (written : List DataFrame) :
    ((written.map (channel, ·)).map fun p => frameWeight p.1 [p.2]).sum =
      frameWeight channel written := by
  unfold frameWeight
  split_ifs with hc
  · simp [hc, Function.comp_def]
  · simp [hc, Function.comp_def]

theorem feedFrames_weight {channel : String} {items : List DataFrame}
    (hpieces : channel = muxChannel → ∀ n, .residual n ∉ items) (answers : List Bool) :
    frameWeight channel (feedFrames answers items).1 + (feedFrames answers items).2.1 +
      frameWeight channel (feedFrames answers items).2.2.rest = frameWeight channel items := by
  have htotal := feedFrames_sourceBytes answers items
  unfold frameWeight
  split_ifs with hc
  · rw [(feedFrames_pieces answers (hpieces hc)).1]
  · exact htotal

def halfFed (s : ExecNode) (channel : String) (r : List DataFrame × ℕ × FeedEnd) : ExecNode :=
  { s with
    fed := s.fed ++ r.1.map (channel, ·)
    unframableDiscarded := s.unframableDiscarded + r.2.1
    feed := .writing channel r.2.2.rest }

theorem feedChunk_cases (s : ExecNode) (channel : String) (items : List DataFrame)
    (answers : List Bool) :
    let r := feedFrames answers items
    let s₁ := s.halfFed channel r
    (r.2.2 = .done ∧
        s.feedChunk channel items answers =
          { s₁ with src := s₁.src.settleHeld, feed := .waiting }) ∨
      (∃ rest, r.2.2 = .asleep rest ∧ s.feedChunk channel items answers = s₁) ∨
      ∃ rest, r.2.2 = .broken rest ∧ s.feedChunk channel items answers = s₁.endPump .down := by
  intro r s₁
  unfold feedChunk
  dsimp only
  split
  · next he => exact .inl ⟨he, rfl⟩
  · next rest he =>
    refine .inr (.inl ⟨rest, he, ?_⟩)
    simp only [s₁, halfFed, r, he, FeedEnd.rest]
  · next rest he => exact .inr (.inr ⟨rest, he, rfl⟩)

section feedChunk
variable {channel : String} {items : List DataFrame}
  (hpieces : channel = muxChannel → ∀ n, .residual n ∉ items) (answers : List Bool)
include hpieces

theorem halfFed_effect (hfeed : s.feed = .writing channel items) :
    Effect channels s (s.halfFed channel (feedFrames answers items)) 0 0 0 := by
  have hweight := feedFrames_weight hpieces answers
  have hfed := fedBytes_append channel (feedFrames answers items).1
  refine ⟨?_, rfl⟩
  simp only [ExecNode.books, fedBytes, halfFed, FeedPhase.rest, hfeed, map_append, sum_append, hfed]
  change _ + _ + (∑ c ∈ channels, s.stage c) + 0 + _ = _
  omega

theorem halfFed_sound (hs : s.Sound) : (s.halfFed channel (feedFrames answers items)).Sound := by
  refine ⟨hs.held, hs.slot, ?_⟩
  intro rest hrest n
  obtain ⟨hc, hr⟩ : channel = muxChannel ∧ (feedFrames answers items).2.2.rest = rest := by
    simpa [halfFed] using hrest
  exact hr ▸ (feedFrames_pieces answers (hpieces hc)).2 n

theorem feedChunk_conserved_iff (hfeed : s.feed = .writing channel items)
    (hs : s.Conserved channels) : (s.feedChunk channel items answers).Conserved channels ↔
      s.EndsWell channel (feedFrames answers items).2.2 := by
  have hhalf := (halfFed_effect hpieces answers hfeed).conserved hs
  rcases s.feedChunk_cases channel items answers with ⟨he, h⟩ | ⟨rest, he, h⟩ | ⟨rest, he, h⟩
  · have hdone : Effect channels (s.halfFed channel (feedFrames answers items))
        (s.feedChunk channel items answers) 0 0 0 := by
      rw [h]
      refine ⟨?_, rfl⟩
      simp only [ExecNode.books, halfFed, FeedPhase.rest, he, FeedEnd.rest, frameWeight,
        map_nil, sum_nil, ite_self]
      rfl
    rw [he]
    exact iff_of_true (hdone.conserved hhalf) trivial
  · rw [h, he]
    exact iff_of_true hhalf trivial
  · have hend : Effect channels _ _ _ _ _ :=
      endPump_effect (s.halfFed channel (feedFrames answers items)) .down
    rw [h, hend.conserved_iff hhalf]
    simp only [halfFed, FeedPhase.rest, he, FeedEnd.rest, EndsWell]

theorem feedChunk_sound (hs : s.Sound) (hp : s.phase ≠ .stopped) :
    (s.feedChunk channel items answers).Sound := by
  have hhalf := halfFed_sound hpieces answers hs
  rcases s.feedChunk_cases channel items answers with ⟨-, h⟩ | ⟨rest, -, h⟩ | ⟨rest, -, h⟩
  · rw [h]
    exact ⟨hs.held, .inl (hs.src_isSome hp), nofun⟩
  · rw [h]
    exact hhalf
  · rw [h]
    exact endPump_sound hhalf hp .down

end feedChunk

theorem feedChunk_feed (s : ExecNode) (feed : FeedPhase) (channel : String)
    (items : List DataFrame) (answers : List Bool) :
    ({ s with feed } : ExecNode).feedChunk channel items answers =
      s.feedChunk channel items answers := by
  unfold feedChunk
  dsimp only
  split <;> rfl

def received (s : ExecNode) (src : TargetwardInbox FeedItem) (item : FeedItem) : ExecNode :=
  { s with src, feed := .writing item.channel (dataFrames item.channel item.bytes) }

theorem pollFeed_cases (channels : Finset String) (s : ExecNode) (answers : List Bool) :
    (∃ channel rest, s.feed = .writing channel rest ∧ s.upcoming channels = .frames channel rest ∧
        s.pollFeed channels answers = s.feedChunk channel rest answers) ∨
      (∃ item src, s.feed = .waiting ∧ src.slot.isSome ∧
        teardownBytes item + src.queuedBytes = s.src.queuedBytes ∧
        s.upcoming channels = .frames item.channel (dataFrames item.channel item.bytes) ∧
        s.pollFeed channels answers = (s.received src item).feedChunk item.channel
          (dataFrames item.channel item.bytes) answers) ∨
      (s.feed = .waiting ∧ s.upcoming channels = .closed ∧
        s.pollFeed channels answers = { s with src := s.src.settleHeld }.endPump .finished) ∨
      s.feed = .waiting ∧ s.upcoming channels = .idle ∧
        s.pollFeed channels answers = { s with src := s.src.settleHeld } := by
  unfold pollFeed upcoming
  cases hf : s.feed with
  | writing channel rest => exact .inl ⟨channel, rest, rfl, rfl, rfl⟩
  | waiting =>
    refine .inr ?_
    have hnothing := s.src.settleHeld.pollRecv_nothing (s.sourceOpen channels)
    cases hp : s.src.settleHeld.pollRecv (s.sourceOpen channels) with
    | mk answer src =>
      rw [hp] at hnothing
      match answer with
      | .ready (some item) =>
        obtain ⟨-, hslot, hq, -⟩ := s.src.settleHeld.pollRecv_item (s.sourceOpen channels)
          (congrArg Prod.fst hp)
        rw [hp] at hslot hq
        refine .inl ⟨item, src, rfl, hslot, hq, rfl, ?_⟩
        exact (feedChunk_feed { s with src } _ item.channel _ answers).symm
      | .ready none =>
        obtain rfl := hnothing nofun
        exact .inr (.inl ⟨rfl, rfl, rfl⟩)
      | .pending =>
        obtain rfl := hnothing nofun
        exact .inr (.inr ⟨rfl, rfl, rfl⟩)

variable {src : TargetwardInbox FeedItem}

theorem received_effect (hf : s.feed = .waiting) {item : FeedItem}
    (hq : teardownBytes item + src.queuedBytes = s.src.queuedBytes) :
    Effect channels s (s.received src item) 0 0 0 := by
  refine ⟨?_, rfl⟩
  simp only [ExecNode.books, received, FeedPhase.rest, hf, frameWeight_dataFrames]
  change s.fedBytes + _ + _ + _ + _ + (∑ c ∈ channels, s.stage c) + _ + _ = _
  omega

theorem received_sound (hs : s.Sound) (hslot : src.slot.isSome) (item : FeedItem) :
    (s.received src item).Sound := by
  refine ⟨hs.held, .inl hslot, ?_⟩
  intro rest hrest n
  obtain ⟨hc, hr⟩ : item.channel = muxChannel ∧ dataFrames item.channel item.bytes = rest := by
    simpa [received] using hrest
  rw [← hr, hc]
  exact dataFrames_mux item.bytes n

theorem item_pieces (item : FeedItem) (hc : item.channel = muxChannel) (n : ℕ) :
    .residual n ∉ dataFrames item.channel item.bytes :=
  hc ▸ dataFrames_mux item.bytes n

theorem Sound.rest_pieces (hs : s.Sound) {channel : String} {rest : List DataFrame}
    (hf : s.feed = .writing channel rest) (hc : channel = muxChannel) (n : ℕ) :
    .residual n ∉ rest :=
  hs.pieces rest (hc ▸ hf) n

theorem settled_effect (s : ExecNode) :
    Effect channels s { s with src := s.src.settleHeld } 0 0 0 := ⟨rfl, rfl⟩

theorem pollFeed_conserved_iff (hs : s.Sound) (hcons : s.Conserved channels) (answers : List Bool) :
    (s.pollFeed channels answers).Conserved channels ↔
      s.Harmless channels (.pollFeed answers) := by
  unfold Harmless
  rcases pollFeed_cases channels s answers with ⟨channel, rest, hf, hup, he⟩ |
    ⟨item, src, hf, hslot, hq, hup, he⟩ | ⟨hf, hup, he⟩ | ⟨hf, hup, he⟩
  · rw [he, hup]
    exact feedChunk_conserved_iff (hs.rest_pieces hf) answers hf hcons
  · rw [he, hup]
    exact feedChunk_conserved_iff (item_pieces item) answers rfl
      ((received_effect hf hq).conserved hcons)
  · have hend : Effect channels _ _ _ _ _ :=
      endPump_effect { s with src := s.src.settleHeld } .finished
    rw [he, hup, hend.conserved_iff (s.settled_effect.conserved hcons)]
    simp only [hf, FeedPhase.rest, true_and]
  · rw [he, hup]
    exact iff_of_true (s.settled_effect.conserved hcons) trivial

theorem pollFeed_sound (hs : s.Sound) (hp : s.phase ≠ .stopped) (answers : List Bool) :
    (s.pollFeed channels answers).Sound := by
  rcases pollFeed_cases channels s answers with ⟨channel, rest, hf, -, he⟩ |
    ⟨item, src, hf, hslot, -, -, he⟩ | ⟨-, -, he⟩ | ⟨-, -, he⟩
  · rw [he]
    exact feedChunk_sound (hs.rest_pieces hf) answers hs hp
  · rw [he]
    exact feedChunk_sound (item_pieces item) answers (received_sound hs hslot item) hp
  · rw [he]
    exact ⟨hs.held, .inl (hs.src_isSome hp), nofun⟩
  · rw [he]
    exact ⟨hs.held, hs.slot, hs.pieces⟩

theorem Sound.of_same (hs : s.Sound) (hi : s'.inboxes = s.inboxes)
    (hf : s'.forwarders = s.forwarders) (hsrc : s'.src = s.src) (hp : s'.phase = s.phase)
    (hfeed : s'.feed = s.feed) : s'.Sound :=
  ⟨by rw [hi, hf]; exact hs.held, by rw [hsrc, hp]; exact hs.slot, by rw [hfeed]; exact hs.pieces⟩

def HandsTo (s s' : ExecNode) : Prop :=
  ∃ puts, s'.toDevice = s.toDevice + (puts.map fun put => put.2.length).sum ∧
    Channel.Handed s.devices s'.devices puts

theorem HandsTo.of_eq (htotal : s'.toDevice = s.toDevice) (hdevices : s'.devices = s.devices) :
    s.HandsTo s' :=
  ⟨[], htotal, hdevices ▸ .refl _⟩

variable (channels) in
structure Routed (s s' : ExecNode) (n : ℕ) : Prop where
  books : s'.books channels = s.books channels
  accepted : s'.accepted = s.accepted
  decoded : s'.decoded = s.decoded
  mux : s'.muxBooks + s.read.routing = s.muxBooks + n
  sound : s.Sound → s'.Sound
  hands : s.HandsTo s'

theorem chargeMux_routed (s : ExecNode) (n : ℕ) : Routed channels s (s.chargeMux n) n := by
  refine ⟨rfl, rfl, rfl, ?_, fun hs => hs.of_same rfl rfl rfl rfl rfl, .of_eq rfl rfl⟩
  change s.toDevice + (s.muxDiscardedTargetward + n) + 0 + s.read.routing =
    s.toDevice + s.muxDiscardedTargetward + s.read.routing + n
  omega

theorem sendToDevice_routed (s : ExecNode) (k : ℕ) (bytes : Chunk) :
    Routed channels s (s.sendToDevice k bytes) bytes.length := by
  unfold sendToDevice
  split
  · next chan hok =>
    refine ⟨rfl, rfl, rfl, ?_, fun hs => hs.of_same rfl rfl rfl rfl rfl,
      [(k, bytes)], rfl, .update hok⟩
    change s.toDevice + bytes.length + s.muxDiscardedTargetward + 0 + s.read.routing =
      s.toDevice + s.muxDiscardedTargetward + s.read.routing + bytes.length
    omega
  · refine ⟨rfl, rfl, rfl, ?_, fun hs => hs.of_same rfl rfl rfl rfl rfl, .of_eq rfl rfl⟩
    change s.toDevice + s.muxDiscardedTargetward + bytes.length + s.read.routing =
      s.toDevice + s.muxDiscardedTargetward + s.read.routing + bytes.length
    omega
  · exact s.chargeMux_routed bytes.length

theorem forwardTargetward_routed (s : ExecNode) (k : ℕ) (bytes : Chunk) (lock : Reacquire) :
    Routed channels s (s.forwardTargetward k bytes lock) bytes.length := by
  cases lock with
  | granted => exact s.sendToDevice_routed k bytes
  | refused => exact s.chargeMux_routed bytes.length
  | pending =>
    refine ⟨rfl, rfl, rfl, ?_, fun hs => hs.of_same rfl rfl rfl rfl rfl, .of_eq rfl rfl⟩
    change s.toDevice + s.muxDiscardedTargetward + bytes.length + s.read.routing =
      s.toDevice + s.muxDiscardedTargetward + s.read.routing + bytes.length
    omega

theorem routeMux_routed (s : ExecNode) (bytes : Chunk) (lock : Reacquire) :
    Routed channels s (s.routeMux bytes lock) bytes.length := by
  unfold routeMux
  split
  · exact s.forwardTargetward_routed _ bytes lock
  · exact s.chargeMux_routed bytes.length

theorem routeEvent_effect (hr : s.read.routing = 0) (event : Event) (lock : Reacquire) :
    Effect channels s (s.routeEvent event lock) 0 0 0 := by
  have hquiet : Effect channels s { s with read := .decoding } 0 0 0 := by
    refine ⟨rfl, ?_⟩
    simp only [muxBooks, hr]
    rfl
  unfold routeEvent
  cases event.kind with
  | data bytes =>
    split_ifs
    · have hroute : Routed channels { s with decoded := s.decoded + bytes.length } _ _ :=
        routeMux_routed _ bytes lock
      have hmux := hroute.mux
      rw [show ({ s with decoded := s.decoded + bytes.length } : ExecNode).read.routing = 0
        from hr] at hmux
      constructor
      · rw [hroute.books, hroute.accepted]
        rfl
      · rw [hroute.decoded, Nat.add_zero, ← Nat.add_zero (muxBooks _), hmux]
        change s.muxBooks + bytes.length + s.decoded = s.muxBooks + (s.decoded + bytes.length)
        omega
    · exact hquiet
  | opened | closed | error => exact hquiet

theorem routeEvent_sound (hs : s.Sound) (event : Event) (lock : Reacquire) :
    (s.routeEvent event lock).Sound := by
  have hquiet : Sound { s with read := .decoding } := hs.of_same rfl rfl rfl rfl rfl
  unfold routeEvent
  cases event.kind with
  | data bytes =>
    split_ifs
    · have hroute : Routed ∅ { s with decoded := s.decoded + bytes.length } _ _ :=
        routeMux_routed _ bytes lock
      exact hroute.sound (hs.of_same rfl rfl rfl rfl rfl)
    · exact hquiet
  | opened | closed | error => exact hquiet

theorem resumeRoute_routed (s : ExecNode) (hr : s.read.isRouting = true) (lock : Reacquire) :
    Routed channels s (s.resumeRoute lock) s.read.routing := by
  unfold resumeRoute
  cases hread : s.read with
  | reading | decoding => rw [hread] at hr; cases hr
  | locking k bytes => exact s.forwardTargetward_routed k bytes lock
  | sending k bytes => exact s.sendToDevice_routed k bytes

theorem resumeRoute_effect (hr : s.read.isRouting = true) (lock : Reacquire) :
    Effect channels s (s.resumeRoute lock) 0 0 0 := by
  have hroute : Routed channels s _ _ := s.resumeRoute_routed hr lock
  have hmux := hroute.mux
  refine ⟨by rw [hroute.books, hroute.accepted], ?_⟩
  rw [hroute.decoded]
  omega

theorem nextEvent_conserved_iff (hr : s.read = .decoding) (hcons : s.Conserved channels)
    (lock : Reacquire) : (s.nextEvent lock).Conserved channels ↔
      s.Harmless channels (.nextEvent lock) := by
  unfold nextEvent Harmless
  cases hn : s.decoder.nextEvent with
  | mk answer decoder =>
    have hzero : ({ s with decoder } : ExecNode).read.routing = 0 := by
      rw [hr]
      rfl
    have hdecoder : Effect channels s { s with decoder } 0 0 0 := ⟨rfl, rfl⟩
    match answer with
    | .ok (some event) =>
      have hroute : Effect channels _ _ 0 0 0 := routeEvent_effect hzero event lock
      exact iff_of_true ((hdecoder.of_quiet hroute).conserved hcons) trivial
    | .ok none =>
      have hread : Effect channels s { s with decoder, read := .reading } 0 0 0 := by
        refine ⟨rfl, ?_⟩
        simp only [muxBooks, hr]
        rfl
      exact iff_of_true (hread.conserved hcons) trivial
    | .error e =>
      have hend : Effect channels { s with decoder } _ _ _ _ := endPump_effect _ .down
      exact hend.conserved_iff (hdecoder.conserved hcons)

theorem nextEvent_sound (hs : s.Sound) (hp : s.phase ≠ .stopped) (lock : Reacquire) :
    (s.nextEvent lock).Sound := by
  unfold nextEvent
  split
  · next event decoder _ =>
    have hdecoder : Sound { s with decoder } := hs.of_same rfl rfl rfl rfl rfl
    exact routeEvent_sound hdecoder event lock
  · exact hs.of_same rfl rfl rfl rfl rfl
  · exact ⟨hs.held, .inl (hs.src_isSome hp), nofun⟩

theorem signalStop_effect (hs : s.Sound) :
    Effect channels s (s.signalStop channels) s.feed.rest s.src.held s.read.routing := by
  have hsrc := s.src.drainAndCount_fst
  have hsum : ∑ c ∈ channels, (s.inboxes c).drainAndCount.1 = ∑ c ∈ channels, s.stage c := by
    refine Finset.sum_congr rfl fun c _ => ?_
    rw [(s.inboxes c).drainAndCount_fst, hs.held c, stage]
  have hafter : ∑ c ∈ channels, (s.signalStop channels).stage c = 0 := by
    refine Finset.sum_eq_zero fun c _ => ?_
    change (s.inboxes c).drainAndCount.2.queuedBytes + 0 = 0
    rw [(s.inboxes c).drainAndCount_snd]
    rfl
  have hqueue : (s.signalStop channels).src.queuedBytes = 0 := by
    change s.src.drainAndCount.2.queuedBytes = 0
    rw [s.src.drainAndCount_snd]
    rfl
  have hlost : (s.signalStop channels).discardedAtTeardown = s.discardedAtTeardown +
      (s.src.queuedBytes + s.src.held + ∑ c ∈ channels, s.stage c) := by
    simp only [signalStop]
    rw [hsrc, hsum]
    split_ifs <;> omega
  constructor
  · unfold ExecNode.books
    rw [hafter, hqueue, hlost]
    change s.fedBytes + s.unframableDiscarded + _ + 0 + 0 + 0 + _ + s.accepted =
      _ + s.src.held + s.accepted
    omega
  · change s.toDevice + s.muxDiscardedTargetward + 0 + s.read.routing + s.decoded =
      s.toDevice + s.muxDiscardedTargetward + s.read.routing + s.decoded
    omega

theorem signalStop_sound (channels : Finset String) (s : ExecNode) :
    (s.signalStop channels).Sound := by
  refine ⟨?_, .inr rfl, nofun⟩
  intro c
  change (s.inboxes c).drainAndCount.2.held = 0
  rw [(s.inboxes c).drainAndCount_snd]

theorem muxFeed_effect (s : ExecNode) (bytes : Chunk) :
    Effect channels s { s with src := (s.src.accept ⟨muxChannel, bytes⟩).2 } 0 0 0 := by
  have hq : (s.src.accept ⟨muxChannel, bytes⟩).2.queuedBytes = s.src.queuedBytes := by
    rcases s.src.accept_spec ⟨muxChannel, bytes⟩ with ⟨-, -, -, h⟩ | ⟨-, h⟩
    · exact h
    · rw [h]
  refine ⟨?_, rfl⟩
  simp only [ExecNode.books, hq]
  rfl

theorem muxFeed_sound (hs : s.Sound) (bytes : Chunk) :
    Sound { s with src := (s.src.accept ⟨muxChannel, bytes⟩).2 } := by
  refine ⟨hs.held, ?_, hs.pieces⟩
  rcases s.src.accept_spec ⟨muxChannel, bytes⟩ with ⟨-, h, -, -⟩ | ⟨-, h⟩
  · exact .inl h
  · rw [h]
    exact hs.slot

theorem start_sound (cap : ℕ) (mux : Bool) (edge : Option ℕ) (devices : ℕ → Channel Chunk) :
    (start cap mux edge devices).Sound :=
  ⟨fun _ => rfl, .inl rfl, nofun⟩

theorem start_conserved (cap : ℕ) (mux : Bool) (edge : Option ℕ) (devices : ℕ → Channel Chunk) :
    (start cap mux edge devices).Conserved channels := by
  refine ⟨?_, rfl⟩
  change 0 + ∑ c ∈ channels, 0 = 0
  simp

theorem step_sound (hs : s.Sound) {a : ExecAct} (hok : s.Allowed channels a) :
    (s.step channels a).Sound := by
  cases a with
  | push c chunk => exact push_sound hs c chunk
  | sendersGone | muxGone | readStdout | setEdge | deviceReceives |
      deviceGone => exact hs.of_same rfl rfl rfl rfl rfl
  | forward c => exact forward_sound hs hok.2
  | muxFeed bytes => exact muxFeed_sound hs bytes
  | spawn ok =>
    have hp : s.phase = .down := hok
    cases ok with
    | false => exact hs
    | true => exact ⟨hs.held, .inl (hs.src_isSome (by rw [hp]; nofun)), hs.pieces⟩
  | pollFeed answers =>
    have hp : s.phase = .pumping := hok
    exact pollFeed_sound hs (by rw [hp]; nofun) answers
  | stdoutEnds => exact endPump_sound hs (by rw [hok.1]; nofun) .down
  | nextEvent lock => exact nextEvent_sound hs (by rw [hok.1]; nofun) lock
  | resumeRoute lock =>
    have hroute : Routed channels s _ _ := s.resumeRoute_routed hok.2 lock
    exact hroute.sound hs
  | signalStop => exact signalStop_sound channels s

theorem step_conserved_iff (hmux : muxChannel ∉ channels) (hs : s.Sound) {a : ExecAct}
    (hok : s.Allowed channels a) (hcons : s.Conserved channels) :
    (s.step channels a).Conserved channels ↔ s.Harmless channels a := by
  have hquiet {s' : ExecNode} (h : Effect channels s s' 0 0 0) : s'.Conserved channels ↔ True :=
    iff_of_true (h.conserved hcons) trivial
  cases a with
  | push c chunk => exact hquiet (push_effect hok chunk)
  | sendersGone | muxGone | setEdge | deviceReceives | deviceGone => exact hquiet ⟨rfl, rfl⟩
  | forward c =>
    have hc : c ≠ muxChannel := fun h => hmux (h ▸ hok.1)
    exact hquiet (forward_effect hs hok.1 hc hok.2)
  | muxFeed bytes => exact hquiet (s.muxFeed_effect bytes)
  | spawn ok => cases ok <;> exact hquiet ⟨rfl, rfl⟩
  | pollFeed answers => exact pollFeed_conserved_iff hs hcons answers
  | readStdout bytes =>
    refine hquiet ⟨rfl, ?_⟩
    simp only [step, muxBooks, hok.2.2]
    rfl
  | stdoutEnds => exact (s.endPump_effect .down).conserved_iff hcons
  | nextEvent lock => exact nextEvent_conserved_iff hok.2 hcons lock
  | resumeRoute lock => exact hquiet (resumeRoute_effect hok.2 lock)
  | signalStop => exact (signalStop_effect hs).conserved_iff hcons

/-- What a step of the node adds to `toDevice` is what entered the queues of devices. -/
def Hands (channels : Finset String) (s : ExecNode) (a : ExecAct) : Prop :=
  match a with
  | .deviceReceives _ | .deviceGone _ => True
  | a => s.HandsTo (s.step channels a)

theorem routeEvent_hands (s : ExecNode) (event : Event) (lock : Reacquire) :
    s.HandsTo (s.routeEvent event lock) := by
  unfold routeEvent
  split
  · next bytes _ =>
    split
    · have hroute : Routed ∅ { s with decoded := s.decoded + bytes.length } _ _ :=
        routeMux_routed _ bytes lock
      exact hroute.hands
    · exact .of_eq rfl rfl
  all_goals exact .of_eq rfl rfl

theorem nextEvent_hands (s : ExecNode) (lock : Reacquire) : s.HandsTo (s.nextEvent lock) := by
  unfold nextEvent
  split
  · next event decoder _ => exact routeEvent_hands { s with decoder } event lock
  · exact .of_eq rfl rfl
  · exact .of_eq rfl rfl

theorem resumeRoute_hands (s : ExecNode) (lock : Reacquire) : s.HandsTo (s.resumeRoute lock) := by
  unfold resumeRoute
  split
  · exact (forwardTargetward_routed s _ _ lock : Routed ∅ s _ _).hands
  · exact (sendToDevice_routed s _ _ : Routed ∅ s _ _).hands
  all_goals exact .of_eq rfl rfl

theorem sendToMerge_hands (s : ExecNode) (c : String) (chunk : Chunk) :
    s.HandsTo (s.sendToMerge c chunk) := by
  unfold sendToMerge
  dsimp only
  split_ifs <;> exact .of_eq rfl rfl

theorem forward_hands (s : ExecNode) (c : String) : s.HandsTo (s.forward c) := by
  unfold forward
  split
  · split
    · next chunk inbox _ =>
      exact sendToMerge_hands { s with inboxes := update s.inboxes c inbox } c chunk
    · exact .of_eq rfl rfl
    · exact .of_eq rfl rfl
  · exact s.sendToMerge_hands c _
  · exact .of_eq rfl rfl

theorem feedChunk_hands (s : ExecNode) (channel : String) (items : List DataFrame)
    (answers : List Bool) : s.HandsTo (s.feedChunk channel items answers) := by
  unfold feedChunk
  dsimp only
  split <;> exact .of_eq rfl rfl

theorem pollFeed_hands (s : ExecNode) (channels : Finset String) (answers : List Bool) :
    s.HandsTo (s.pollFeed channels answers) := by
  unfold pollFeed
  split
  · exact s.feedChunk_hands _ _ answers
  · split
    · next item src _ => exact feedChunk_hands { s with src } _ _ answers
    · exact .of_eq rfl rfl
    · exact .of_eq rfl rfl

theorem step_hands (channels : Finset String) (s : ExecNode) (a : ExecAct) :
    s.Hands channels a := by
  cases a with
  | forward c => exact s.forward_hands c
  | pollFeed answers => exact s.pollFeed_hands channels answers
  | nextEvent lock => exact s.nextEvent_hands lock
  | resumeRoute lock => exact s.resumeRoute_hands lock
  | spawn ok => cases ok <;> exact HandsTo.of_eq rfl rfl
  | deviceReceives | deviceGone => trivial
  | push | sendersGone | muxFeed | muxGone | readStdout | stdoutEnds | setEdge | signalStop =>
    exact HandsTo.of_eq rfl rfl

theorem exec_conserved_iff (channels : Finset String) (hmux : muxChannel ∉ channels) (cap : ℕ)
    (mux : Bool) (edge : Option ℕ) (devices : ℕ → Channel Chunk) (as : List ExecAct)
    (hl : (machine channels).Legal (start cap mux edge devices) as) :
    (machine channels).Each (Hands channels) (start cap mux edge devices) as ∧
    ((machine channels).Always (Conserved channels) (start cap mux edge devices) as ↔
      (machine channels).Each (Harmless channels) (start cap mux edge devices) as) := by
  have hsound : ∀ s a, Sound s → (machine channels).ok s a →
      Sound ((machine channels).step s a) := fun _ _ hs hok => step_sound hs hok
  have hstep : ∀ s a, Sound s → (machine channels).ok s a → Conserved channels s →
      (Conserved channels ((machine channels).step s a) ↔ Harmless channels s a) :=
    fun _ _ hs hok hcons => step_conserved_iff hmux hs hok hcons
  exact ⟨Runs.Machine.each_of_forall (step_hands channels) _ _,
    Runs.Machine.always_iff_each hsound hstep (start_sound cap mux edge devices)
      (start_conserved cap mux edge devices) hl⟩

section decidable
variable (channels : Finset String) (s : ExecNode)

instance : ∀ a, Decidable ((machine channels).ok s a)
  | .push c _ => inferInstanceAs (Decidable (c ∈ channels))
  | .forward c => inferInstanceAs (Decidable (c ∈ channels ∧ s.phase ≠ .stopped))
  | .muxFeed _ => inferInstanceAs (Decidable (s.muxForwarder = true))
  | .spawn _ => inferInstanceAs (Decidable (s.phase = .down))
  | .pollFeed _ => inferInstanceAs (Decidable (s.phase = .pumping))
  | .readStdout bytes =>
    inferInstanceAs (Decidable (bytes ≠ [] ∧ s.phase = .pumping ∧ s.read = .reading))
  | .stdoutEnds => inferInstanceAs (Decidable (s.phase = .pumping ∧ s.read = .reading))
  | .nextEvent _ => inferInstanceAs (Decidable (s.phase = .pumping ∧ s.read = .decoding))
  | .resumeRoute _ =>
    inferInstanceAs (Decidable (s.phase = .pumping ∧ s.read.isRouting = true))
  | .sendersGone _ | .muxGone | .setEdge _ | .deviceReceives _ | .deviceGone _ | .signalStop =>
    .isTrue trivial

instance : Decidable (s.Conserved channels) := inferInstanceAs (Decidable (_ ∧ _))

instance (channel : String) : ∀ ended, Decidable (s.EndsWell channel ended)
  | .broken rest =>
    inferInstanceAs (Decidable (frameWeight channel rest = 0 ∧ s.read.routing = 0))
  | .done | .asleep _ => .isTrue trivial

instance : ∀ a, Decidable (s.Harmless channels a)
  | .pollFeed answers =>
    match h : s.upcoming channels with
    | .frames channel items =>
      decidable_of_iff (s.EndsWell channel (feedFrames answers items).2.2)
        (by simp only [Harmless, h])
    | .closed => decidable_of_iff (s.read.routing = 0) (by simp only [Harmless, h])
    | .idle => .isTrue (by simp only [Harmless, h])
  | .stdoutEnds => inferInstanceAs (Decidable (s.feed.rest = 0 ∧ s.read.routing = 0))
  | .nextEvent _ =>
    match h : s.decoder.nextEvent.1 with
    | .error _ => decidable_of_iff (s.feed.rest = 0 ∧ s.read.routing = 0)
        (by simp only [Harmless, h])
    | .ok _ => .isTrue (by simp only [Harmless, h])
  | .signalStop =>
    inferInstanceAs (Decidable (s.feed.rest = s.src.held ∧ s.read.routing = 0))
  | .push _ _ | .sendersGone _ | .forward _ | .muxFeed _ | .muxGone | .spawn _ | .readStdout _
  | .resumeRoute _ | .setEdge _ | .deviceReceives _ | .deviceGone _ => .isTrue trivial

end decidable

def console : ExecNode := start 4 true (some 0) fun _ => .new 1

def lively : List ExecAct :=
  [.push "a" [1, 2], .forward "a", .spawn true, .muxFeed [9], .pollFeed [true], .push "b" [3],
    .forward "b", .pollFeed [], .readStdout [0, 0, 0, 4, 0, 0, 0, 7], .nextEvent .pending,
    .pollFeed [true], .pollFeed [true], .resumeRoute .granted, .nextEvent .granted, .stdoutEnds,
    .spawn false, .spawn true, .push "a" [4], .forward "a", .push "b" [5, 6], .signalStop]

theorem exec_conserved_iff_lively :
    (machine {"a", "b"}).Always (Conserved {"a", "b"}) console lively ∧
      ((machine {"a", "b"}).run console lively).fedBytes = 3 ∧
      ((machine {"a", "b"}).run console lively).discardedAtTeardown = 3 ∧
      ((machine {"a", "b"}).run console lively).toDevice = 1 := by
  have hl : (machine {"a", "b"}).Legal console lively := by decide +kernel
  exact ⟨(exec_conserved_iff {"a", "b"} (by decide) 4 true (some 0) _ lively hl).2.mpr
    (by decide +kernel), by decide +kernel, by decide +kernel, by decide +kernel⟩

theorem half_fed_chunk_uncounted :
    (∃ as, (machine {"a", "b"}).Legal console as ∧
      ¬ (machine {"a", "b"}).Always (Conserved {"a", "b"}) console as ∧
      ((machine {"a", "b"}).run console as).accepted = 2 ∧
      ((machine {"a", "b"}).run console as).fed = [] ∧
      ((machine {"a", "b"}).run console as).unframableDiscarded = 0 ∧
      ((machine {"a", "b"}).run console as).discardedAtTeardown = 0) ∧
    ∃ as, (machine {"a", "b"}).Legal console as ∧
      ¬ (machine {"a", "b"}).Always (Conserved {"a", "b"}) console as ∧
      ((machine {"a", "b"}).run console as).decoded = 1 ∧
      ((machine {"a", "b"}).run console as).toDevice = 0 ∧
      ((machine {"a", "b"}).run console as).muxDiscardedTargetward = 0 :=
  ⟨⟨[.push "a" [1, 2], .forward "a", .spawn true, .pollFeed [], .stdoutEnds, .spawn true,
      .pollFeed [], .signalStop], by decide +kernel⟩,
    [.spawn true, .readStdout [0, 0, 0, 4, 0, 0, 0, 7], .nextEvent .pending, .signalStop],
    by decide +kernel⟩

end ExecNode
end SerialNexus
