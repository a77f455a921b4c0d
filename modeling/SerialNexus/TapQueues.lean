import SerialNexus.Tap

/-! # What the hub queues on its connections

Every operation of the hub touches the connections through `Conns.trySend` only, so it leaves
capacities and receivers alone and can only append to queues (`Extends`). -/

namespace SerialNexus

open List Function

namespace Conns

def queued (a b : Conns) (c : ConnId) : List TapMsg := (b c).out.queue.drop (a c).out.queue.length

structure Extends (a b : Conns) : Prop where
  cap : ∀ c, (b c).out.cap = (a c).out.cap
  isOpen : ∀ c, (b c).out.isOpen = (a c).out.isOpen
  queue : ∀ c, (a c).out.queue ++ queued a b c = (b c).out.queue

variable {a b d : Conns}

theorem queued_of_eq {c : ConnId} {ms : List TapMsg} (h : (b c).out.queue = (a c).out.queue ++ ms) :
    queued a b c = ms := by
  rw [queued, h, drop_left]

theorem queued_self (a : Conns) (c : ConnId) : queued a a c = [] := queued_of_eq (append_nil _).symm

theorem Extends.refl (a : Conns) : Extends a a where
  cap _ := rfl
  isOpen _ := rfl
  queue c := by rw [queued_self, append_nil]

theorem queued_trans (hab : Extends a b) (hbd : Extends b d) (c : ConnId) :
    queued a d c = queued a b c ++ queued b d c :=
  queued_of_eq (by rw [← hbd.queue, ← hab.queue, append_assoc])

theorem Extends.trans (hab : Extends a b) (hbd : Extends b d) : Extends a d where
  cap c := (hbd.cap c).trans (hab.cap c)
  isOpen c := (hbd.isOpen c).trans (hab.isOpen c)
  queue c := by rw [queued_trans hab hbd, ← append_assoc, hab.queue, hbd.queue]

theorem queued_lane (a b : Conns) (c c' : ConnId) (lane : List TapMsg) :
    queued a (update b c { b c with lane }) c' = queued a b c' := by
  unfold queued
  by_cases h : c' = c
  · subst h; simp
  · simp [h]

theorem Extends.lane (h : Extends a b) (c : ConnId) (lane : List TapMsg) :
    Extends a (update b c { b c with lane }) := by
  have hout : ∀ c', (update b c { b c with lane } c').out = (b c').out := by
    intro c'
    by_cases hc : c' = c
    · subst hc; simp
    · simp [hc]
  exact ⟨fun c' => by rw [hout, h.cap], fun c' => by rw [hout, h.isOpen],
    fun c' => by rw [queued_lane, hout, h.queue]⟩

section send
variable (conns : Conns) (c : ConnId) (msg : TapMsg)

theorem trySend_cases :
    ((conns c).out.isOpen = true ∧ (conns c).out.queue.length < (conns c).out.cap ∧
        (conns.trySend c msg).1 = .ok) ∨
      ((conns c).out.isOpen = true ∧ (conns c).out.cap = (conns c).out.queue.length ∧
        (conns.trySend c msg).1 = .full ∧ (conns.trySend c msg).2 = conns) ∨
      ((conns c).out.isOpen = false ∧ (conns.trySend c msg).1 = .closed ∧
        (conns.trySend c msg).2 = conns) := by
  unfold Conns.trySend
  rcases (conns c).out.trySend_cases msg with ⟨ho, hr, hok, _⟩ | ⟨ho, hr, he⟩ | ⟨ho, he⟩
  · exact .inl ⟨ho, hr, hok⟩
  · exact .inr (.inl ⟨ho, hr, by simp [he], by simp [he]⟩)
  · exact .inr (.inr ⟨ho, by simp [he], by simp [he]⟩)

theorem queued_trySend (c' : ConnId) :
    queued conns (conns.trySend c msg).2 c' =
      if c' = c ∧ (conns.trySend c msg).1 = .ok then [msg] else [] := by
  rcases trySend_cases conns c msg with ⟨ho, hr, hok⟩ | ⟨_, _, hf, he⟩ | ⟨_, hf, he⟩
  · by_cases hc : c' = c
    · subst hc
      rw [if_pos ⟨rfl, hok⟩]
      refine queued_of_eq ?_
      simpa [Conns.trySend] using (Channel.trySend_of_room ho hr msg).2
    · rw [if_neg (by simp [hc])]
      refine queued_of_eq ?_
      simp [Conns.trySend, hc]
  · rw [he, queued_self, hf, if_neg (by simp)]
  · rw [he, queued_self, hf, if_neg (by simp)]

theorem trySend_extends : Extends conns (conns.trySend c msg).2 := by
  refine ⟨?_, ?_, ?_⟩
  · intro c'
    by_cases hc : c' = c
    · subst hc; simp [Conns.trySend]
    · simp [Conns.trySend, hc]
  · intro c'
    by_cases hc : c' = c
    · subst hc; simp [Conns.trySend]
    · simp [Conns.trySend, hc]
  · intro c'
    rw [queued_trySend]
    rcases trySend_cases conns c msg with ⟨ho, hr, hok⟩ | ⟨_, _, hf, he⟩ | ⟨_, hf, he⟩
    · by_cases hc : c' = c
      · subst hc
        rw [if_pos ⟨rfl, hok⟩]
        simpa [Conns.trySend] using (Channel.trySend_of_room ho hr msg).2.symm
      · rw [if_neg (by simp [hc])]
        simp [Conns.trySend, hc]
    · rw [he, hf, if_neg (by simp), append_nil]
    · rw [he, hf, if_neg (by simp), append_nil]

theorem capacity_trySend (c' : ConnId) :
    ((conns.trySend c msg).2 c').out.capacity =
      if c' = c ∧ (conns.trySend c msg).1 = .ok then (conns c').out.capacity - 1
      else (conns c').out.capacity := by
  have hx := conns.trySend_extends c msg
  have hq := conns.queued_trySend c msg c'
  unfold Channel.capacity
  rw [hx.cap, ← hx.queue, hq]
  split_ifs
  · rw [length_append, length_singleton]
    omega
  · rw [append_nil]

end send
end Conns

structure Datum where
  bytes : Chunk
  offset : ℕ
  gapBefore : ℕ
deriving DecidableEq, Repr

def TapMsg.datumFor (id : ℕ) : TapMsg → Option Datum
  | .data tapId bytes offset gapBefore =>
    if tapId = id then some ⟨bytes, offset, gapBefore⟩ else none
  | .closed .. => none

def dataFor (id : ℕ) (ms : List TapMsg) : List Datum := ms.filterMap (TapMsg.datumFor id)

@[simp] theorem dataFor_nil (id : ℕ) : dataFor id [] = [] := rfl

@[simp] theorem dataFor_append (id : ℕ) (ms ms' : List TapMsg) :
    dataFor id (ms ++ ms') = dataFor id ms ++ dataFor id ms' :=
  filterMap_append

theorem dataFor_eq_nil {id : ℕ} {ms : List TapMsg} (h : ∀ m ∈ ms, m.tapId ≠ id) :
    dataFor id ms = [] := by
  rw [dataFor, filterMap_eq_nil_iff]
  intro m hm
  have := h m hm
  cases m with
  | data tapId bytes offset gap => exact if_neg this
  | closed => rfl

theorem dataFor_append_of_none {id : ℕ} (ms : List TapMsg) {ms' : List TapMsg}
    (h : ∀ m ∈ ms', m.datumFor id = none) : dataFor id (ms ++ ms') = dataFor id ms := by
  rw [dataFor_append, show dataFor id ms' = [] from filterMap_eq_nil_iff.mpr h, append_nil]

namespace TapHub

section fanOut
variable (chunk : Chunk) (offset gap : ℕ)

def offered (tap : Tap) : TrySend → Option Tap
  | .ok => some tap
  | .full => some { tap with dropped := tap.dropped + chunk.length }
  | .closed => none

theorem fanOut_cons (tap : Tap) (taps : List Tap) (conns : Conns) :
    fanOut chunk offset gap (tap :: taps) conns =
      ((offered chunk tap (conns.trySend tap.out (.data tap.id chunk offset gap)).1).toList ++
          (fanOut chunk offset gap taps (conns.trySend tap.out (.data tap.id chunk offset gap)).2).1,
        (fanOut chunk offset gap taps (conns.trySend tap.out (.data tap.id chunk offset gap)).2).2) := by
  rw [fanOut]
  cases h : (conns.trySend tap.out (.data tap.id chunk offset gap)).1 <;> simp [h, offered]

theorem fanOut_extends (taps : List Tap) (conns : Conns) :
    Conns.Extends conns (fanOut chunk offset gap taps conns).2 := by
  induction taps generalizing conns with
  | nil => exact .refl conns
  | cons tap taps ih =>
    rw [fanOut_cons]
    exact (conns.trySend_extends _ _).trans (ih _)

variable {taps : List Tap} {conns : Conns} {c : ConnId} {id : ℕ} {tap t' : Tap}

theorem mem_queued_fanOut {m : TapMsg}
    (h : m ∈ conns.queued (fanOut chunk offset gap taps conns).2 c) :
    ∃ t ∈ taps, t.out = c ∧ m = .data t.id chunk offset gap := by
  induction taps generalizing conns with
  | nil => rw [fanOut, Conns.queued_self] at h; cases h
  | cons tap taps ih =>
    rw [fanOut_cons, Conns.queued_trans (conns.trySend_extends _ _) (fanOut_extends _ _ _ _ _),
      Conns.queued_trySend, mem_append] at h
    rcases h with h | h
    · split_ifs at h with hc
      · exact ⟨tap, mem_cons_self, hc.1.symm, mem_singleton.mp h⟩
      · cases h
    · obtain ⟨t, ht, hrest⟩ := ih h
      exact ⟨t, mem_cons_of_mem _ ht, hrest⟩

theorem dataFor_queued_fanOut_eq_nil (c : ConnId) (h : id ∉ taps.map (·.id)) :
    dataFor id (conns.queued (fanOut chunk offset gap taps conns).2 c) = [] := by
  refine dataFor_eq_nil ?_
  intro m hm
  obtain ⟨t, ht, _, rfl⟩ := mem_queued_fanOut chunk offset gap hm
  rintro rfl
  exact h (mem_map_of_mem ht)

theorem fanOut_ids_sublist (taps : List Tap) (conns : Conns) :
    ((fanOut chunk offset gap taps conns).1.map (·.id)).Sublist (taps.map (·.id)) := by
  induction taps generalizing conns with
  | nil => exact .slnil
  | cons tap taps ih =>
    rw [fanOut_cons]
    cases (conns.trySend tap.out (.data tap.id chunk offset gap)).1 with
    | ok | full => exact (ih _).cons_cons _
    | closed => exact (ih _).cons _

theorem dataFor_queued_fanOut_head (conns : Conns) (h : tap.id ∉ taps.map (·.id)) :
    dataFor tap.id (conns.queued (fanOut chunk offset gap (tap :: taps) conns).2 tap.out) =
      if (conns.trySend tap.out (.data tap.id chunk offset gap)).1 = .ok
        then [⟨chunk, offset, gap⟩] else [] := by
  rw [fanOut_cons, Conns.queued_trans (conns.trySend_extends _ _) (fanOut_extends _ _ _ _ _),
    dataFor_append, dataFor_queued_fanOut_eq_nil chunk offset gap tap.out h, append_nil,
    Conns.queued_trySend]
  split_ifs with h1 h2 h2
  · simp [dataFor, TapMsg.datumFor]
  · exact absurd h1.2 h2
  · exact absurd ⟨rfl, h2⟩ h1
  · rfl

theorem dataFor_queued_fanOut_tail (taps : List Tap) (conns : Conns) (h : tap.id ≠ id)
    (c : ConnId) :
    dataFor id (conns.queued (fanOut chunk offset gap (tap :: taps) conns).2 c) =
      dataFor id ((conns.trySend tap.out (.data tap.id chunk offset gap)).2.queued
        (fanOut chunk offset gap taps
          (conns.trySend tap.out (.data tap.id chunk offset gap)).2).2 c) := by
  rw [fanOut_cons, Conns.queued_trans (conns.trySend_extends _ _) (fanOut_extends _ _ _ _ _),
    dataFor_append, Conns.queued_trySend]
  split_ifs
  · simp [dataFor, TapMsg.datumFor, h]
  · rfl

theorem mem_fanOut (ht : t' ∈ (fanOut chunk offset gap taps conns).1) :
    ∃ t ∈ taps, t'.id = t.id ∧ t'.out = t.out := by
  induction taps generalizing conns with
  | nil => cases ht
  | cons tap taps ih =>
    rw [fanOut_cons] at ht
    rcases mem_append.mp ht with ht | ht
    · refine ⟨tap, mem_cons_self, ?_⟩
      cases hs : (conns.trySend tap.out (.data tap.id chunk offset gap)).1 <;>
        simp [hs, offered] at ht <;> subst ht <;> exact ⟨rfl, rfl⟩
    · obtain ⟨t, hmem, h⟩ := ih ht
      exact ⟨t, mem_cons_of_mem _ hmem, h⟩

theorem fanOut_spec (hnd : (taps.map (·.id)).Nodup)
    (ht : t' ∈ (fanOut chunk offset gap taps conns).1) :
    ∃ t ∈ taps, t'.id = t.id ∧ t'.out = t.out ∧
      ((t'.dropped = t.dropped ∧
          dataFor t.id (conns.queued (fanOut chunk offset gap taps conns).2 t.out) =
            [⟨chunk, offset, gap⟩]) ∨
        (t'.dropped = t.dropped + chunk.length ∧
          dataFor t.id (conns.queued (fanOut chunk offset gap taps conns).2 t.out) = [])) := by
  induction taps generalizing conns with
  | nil => cases ht
  | cons tap taps ih =>
    rw [map_cons, nodup_cons] at hnd
    rw [fanOut_cons] at ht
    rcases mem_append.mp ht with ht | ht
    · refine ⟨tap, mem_cons_self, ?_⟩
      rw [dataFor_queued_fanOut_head chunk offset gap conns hnd.1]
      cases hs : (conns.trySend tap.out (.data tap.id chunk offset gap)).1 with
      | ok =>
        simp only [hs, offered, Option.toList_some, mem_singleton] at ht
        subst ht
        exact ⟨rfl, rfl, .inl ⟨rfl, rfl⟩⟩
      | full =>
        simp only [hs, offered, Option.toList_some, mem_singleton] at ht
        subst ht
        exact ⟨rfl, rfl, .inr ⟨rfl, rfl⟩⟩
      | closed => simp [hs, offered] at ht
    · obtain ⟨t, hmem, hid, hout, hrest⟩ := ih hnd.2 ht
      have hne : tap.id ≠ t.id := fun he => hnd.1 (he ▸ mem_map_of_mem hmem)
      refine ⟨t, mem_cons_of_mem _ hmem, hid, hout, ?_⟩
      rw [dataFor_queued_fanOut_tail chunk offset gap taps conns hne]
      exact hrest

theorem fanOut_sent_of_room (hnd : (taps.map (·.id)).Nodup)
    (hroom : ∀ c, (conns c).out.isOpen = true →
      taps.countP (fun t => t.out = c) ≤ (conns c).out.capacity)
    (ht : t' ∈ (fanOut chunk offset gap taps conns).1) :
    dataFor t'.id (conns.queued (fanOut chunk offset gap taps conns).2 t'.out) =
      [⟨chunk, offset, gap⟩] := by
  induction taps generalizing conns with
  | nil => cases ht
  | cons tap taps ih =>
    rw [map_cons, nodup_cons] at hnd
    rw [fanOut_cons] at ht
    rcases mem_append.mp ht with ht | ht
    · rcases Conns.trySend_cases conns tap.out (.data tap.id chunk offset gap) with
        ⟨_, _, hs⟩ | ⟨ho, hfull, _⟩ | ⟨_, hs, _⟩
      · simp only [hs, offered, Option.toList_some, mem_singleton] at ht
        subst ht
        rw [dataFor_queued_fanOut_head chunk offset gap conns hnd.1, hs, if_pos rfl]
      · have := hroom tap.out ho
        rw [countP_cons_of_pos (by simp), Channel.capacity, hfull, Nat.sub_self] at this
        omega
      · simp [hs, offered] at ht
    · obtain ⟨t, hmem, hid, _⟩ := mem_fanOut chunk offset gap ht
      have hne : tap.id ≠ t'.id := fun he => hnd.1 (he.trans hid ▸ mem_map_of_mem hmem)
      rw [dataFor_queued_fanOut_tail chunk offset gap taps conns hne]
      refine ih hnd.2 ?_ ht
      intro c ho
      rw [(conns.trySend_extends _ _).isOpen] at ho
      have hc := hroom c ho
      rw [countP_cons] at hc
      rw [Conns.capacity_trySend]
      by_cases hout : tap.out = c
      · simp only [hout, decide_true, if_true] at hc
        split_ifs <;> omega
      · rw [if_neg (fun h => hout h.1.symm)]
        simp only [hout, decide_false, Bool.false_eq_true, if_false] at hc
        omega

theorem fanOut_unsent_of_no_room (hnd : (taps.map (·.id)).Nodup) (ho : (conns c).out.isOpen = true)
    (hroom : (conns c).out.capacity < taps.countP (fun t => t.out = c)) :
    ∃ t' ∈ (fanOut chunk offset gap taps conns).1,
      dataFor t'.id (conns.queued (fanOut chunk offset gap taps conns).2 t'.out) = [] := by
  induction taps generalizing conns with
  | nil => simp at hroom
  | cons tap taps ih =>
    rw [map_cons, nodup_cons] at hnd
    set s := conns.trySend tap.out (.data tap.id chunk offset gap) with hs
    by_cases hfull : s.1 = .full
    · refine ⟨{ tap with dropped := tap.dropped + chunk.length }, ?_, ?_⟩
      · rw [fanOut_cons, ← hs, hfull]
        exact mem_append_left _ (mem_singleton_self _)
      · rw [dataFor_queued_fanOut_head chunk offset gap conns hnd.1, ← hs, hfull, if_neg (by simp)]
    · have hrest : (s.2 c).out.capacity < taps.countP (fun t => t.out = c) := by
        rw [countP_cons] at hroom
        rw [hs, Conns.capacity_trySend, ← hs]
        by_cases hout : tap.out = c
        · subst hout
          rcases Conns.trySend_cases conns tap.out (.data tap.id chunk offset gap) with
            ⟨_, hlt, hok⟩ | ⟨_, _, h, _⟩ | ⟨h, _⟩
          · rw [if_pos ⟨rfl, hok⟩]
            simp only [decide_true, if_true] at hroom
            unfold Channel.capacity at hroom ⊢
            omega
          · exact absurd h hfull
          · rw [ho] at h
            cases h
        · rw [if_neg (fun h => hout h.1.symm)]
          simpa [hout] using hroom
      obtain ⟨t', ht', hnil⟩ := ih hnd.2
        (by rw [(conns.trySend_extends _ _).isOpen]; exact ho) hrest
      obtain ⟨t, hmem, hid, _⟩ := mem_fanOut chunk offset gap ht'
      have hne : tap.id ≠ t'.id := fun he => hnd.1 (he.trans hid ▸ mem_map_of_mem hmem)
      refine ⟨t', ?_, ?_⟩
      · rw [fanOut_cons]
        exact mem_append_right _ ht'
      · rw [dataFor_queued_fanOut_tail chunk offset gap taps conns hne]
        exact hnil

end fanOut

section replay
variable (id : ℕ) (c : ConnId)

def pieceMsgs : List Chunk → ℕ → List TapMsg
  | [], _ => []
  | piece :: pieces, offset => .data id piece offset 0 :: pieceMsgs pieces (offset + piece.length)

theorem pieceMsgs_length (pieces : List Chunk) (offset : ℕ) :
    (pieceMsgs id pieces offset).length = pieces.length := by
  induction pieces generalizing offset with
  | nil => rfl
  | cons piece pieces ih => simp [pieceMsgs, ih]

theorem sendPieces_cons (piece : Chunk) (pieces : List Chunk) (offset dropped : ℕ) (conns : Conns) :
    (sendPieces id c (piece :: pieces) offset dropped conns).2.2 =
        (conns.trySend c (.data id piece offset 0)).2 ∨
      ∃ dropped', (sendPieces id c (piece :: pieces) offset dropped conns).2.2 =
        (sendPieces id c pieces (offset + piece.length) dropped'
          (conns.trySend c (.data id piece offset 0)).2).2.2 := by
  rw [sendPieces]
  split
  · next h => exact .inr ⟨dropped, by rw [h]⟩
  · next h => exact .inr ⟨dropped + piece.length, by rw [h]⟩
  · next h => exact .inl (by rw [h])

theorem sendPieces_queues (pieces : List Chunk) (offset dropped : ℕ) (conns : Conns) :
    conns.Extends (sendPieces id c pieces offset dropped conns).2.2 ∧
      ∀ c', ∀ m ∈ conns.queued (sendPieces id c pieces offset dropped conns).2.2 c',
        ∃ piece offset, m = .data id piece offset 0 := by
  induction pieces generalizing offset dropped conns with
  | nil =>
    refine ⟨.refl conns, fun c' m hm => ?_⟩
    rw [sendPieces, Conns.queued_self] at hm
    cases hm
  | cons piece pieces ih =>
    have hx := conns.trySend_extends c (.data id piece offset 0)
    have hq : ∀ c', ∀ m ∈ conns.queued (conns.trySend c (.data id piece offset 0)).2 c',
        ∃ piece offset, m = .data id piece offset 0 := by
      intro c' m hm
      rw [Conns.queued_trySend] at hm
      split_ifs at hm
      · exact ⟨piece, offset, mem_singleton.mp hm⟩
      · cases hm
    rcases sendPieces_cons id c piece pieces offset dropped conns with h | ⟨dropped', h⟩
    · rw [h]
      exact ⟨hx, hq⟩
    · rw [h]
      obtain ⟨hx', hq'⟩ := ih (offset + piece.length) dropped'
        (conns.trySend c (.data id piece offset 0)).2
      refine ⟨hx.trans hx', fun c' m hm => ?_⟩
      rw [Conns.queued_trans hx hx', mem_append] at hm
      rcases hm with hm | hm
      · exact hq c' m hm
      · exact hq' c' m hm

variable {conns : Conns}

theorem sendPieces_of_closed (ho : (conns c).out.isOpen = false) (pieces : List Chunk)
    (offset dropped : ℕ) : sendPieces id c pieces offset dropped conns = (0, dropped, conns) := by
  cases pieces with
  | nil => rfl
  | cons piece pieces =>
    have h : conns.trySend c (.data id piece offset 0) = (.closed, conns) := by
      rcases Conns.trySend_cases conns c (.data id piece offset 0) with ⟨h, _⟩ | ⟨h, _⟩ | ⟨_, h, he⟩
      · simp [ho] at h
      · simp [ho] at h
      · exact Prod.ext h he
    simp [sendPieces, h]

theorem sendPieces_spec (ho : (conns c).out.isOpen = true) {pieces : List Chunk}
    (hroom : pieces.length ≤ (conns c).out.capacity) (offset dropped : ℕ) :
    (sendPieces id c pieces offset dropped conns).1 = pieces.flatten.length ∧
      (sendPieces id c pieces offset dropped conns).2.1 = dropped ∧
      conns.Extends (sendPieces id c pieces offset dropped conns).2.2 ∧
      ∀ c', conns.queued (sendPieces id c pieces offset dropped conns).2.2 c' =
        if c' = c then pieceMsgs id pieces offset else [] := by
  induction pieces generalizing conns offset with
  | nil =>
    refine ⟨rfl, rfl, .refl conns, fun c' => ?_⟩
    rw [sendPieces, Conns.queued_self]
    split_ifs <;> rfl
  | cons piece pieces ih =>
    set s := conns.trySend c (.data id piece offset 0) with hs
    have hx : conns.Extends s.2 := conns.trySend_extends _ _
    have hok : s.1 = .ok := by
      rcases Conns.trySend_cases conns c (.data id piece offset 0) with ⟨_, _, h⟩ | ⟨_, h, _⟩ | ⟨h, _⟩
      · exact h
      · simp [Channel.capacity, h] at hroom
      · simp [ho] at h
    have hqs : ∀ c', conns.queued s.2 c' = if c' = c then [.data id piece offset 0] else [] := by
      intro c'
      rw [hs, Conns.queued_trySend, ← hs]
      simp [hok]
    have hlen : (s.2 c).out.queue.length = (conns c).out.queue.length + 1 := by
      rw [← hx.queue, hqs]
      simp
    have hroom' : pieces.length ≤ (s.2 c).out.capacity := by
      unfold Channel.capacity at hroom ⊢
      rw [hx.cap, hlen]
      rw [length_cons] at hroom
      omega
    obtain ⟨h1, h2, h3, h4⟩ := ih (show (s.2 c).out.isOpen = true by rwa [hx.isOpen]) hroom'
      (offset + piece.length)
    have hstep : sendPieces id c (piece :: pieces) offset dropped conns =
        (piece.length + (sendPieces id c pieces (offset + piece.length) dropped s.2).1,
          (sendPieces id c pieces (offset + piece.length) dropped s.2).2) := by
      rw [sendPieces, ← hs, show s = (.ok, s.2) from Prod.ext hok rfl]
    rw [hstep]
    refine ⟨by simp [h1], h2, hx.trans h3, fun c' => ?_⟩
    rw [Conns.queued_trans hx h3, hqs, h4]
    split_ifs <;> simp [pieceMsgs]

theorem sendPieces_not_full (ho : (conns c).out.isOpen = true) {pre post : List Chunk}
    {piece : Chunk} (hroom : (pre ++ piece :: post).length ≤ (conns c).out.capacity)
    (offset dropped : ℕ) (msg : TapMsg) :
    ((sendPieces id c pre offset dropped conns).2.2.trySend c msg).1 = .ok := by
  rw [length_append, length_cons] at hroom
  obtain ⟨_, _, hx, hq⟩ := sendPieces_spec id c ho
    (show pre.length ≤ (conns c).out.capacity by omega) offset dropped
  rcases Conns.trySend_cases (sendPieces id c pre offset dropped conns).2.2 c msg with
    ⟨_, _, h⟩ | ⟨_, h, _⟩ | ⟨h, _⟩
  · exact h
  · rw [hx.cap, ← hx.queue, hq, if_pos rfl, length_append, pieceMsgs_length] at h
    unfold Channel.capacity at hroom
    omega
  · rw [hx.isOpen, ho] at h
    cases h

theorem replay_pieces_fit {out : Channel TapMsg} {bytes : Chunk}
    (h : bytes.length ≤ replayBudget out) :
    (Chunks.chunks replayPiece bytes).length ≤ out.capacity := by
  refine Chunks.chunks_length_le (by decide) (h.trans ?_)
  unfold replayBudget saturatingMul
  exact min_le_left _ _

end replay

def retained (h : TapHub) (replay : Bool) : Chunk :=
  match replay, h.ring with
  | true, some ring => ring.snapshot
  | _, _ => []

def deliverable (h : TapHub) (out : Channel TapMsg) (replay : Bool) : ℕ :=
  min (h.retained replay).length (replayBudget out)

def replayPieces (h : TapHub) (out : Channel TapMsg) (replay : Bool) : List Chunk :=
  Chunks.chunks replayPiece (CircularBuffer.newest (h.deliverable out replay) (h.retained replay))

theorem register_eq (h : TapHub) (conns : Conns) (id : ℕ) (c : ConnId) (dropped : ℕ)
    (replay : Bool) :
    h.register conns id c dropped replay =
      let s := sendPieces id c (h.replayPieces (conns c).out replay)
        (h.ingested - h.deliverable (conns c).out replay) dropped conns
      (⟨s.1, (h.retained replay).length - h.deliverable (conns c).out replay,
          h.ingested - h.deliverable (conns c).out replay, h.epoch, h.feedDroppedSeen⟩,
        TapHub.refreshActive { h with taps := h.taps ++ [⟨id, c, none, s.2.1⟩] }, s.2.2) := by
  unfold register replayPieces deliverable retained
  cases replay with
  | false => rfl
  | true =>
    cases h.ring with
    | none | some => rfl

theorem closeTaps_extends (endpoint reason : String) (taps : List Tap) (conns : Conns) :
    conns.Extends (closeTaps endpoint reason taps conns) := by
  induction taps generalizing conns with
  | nil => exact .refl conns
  | cons tap taps ih =>
    rw [closeTaps, tellClosed]
    refine Conns.Extends.trans ?_ (ih _)
    have h := conns.trySend_extends tap.out (.closed tap.id endpoint reason)
    dsimp only
    split
    · exact h.lane _ _
    · exact h

theorem mem_queued_closeTaps {endpoint reason : String} {taps : List Tap} {conns : Conns}
    {c : ConnId} {m : TapMsg} (h : m ∈ conns.queued (closeTaps endpoint reason taps conns) c) :
    ∃ id, m = .closed id endpoint reason := by
  induction taps generalizing conns with
  | nil => rw [closeTaps, Conns.queued_self] at h; cases h
  | cons tap taps ih =>
    rw [closeTaps, tellClosed] at h
    dsimp only at h
    have hx := conns.trySend_extends tap.out (.closed tap.id endpoint reason)
    have hq := conns.queued_trySend tap.out (.closed tap.id endpoint reason) c
    have key : ∀ b : Conns, conns.Extends b → conns.queued b c =
        conns.queued (conns.trySend tap.out (.closed tap.id endpoint reason)).2 c →
        m ∈ conns.queued (closeTaps endpoint reason taps b) c →
        ∃ id, m = .closed id endpoint reason := by
      intro b hb he hm
      rw [Conns.queued_trans hb (closeTaps_extends _ _ _ _), he, hq, mem_append] at hm
      rcases hm with hm | hm
      · split_ifs at hm
        · exact ⟨tap.id, mem_singleton.mp hm⟩
        · cases hm
      · exact ih hm
    split at h
    · exact key _ (hx.lane _ _) (Conns.queued_lane _ _ _ _ _) h
    · exact key _ hx rfl h

end TapHub
end SerialNexus
