import SerialNexus.PtyReader

/-! # The ledger of a pty's reader

Every data byte read off the master is put into the channel of a host endpoint, charged to
`loss.targetward`, recorded as purged from a registered origin, or held; and this is so within each
session, so that nothing read before a handled close is delivered after it. -/

namespace SerialNexus

open List Function

namespace PtyEvent

def bytesRead : PtyEvent → ℕ
  | .read result _ => result.data.length
  | _ => 0

def bytesPut : PtyEvent → ℕ
  | .put _ chunk => chunk.length
  | _ => 0

def bytesLost : PtyEvent → ℕ
  | .lost n => n
  | _ => 0

def bytesPurged : PtyEvent → ℕ
  | .purged _ _ n => n
  | _ => 0

def payload : PtyEvent → Option Chunk
  | .read result _ => if result.data = [] then none else some result.data
  | _ => none

def delivery : PtyEvent → Option (ℕ × Chunk)
  | .put tx chunk => some (tx, chunk)
  | _ => none

def total (bytes : PtyEvent → ℕ) (σ : List PtyEvent) : ℕ := (σ.map bytes).sum

@[simp] theorem total_nil (bytes : PtyEvent → ℕ) : total bytes [] = 0 := rfl

@[simp] theorem total_append (bytes : PtyEvent → ℕ) (σ τ : List PtyEvent) :
    total bytes (σ ++ τ) = total bytes σ + total bytes τ := by
  rw [total, map_append, sum_append]
  rfl

@[simp] theorem total_singleton (bytes : PtyEvent → ℕ) (e : PtyEvent) : total bytes [e] = bytes e :=
  Nat.add_zero _

def payloads (σ : List PtyEvent) : List Chunk := σ.filterMap payload

def handed (σ : List PtyEvent) : List (ℕ × Chunk) := σ.filterMap delivery

@[simp] theorem payloads_append (σ τ : List PtyEvent) : payloads (σ ++ τ) = payloads σ ++ payloads τ :=
  filterMap_append

@[simp] theorem handed_append (σ τ : List PtyEvent) : handed (σ ++ τ) = handed σ ++ handed τ :=
  filterMap_append

theorem total_bytesPut (σ : List PtyEvent) :
    total bytesPut σ = ((handed σ).map fun put => put.2.length).sum := by
  induction σ with
  | nil => rfl
  | cons e σ ih =>
    rw [← singleton_append, total_append, handed_append, map_append, sum_append, ih]
    cases e <;> rfl

theorem length_payloads_read (result : MasterRead) (held : Option Chunk) :
    (payloads [.read result held]).flatten.length = result.data.length := by
  simp only [payloads, payload, filterMap_cons, filterMap_nil]
  by_cases hd : result.data = [] <;> simp [hd]

structure Settled (σ : List PtyEvent) : Prop where
  balance : total bytesRead σ = total bytesPut σ + total bytesLost σ + total bytesPurged σ
  order : ((handed σ).map Prod.snd).Sublist (payloads σ)

end PtyEvent

open PtyEvent

namespace PtyReader

structure Ledger (origin : Option WritableOrigin) (hand : List Chunk) (n : ℕ) (s : PtyReader) :
    Prop where
  edge : s.up.edge.origin = origin
  registered : ∀ o, origin = some o → ((s.lockOf o).writeMode o.id).isSome
  targetward : s.targetward = total bytesLost s.log % u64Size
  sent : s.up.sent = handed s.log
  past : ∀ σ ∈ s.past, Settled σ
  balance : total bytesRead s.session =
    total bytesPut s.session + total bytesLost s.session + total bytesPurged s.session +
      (hand ++ s.pending.toList).flatten.length + n
  order : ((handed s.session).map Prod.snd ++ (hand ++ s.pending.toList)).Sublist
    (payloads s.session)
  alone : ∀ result held, PtyEvent.read result held ∈ s.log → held = none

variable {origin : Option WritableOrigin} {hand : List Chunk} {n : ℕ} {s s' : PtyReader}

@[simp] theorem log_event (s : PtyReader) (e : PtyEvent) : (s.event e).log = s.log ++ [e] :=
  (append_assoc _ _ _).symm

/-! ### Rules -/

theorem Ledger.of_eq (h : Ledger origin hand n s) (hedge : s'.up.edge = s.up.edge)
    (hlock : ∀ o, (s'.lockOf o).writeMode = (s.lockOf o).writeMode) (hsent : s'.up.sent = s.up.sent)
    (htargetward : s'.targetward = s.targetward) (hpending : s'.pending = s.pending)
    (hsession : s'.session = s.session) (hpast : s'.past = s.past) : Ledger origin hand n s' := by
  have hlog : s'.log = s.log := by rw [log, log, hpast, hsession]
  constructor
  · rw [hedge, h.edge]
  · intro o ho
    rw [hlock]
    exact h.registered o ho
  · rw [htargetward, hlog, h.targetward]
  · rw [hsent, hlog, h.sent]
  · rw [hpast]
    exact h.past
  · rw [hsession, hpending, h.balance]
  · rw [hsession, hpending]
    exact h.order
  · rw [hlog]
    exact h.alone

variable {l : EndpointLock} {m : ℕ} {chunk : Chunk} {o : WritableOrigin} {up : Upstream}

theorem lockOf_withLock (s : PtyReader) (lock : LockRef)
    (hl : l.writeMode = (s.up.locks lock).lock.writeMode) (o : WritableOrigin) :
    ((s.withLock lock l).lockOf o).writeMode = (s.lockOf o).writeMode := by
  unfold lockOf withLock
  dsimp only
  by_cases ho : o.lock = lock
  · rw [ho, update_self, hl]
  · rw [update_of_ne ho]

theorem Ledger.withLock (h : Ledger origin hand n s) {lock : LockRef}
    (hl : l.writeMode = (s.up.locks lock).lock.writeMode) :
    Ledger origin hand n (s.withLock lock l) :=
  h.of_eq rfl (s.lockOf_withLock lock hl) rfl rfl rfl rfl rfl

theorem Ledger.record (h : Ledger origin hand n s) {e : PtyEvent} {hand' : List Chunk} {n' : ℕ}
    (hedge : s'.up.edge = s.up.edge) (hlock : ∀ o, (s'.lockOf o).writeMode = (s.lockOf o).writeMode)
    (hsent : s'.up.sent = s.up.sent ++ handed [e])
    (htargetward : s'.targetward = (total bytesLost s.log + bytesLost e) % u64Size)
    (hpending : s'.pending = s.pending)
    (hsession : s'.session = s.session ++ [e]) (hpast : s'.past = s.past)
    (hbytes : hand.flatten.length + n + bytesRead e =
      bytesPut e + bytesLost e + bytesPurged e + hand'.flatten.length + n')
    (horder : ((handed [e]).map Prod.snd ++ (hand' ++ s.pending.toList)).Sublist
      (hand ++ s.pending.toList ++ payloads [e]))
    (halone : ∀ result held, e = .read result held → held = none) : Ledger origin hand' n' s' := by
  have hlog : s'.log = s.log ++ [e] := by rw [log, log, hpast, hsession, append_assoc]
  constructor
  · rw [hedge, h.edge]
  · intro o ho
    rw [hlock]
    exact h.registered o ho
  · rw [htargetward, hlog, total_append, total_singleton]
  · rw [hsent, hlog, h.sent, handed_append]
  · rw [hpast]
    exact h.past
  · have hbalance := h.balance
    rw [hsession, hpending]
    simp only [total_append, total_singleton, flatten_append, length_append] at hbalance ⊢
    omega
  · have hall := h.order.append (List.Sublist.refl (payloads [e]))
    rw [hsession, hpending, handed_append, payloads_append, map_append, append_assoc]
    rw [append_assoc] at hall
    exact ((List.Sublist.refl _).append horder).trans hall
  · intro result held hr
    rw [hlog, mem_append, mem_singleton] at hr
    rcases hr with hr | rfl
    · exact h.alone result held hr
    · exact halone result held rfl

theorem Ledger.read (h : Ledger origin [] n s) (hp : s.pending = none) (result : MasterRead) :
    Ledger origin (payloads [.read result none]) n (s.event (.read result s.pending)) := by
  rw [hp]
  refine h.record (e := .read result none) rfl (fun _ => rfl) (append_nil _).symm h.targetward rfl
    rfl rfl ?_ ?_ ?_
  · simp only [length_payloads_read, bytesRead, bytesPut, bytesLost, bytesPurged, flatten_nil,
      length_nil]
    omega
  · rw [hp]
    exact (append_nil _) ▸ List.Sublist.refl _
  · intro _ _ he
    exact (PtyEvent.read.inj he).2.symm

theorem Ledger.count (h : Ledger origin hand n s) :
    Ledger origin [] (hand.flatten.length + n) s := by
  refine { h with balance := ?_, order := ?_ }
  · have hbalance := h.balance
    simp only [flatten_append, length_append, nil_append] at hbalance ⊢
    omega
  · refine List.Sublist.trans ?_ h.order
    exact (List.Sublist.refl _).append (List.sublist_append_right hand _)

theorem Ledger.lose (h : Ledger origin hand (m + n) s) : Ledger origin hand n (s.lose m) := by
  have hlost : (s.lose m).targetward = (total bytesLost s.log + m) % u64Size :=
    (congrArg (wrappingAdd · m) h.targetward).trans (wrappingAdd_mod _ _)
  refine h.record (e := .lost m) rfl (fun _ => rfl) (append_nil _).symm hlost rfl rfl rfl ?_ ?_ nofun
  · simp only [bytesRead, bytesPut, bytesLost, bytesPurged]
    omega
  · exact List.sublist_append_left _ _

theorem Ledger.loseHand (h : Ledger origin [chunk] n s) :
    Ledger origin [] n (s.lose chunk.length) := by
  have hcount := h.count
  rw [flatten_singleton] at hcount
  exact hcount.lose

theorem Ledger.recordPurge (h : Ledger (some o) hand (m + n) s) :
    Ledger (some o) hand n (s.recordPurge o m) := by
  have hlock := s.lockOf_withLock o.lock ((s.lockOf o).recordPurge_writeMode o.id m)
  unfold PtyReader.recordPurge
  rw [if_pos (h.registered o rfl)]
  refine h.record (e := .purged o.lock o.id m) rfl hlock (append_nil _).symm h.targetward rfl rfl rfl
    ?_ ?_ nofun
  · simp only [bytesRead, bytesPut, bytesLost, bytesPurged]
    omega
  · exact List.sublist_append_left _ _

theorem Ledger.take (h : Ledger origin [] n s) (hp : s.pending = some chunk) :
    Ledger origin [chunk] n { s with pending := none } := by
  have hbalance := h.balance
  have horder := h.order
  rw [hp] at hbalance horder
  exact ⟨h.edge, h.registered, h.targetward, h.sent, h.past, hbalance, horder, h.alone⟩

theorem Ledger.hold (h : Ledger origin [chunk] n s) (hp : s.pending = none) :
    Ledger origin [] n { s with pending := some chunk } := by
  have hbalance := h.balance
  have horder := h.order
  rw [hp] at hbalance horder
  exact ⟨h.edge, h.registered, h.targetward, h.sent, h.past, hbalance, horder, h.alone⟩

theorem Ledger.tryForwardTargetward (h : Ledger origin [chunk] n s) (o : WritableOrigin)
    (room : Bool) :
    ∃ s', s'.pending = s.pending ∧
      (s.tryForwardTargetward o chunk room = (.taken, s') ∧ Ledger origin [] n s' ∨
        s.tryForwardTargetward o chunk room = (.full chunk, s') ∧ Ledger origin [chunk] n s' ∨
        s.tryForwardTargetward o chunk room = (.lost, s') ∧ Ledger origin [] n s') := by
  unfold PtyReader.tryForwardTargetward
  rcases s.up.send_cases o.tx chunk room with ⟨queue, hsend⟩ | hsend | hsend
  · rw [hsend]
    refine ⟨_, ?_, .inl ⟨rfl, ?_⟩⟩
    · rfl
    refine h.record (e := .put o.tx chunk) rfl (fun _ => rfl) rfl h.targetward rfl rfl rfl ?_ ?_ nofun
    · simp only [bytesRead, bytesPut, bytesLost, bytesPurged, flatten_singleton,
        flatten_nil, length_nil]
      omega
    · exact (append_nil _).symm ▸ List.Sublist.refl _
  · rw [hsend]
    exact ⟨_, rfl, .inr (.inl ⟨rfl, h⟩)⟩
  · rw [hsend]
    refine ⟨_, ?_, .inr (.inr ⟨rfl, h.loseHand⟩)⟩
    rfl

theorem mayWriteReclaiming_writeMode (l : EndpointLock) (id : OriginId) :
    (mayWriteReclaiming l id).2.writeMode = l.writeMode := by
  unfold mayWriteReclaiming
  split
  · rfl
  · exact l.apply_writeMode (.reclaimHeld id)

theorem Ledger.gate (h : Ledger origin hand n s) : Ledger origin hand n (s.gate origin).2 := by
  cases origin with
  | none => exact h
  | some o => exact h.withLock (mayWriteReclaiming_writeMode _ _)

theorem Ledger.retry (h : Ledger origin [] n s) (room : Bool) :
    Ledger origin [] n (s.retry origin room) := by
  unfold PtyReader.retry
  split
  · exact h
  · next chunk hp =>
    have htaken := h.take hp
    cases origin with
    | none => exact htaken.loseHand
    | some o =>
      obtain ⟨s', hpending, ⟨hs, hl⟩ | ⟨hs, hl⟩ | ⟨hs, hl⟩⟩ := htaken.tryForwardTargetward o room
      · simpa only [hs] using hl
      · simpa only [hs] using hl.hold hpending
      · simpa only [hs] using hl

theorem Ledger.reconcileTermios (h : Ledger origin hand n s) (termios : Option ClientTermios) :
    Ledger origin hand n (s.reconcileTermios termios) := by
  cases termios with
  | none => exact h
  | some t => exact h.of_eq rfl (fun _ => rfl) rfl rfl rfl rfl rfl

theorem payloads_packet (control : UInt8) (payload : Chunk) :
    payloads [.read (.packet control payload) none] =
      if control = tiocpktData ∧ payload ≠ [] then [payload] else [] := by
  simp only [payloads, PtyEvent.payload, MasterRead.data, filterMap_cons, filterMap_nil]
  by_cases hdata : control = tiocpktData
  · by_cases hempty : payload = [] <;> simp [hdata, hempty]
  · simp [hdata]

theorem Ledger.packet {control : UInt8} {payload : Chunk}
    (h : Ledger origin (payloads [.read (.packet control payload) none]) n s) (hp : s.pending = none)
    (now : Bool) (termios : Option ClientTermios) (room : Bool) :
    Ledger origin [] n (s.packet origin now termios control payload room).2 ∧
      ((s.packet origin now termios control payload room).1 = true →
        (s.packet origin now termios control payload room).2.pending = none) := by
  replace h : Ledger origin (payloads [.read (.packet control payload) none]) n
      { s with sawSession := true } := h.of_eq rfl (fun _ => rfl) rfl rfl rfl rfl rfl
  rw [payloads_packet] at h
  unfold PtyReader.packet
  by_cases hdata : control = tiocpktData
  · by_cases hempty : payload = []
    · rw [if_neg (by simp [hempty])] at h
      rw [if_pos hdata, if_pos hempty]
      exact ⟨h, fun _ => hp⟩
    · rw [if_pos ⟨hdata, hempty⟩] at h
      rw [if_pos hdata, if_neg hempty]
      cases origin with
      | none => exact ⟨h.loseHand, fun _ => hp⟩
      | some o =>
        obtain ⟨s', hpending, ⟨hs, hl⟩ | ⟨hs, hl⟩ | ⟨hs, hl⟩⟩ := h.tryForwardTargetward o room
        · simp only [hs]
          exact ⟨hl, fun _ => hpending.trans hp⟩
        · simp only [hs]
          exact ⟨hl.hold (hpending.trans hp), nofun⟩
        · simp only [hs]
          exact ⟨hl, nofun⟩
  · rw [if_neg (by simp [hdata])] at h
    rw [if_neg hdata]
    split
    · refine ⟨h.reconcileTermios termios, fun _ => ?_⟩
      cases termios <;> exact hp
    · exact ⟨h, fun _ => hp⟩

theorem Ledger.readEnd (h : Ledger origin [] n s) (hp : s.pending = none) {result : MasterRead}
    (hend : result.data = []) : Ledger origin [] n (s.event (.read result s.pending)) := by
  have hread := h.read hp result
  simpa only [payloads, PtyEvent.payload, hend, if_true, filterMap_cons, filterMap_nil]
    using hread

-- by induction on the reads; between two of them nothing is held
theorem Ledger.drain (h : Ledger origin [] n s) (hp : s.pending = none) (now : Bool)
    (termios : Option ClientTermios) (reads : List (MasterRead × Bool)) :
    Ledger origin [] n (drain origin now termios reads s).2.2 := by
  induction reads generalizing s with
  | nil => exact h.readEnd hp rfl
  | cons r rest ih =>
    obtain ⟨result, room⟩ := r
    unfold PtyReader.drain
    cases result with
    | packet control payload =>
      have hpacket := (h.read hp (.packet control payload)).packet hp now termios room
      dsimp only
      split
      · next s' hs =>
        rw [hs] at hpacket
        exact ih hpacket.1 (hpacket.2 rfl)
      · next s' hs =>
        rw [hs] at hpacket
        exact hpacket.1
    | eof | wouldBlock | eio | failed => exact h.readEnd hp rfl

theorem Ledger.drainAndDiscard (h : Ledger origin [] n s) (hp : s.pending = none)
    (reads : List (MasterRead × Bool)) :
    Ledger origin [] ((drainAndDiscard reads s).1 + n) (drainAndDiscard reads s).2.2 ∧
      (drainAndDiscard reads s).2.2.pending = none := by
  induction reads generalizing s n with
  | nil =>
    have hend : Ledger origin [] n (s.event (.read .wouldBlock s.pending)) := h.readEnd hp rfl
    exact ⟨(Nat.zero_add n).symm ▸ hend, hp⟩
  | cons r rest ih =>
    obtain ⟨result, room⟩ := r
    cases result with
    | packet control payload =>
      have hcount := (h.read hp (.packet control payload)).count
      rw [length_payloads_read] at hcount
      obtain ⟨hl, hnone⟩ := ih hcount hp
      refine ⟨?_, hnone⟩
      rw [← Nat.add_assoc, Nat.add_comm _ (MasterRead.data _).length] at hl
      exact hl
    | eof | wouldBlock | eio | failed =>
      exact ⟨(Nat.zero_add n).symm ▸ h.readEnd hp rfl, hp⟩

theorem Ledger.offer (h : Ledger origin [] n s) (room : Bool) :
    Ledger origin [] ((s.offer origin room).1 + n) (s.offer origin room).2 ∧
      (s.offer origin room).2.pending = none := by
  unfold PtyReader.offer
  split
  · next hp => exact ⟨(Nat.zero_add n).symm ▸ h, hp⟩
  · next chunk hp =>
    have htaken := h.take hp
    cases origin with
    | none => exact ⟨(Nat.zero_add n).symm ▸ htaken.loseHand, rfl⟩
    | some o =>
      obtain ⟨s', hpending, ⟨hs, hl⟩ | ⟨hs, hl⟩ | ⟨hs, hl⟩⟩ := htaken.tryForwardTargetward o room
      · simp only [hs]
        exact ⟨(Nat.zero_add n).symm ▸ hl, hpending⟩
      · have hcount := hl.count
        rw [flatten_singleton] at hcount
        simp only [hs]
        exact ⟨hcount, hpending⟩
      · simp only [hs]
        exact ⟨(Nat.zero_add n).symm ▸ hl, hpending⟩

@[simp] theorem recordPurge_pending (s : PtyReader) (o : WritableOrigin) (m : ℕ) :
    (s.recordPurge o m).pending = s.pending := by
  unfold PtyReader.recordPurge
  split <;> rfl

theorem Ledger.handleLastClose (h : Ledger origin [] n s) (hp : s.pending = none) (flushed : ℕ)
    (reads : List (MasterRead × Bool)) :
    Ledger origin [] n (s.handleLastClose origin flushed reads).2 ∧
      (s.handleLastClose origin flushed reads).2.pending = none := by
  replace h : Ledger origin [] n
      { s with atLastClose := wrappingAdd s.atLastClose flushed, clientTermios := none } :=
    h.of_eq rfl (fun _ => rfl) rfl rfl rfl rfl rfl
  unfold PtyReader.handleLastClose
  cases origin with
  | none => exact ⟨h, hp⟩
  | some o =>
    dsimp only
    split
    · exact ⟨h.withLock (EndpointLock.apply_writeMode _ (.release o.id)), hp⟩
    · split
      · obtain ⟨hl, hnone⟩ := h.drainAndDiscard hp reads
        split
        · exact ⟨hl.recordPurge, (recordPurge_pending _ _ _).trans hnone⟩
        · next hzero =>
          rw [Nat.eq_zero_of_not_pos hzero, Nat.zero_add] at hl
          exact ⟨hl, hnone⟩
      · exact ⟨h, hp⟩

theorem Ledger.residual (h : Ledger origin [] n s) (hp : s.pending = none) (may : Bool)
    (reads : List (MasterRead × Bool)) :
    Ledger origin [] ((s.residual may reads).1 + n) (s.residual may reads).2 ∧
      (s.residual may reads).2.pending = none := by
  unfold PtyReader.residual
  cases may with
  | true => exact h.drainAndDiscard hp reads
  | false => exact ⟨(Nat.zero_add n).symm ▸ h, hp⟩

theorem Ledger.recordDetachPurge (h : Ledger origin [] n s) (hp : s.pending = none) :
    Ledger origin [] 0 (s.recordDetachPurge n origin) ∧
      (s.recordDetachPurge n origin).pending = none := by
  unfold PtyReader.recordDetachPurge
  split
  · next hzero => exact ⟨hzero ▸ h, hp⟩
  · cases origin with
    | none => exact ⟨Ledger.lose (n := 0) h, hp⟩
    | some o => exact ⟨Ledger.recordPurge (n := 0) h, (recordPurge_pending _ _ _).trans hp⟩

theorem Ledger.settled (h : Ledger origin [] 0 s) (hp : s.pending = none) : Settled s.session := by
  have hbalance := h.balance
  have horder := h.order
  rw [hp] at hbalance horder
  exact ⟨hbalance, by simpa using horder⟩

theorem Ledger.archive (h : Ledger origin [] 0 s) (hp : s.pending = none) :
    Ledger origin [] 0 { s with past := s.past ++ [s.session], session := [] } := by
  have hlog : ({ s with past := s.past ++ [s.session], session := [] } : PtyReader).log = s.log := by
    simp [log]
  refine ⟨h.edge, h.registered, ?_, ?_, ?_, ?_, ?_, ?_⟩
  · rw [hlog]
    exact h.targetward
  · rw [hlog]
    exact h.sent
  · intro σ hσ
    rcases mem_append.mp hσ with hσ | hσ
    · exact h.past σ hσ
    · exact mem_singleton.mp hσ ▸ h.settled hp
  · simp [hp]
  · simp [hp, handed, payloads]
  · rw [hlog]
    exact h.alone

theorem Ledger.close (h : Ledger origin [] 0 s) (may : Bool) (p : PtyPass)
    (reads : List (MasterRead × Bool)) :
    Ledger origin [] 0 (s.close origin may p reads) ∧
      (s.close origin may p reads).pending = none := by
  unfold PtyReader.close
  obtain ⟨hoffer, hnone⟩ := h.offer p.offerRoom
  obtain ⟨hclose, hnone⟩ := hoffer.handleLastClose hnone p.flushed reads
  have hsaw : Ledger origin [] _ { ((s.offer origin p.offerRoom).2.handleLastClose origin p.flushed
      reads).2 with sawSession := false } := hclose.of_eq rfl (fun _ => rfl) rfl rfl rfl rfl rfl
  obtain ⟨hresidual, hnone⟩ := hsaw.residual hnone may
    ((s.offer origin p.offerRoom).2.handleLastClose origin p.flushed reads).1
  rw [Nat.add_zero, Nat.add_comm] at hresidual
  obtain ⟨hrecord, hnone⟩ := hresidual.recordDetachPurge hnone
  exact ⟨hrecord.archive hnone, hnone⟩

theorem Ledger.park (h : Ledger origin [] n s) : Ledger origin [] n (s.park origin) := by
  unfold PtyReader.park
  cases hp : s.pending with
  | none => exact h
  | some chunk =>
    cases origin with
    | none => exact (h.take hp).loseHand
    | some o => exact h.of_eq rfl (fun _ => rfl) rfl rfl hp.symm rfl rfl

theorem Ledger.data (h : Ledger origin [] n s) (p : PtyPass) :
    Ledger origin [] n (s.data origin p).2.2.2 := by
  have hretry := h.gate.retry p.retryRoom
  unfold PtyReader.data
  dsimp only
  split
  · next hdrain => exact hretry.drain hdrain.1 _ _ _
  · exact hretry

theorem Ledger.backstop (h : Ledger origin [] n s) (p : PtyPass) :
    Ledger origin [] n (s.backstop p) := by
  unfold PtyReader.backstop
  split
  · exact h.reconcileTermios p.termios
  · exact h

theorem Ledger.lifecycle (h : Ledger origin [] 0 s) (p : PtyPass) (may closed : Bool)
    (reads : List (MasterRead × Bool)) :
    Ledger origin [] 0 (s.lifecycle origin p may closed reads) := by
  have hseen : Ledger origin [] 0 (s.seen p closed) :=
    h.of_eq rfl (fun _ => rfl) rfl rfl rfl rfl rfl
  unfold PtyReader.lifecycle
  split
  · exact (hseen.close may p reads).1.backstop p
  · exact hseen.backstop p

theorem Ledger.pass (h : Ledger s.up.edge.origin [] 0 s) (p : PtyPass) :
    Ledger s.up.edge.origin [] 0 (s.pass p) :=
  ((h.data p).lifecycle p _ _ _).park

theorem Ledger.settle (h : Ledger origin [] 0 s) (room expired : Bool) :
    Ledger origin [] 0 (s.settle room expired) := by
  unfold PtyReader.settle
  split
  · next o chunk _ hp =>
    have htaken : Ledger origin [chunk] 0 { s with parked := none, pending := none } :=
      (h.take hp).of_eq rfl (fun _ => rfl) rfl rfl rfl rfl rfl
    obtain ⟨s', hpending, ⟨hs, hl⟩ | ⟨hs, hl⟩ | ⟨hs, hl⟩⟩ := htaken.tryForwardTargetward o room
    · simpa only [hs] using hl
    · simp only [hs]
      exact (hl.hold hpending).of_eq rfl (fun _ => rfl) rfl rfl rfl rfl rfl
    · simpa only [hs] using hl
  · exact h

/-! ### Runs -/

theorem modes_isSome {modes : OriginId → Option WriteMode} {id : OriginId} {op : EndpointLock.Op}
    (hop : op.unregisters id = false) (h : (modes id).isSome) : (op.modes modes id).isSome := by
  cases op with
  | register id' label mode =>
    simp only [EndpointLock.Op.modes, update_apply]
    split
    · rfl
    · exact h
  | unregister id' =>
    have hne : id ≠ id' := fun he => by simp [EndpointLock.Op.unregisters, he] at hop
    simp only [EndpointLock.Op.modes, update_of_ne hne]
    exact h
  | acquire _ | enqueue _ | dequeue _ | steal _ | reclaimHeld _ | release _ | renew _
  | recordPurge _ _ => exact h

theorem bound_step {u : Upstream} {a : UpstreamAct} (hu : u.bound = true)
    (ha : u.orderly a = true) : (u.step a).bound = true := by
  cases a with
  | setEdge edge => exact ha
  | lockOp lock op =>
    simp only [Upstream.bound, Upstream.orderly, Upstream.step, Option.all_eq_true] at hu ha ⊢
    intro o ho
    by_cases hlock : o.lock = lock
    · subst hlock
      rw [update_self, EndpointLock.apply_writeMode]
      exact modes_isSome (by simpa using ha o ho) (hu o ho)
    · rw [update_of_ne hlock]
      exact hu o ho
  | closeLock lock =>
    simp only [Upstream.bound, Upstream.step, Option.all_eq_true] at hu ⊢
    intro o ho
    by_cases hlock : o.lock = lock
    · subst hlock
      rw [update_self]
      exact hu o ho
    · rw [update_of_ne hlock]
      exact hu o ho
  | put | receive | hangUp => exact hu

def Sound (s : PtyReader) : Prop := Ledger s.up.edge.origin [] 0 s

theorem Ledger.sound (h : Ledger origin [] 0 s) : Sound s := by
  unfold Sound
  rw [h.edge]
  exact h

theorem sound_initial (hup : up.bound = true) : Sound (initial up) where
  edge := rfl
  registered := (Option.all_eq_true _ _).mp hup
  targetward := rfl
  sent := rfl
  past σ hσ := by cases hσ
  balance := rfl
  order := .slnil
  alone result held h := by cases h

theorem Sound.other (h : Sound s) (hup : up.bound = true) (hsent : up.sent = s.up.sent) :
    Sound { s with up } where
  edge := rfl
  registered := (Option.all_eq_true _ _).mp hup
  targetward := h.targetward
  sent := hsent.trans h.sent
  past := h.past
  balance := h.balance
  order := h.order
  alone := h.alone

theorem sound_step {a : PtyAct} (h : Sound s) (ha : s.ok a = true) : Sound (s.step a) := by
  cases a with
  | pass p => exact (Ledger.pass h p).sound
  | settle room expired => exact (Ledger.settle h room expired).sound
  | other a =>
    have hbound : s.up.bound = true := (Option.all_eq_true _ _).mpr h.registered
    exact h.other (bound_step hbound ha) (s.up.step_sent a)

def Released (o : WritableOrigin) (s : PtyReader) : Prop :=
  (s.lockOf o).holder = some o.id → (s.lockOf o).writeMode o.id = some .held

theorem Released.of_up (h : Released o s) (hup : s'.up = s.up) : Released o s' := by
  unfold Released lockOf at h ⊢
  rwa [hup]

theorem lockOf_withLock_self (s : PtyReader) (o : WritableOrigin) (l : EndpointLock) :
    (s.withLock o.lock l).lockOf o = l := by
  unfold lockOf withLock
  dsimp only
  rw [update_self]

theorem drainAndDiscard_up (reads : List (MasterRead × Bool)) (s : PtyReader) :
    (drainAndDiscard reads s).2.2.up = s.up := by
  induction reads generalizing s with
  | nil => rfl
  | cons r rest ih =>
    obtain ⟨result, room⟩ := r
    cases result with
    | packet control payload => exact ih _
    | eof | wouldBlock | eio | failed => rfl

theorem Released.recordPurge (h : Released o s) (n : ℕ) : Released o (s.recordPurge o n) := by
  have hlock : Released o (s.withLock o.lock ((s.lockOf o).recordPurge o.id n)) := by
    unfold Released
    rw [lockOf_withLock_self, EndpointLock.recordPurge_writeMode]
    exact h
  unfold PtyReader.recordPurge
  split
  · exact hlock.of_up rfl
  · exact hlock

theorem handleLastClose_released (s : PtyReader) (o : WritableOrigin) (flushed : ℕ)
    (reads : List (MasterRead × Bool)) : Released o (s.handleLastClose (some o) flushed reads).2 := by
  unfold PtyReader.handleLastClose
  dsimp only
  split
  · next hheld =>
    unfold Released
    rw [lockOf_withLock_self, EndpointLock.release, if_pos hheld.1]
    intro h
    cases h
  · next hheld =>
    have hrel : Released o
        { s with atLastClose := wrappingAdd s.atLastClose flushed, clientTermios := none } := by
      intro hholder
      by_contra hmode
      exact hheld ⟨hholder, hmode⟩
    split
    · have hdrained := hrel.of_up (drainAndDiscard_up reads _)
      split
      · exact hdrained.recordPurge _
      · exact hdrained
    · exact hrel

theorem close_released (s : PtyReader) (o : WritableOrigin) (may : Bool) (p : PtyPass)
    (reads : List (MasterRead × Bool)) : Released o (s.close (some o) may p reads) := by
  have hclose := handleLastClose_released (s.offer (some o) p.offerRoom).2 o p.flushed reads
  unfold PtyReader.close
  dsimp only
  generalize (s.offer (some o) p.offerRoom).2.handleLastClose (some o) p.flushed reads = closed
    at hclose ⊢
  have hresidual : Released o (({ closed.2 with sawSession := false } : PtyReader).residual may
      closed.1).2 := by
    unfold PtyReader.residual
    cases may with
    | true => exact hclose.of_up (drainAndDiscard_up _ _)
    | false => exact hclose.of_up rfl
  refine Released.of_up (s := PtyReader.recordDetachPurge _ _ _) ?_ rfl
  unfold PtyReader.recordDetachPurge
  split
  · exact hresidual
  · exact hresidual.recordPurge _

theorem backstop_frame (s : PtyReader) (p : PtyPass) :
    (s.backstop p).up = s.up ∧ (s.backstop p).pending = s.pending ∧
      (s.backstop p).session = s.session := by
  unfold PtyReader.backstop PtyReader.reconcileTermios
  split
  · cases p.termios <;> exact ⟨rfl, rfl, rfl⟩
  · exact ⟨rfl, rfl, rfl⟩

theorem park_of_none (hp : s.pending = none) (origin : Option WritableOrigin) :
    s.park origin = s := by
  unfold PtyReader.park
  rw [hp]

theorem Sound.pass_close (h : Sound s) {p : PtyPass} (hclose : s.handlesClose p = true) :
    (s.pass p).pending = none ∧ (s.pass p).session = [] ∧
      ∀ o, (s.pass p).up.edge.origin = some o → Released o (s.pass p) := by
  have hdata := Ledger.data h p
  unfold PtyReader.pass
  unfold handlesClose at hclose
  dsimp only at hclose ⊢
  generalize s.data s.up.edge.origin p = r at hclose hdata ⊢
  obtain ⟨may, closed, reads, s'⟩ := r
  dsimp only at hclose hdata ⊢
  have hseen : Ledger s.up.edge.origin [] 0 (s'.seen p closed) :=
    hdata.of_eq rfl (fun _ => rfl) rfl rfl rfl rfl rfl
  obtain ⟨hclosed, hnone⟩ := hseen.close may p reads
  have hlife : s'.lifecycle s.up.edge.origin p may closed reads =
      ((s'.seen p closed).close s.up.edge.origin may p reads).backstop p := if_pos hclose
  obtain ⟨hup, hpending, hsession⟩ :=
    backstop_frame ((s'.seen p closed).close s.up.edge.origin may p reads) p
  rw [hlife, park_of_none (hpending.trans hnone)]
  refine ⟨hpending.trans hnone, hsession, fun o ho => Released.of_up ?_ hup⟩
  rw [hup, hclosed.edge] at ho
  rw [ho]
  exact close_released _ o may p reads

def ClosesClean (s : PtyReader) : PtyAct → Prop
  | .pass p => s.handlesClose p = true → (s.pass p).pending = none ∧ (s.pass p).session = [] ∧
      ∀ o, (s.pass p).up.edge.origin = some o →
        ((s.pass p).lockOf o).writeMode o.id = some .onDemand →
          ((s.pass p).lockOf o).holder ≠ some o.id
  | .settle _ _ | .other _ => True

theorem Sound.closesClean (h : Sound s) (a : PtyAct) : s.ClosesClean a := by
  cases a with
  | pass p =>
    intro hclose
    obtain ⟨hpending, hsession, hreleased⟩ := h.pass_close hclose
    refine ⟨hpending, hsession, fun o ho hmode hholder => ?_⟩
    rw [hreleased o ho hholder] at hmode
    cases hmode
  | settle _ _ | other _ => trivial

theorem balance_flatten {past : List (List PtyEvent)} (hpast : ∀ σ ∈ past, Settled σ) :
    total bytesRead past.flatten =
      total bytesPut past.flatten + total bytesLost past.flatten + total bytesPurged past.flatten := by
  induction past with
  | nil => rfl
  | cons σ past ih =>
    have hσ := (hpast σ mem_cons_self).balance
    have hrest := ih fun τ hτ => hpast τ (mem_cons_of_mem _ hτ)
    rw [flatten_cons, total_append, total_append, total_append, total_append]
    omega

def stalledEndpoint : Upstream where
  edge := { registered := some (0, 1), writer := some 0, attached := true }
  locks _ := ⟨(((EndpointLock.new .exclusive).register 1 "console" .onDemand).acquire 1).2, false⟩
  queues _ := Channel.new 1
  sent := []

def passOver (hup : Bool) (reads : List (MasterRead × Bool)) : PtyPass where
  pollin := true
  pollhup := hup
  reads
  retryRoom := true
  offerRoom := true
  tookEdge := false
  termios := none
  flushed := 0
  reconcileDue := false

def stalledDetach : List PtyAct :=
  [.pass (passOver false [(.packet 0 [1, 2], true), (.packet 0 [3], true)]), .settle true true,
    .pass (passOver true [(.packet 64 [], true), (.packet 0 [4, 5], true), (.eio, true)]),
    .other (.setEdge { registered := some (0, 1), writer := none, attached := true }),
    .pass (passOver true [(.packet 0 [6], true), (.eio, true)])]

end PtyReader
end SerialNexus
