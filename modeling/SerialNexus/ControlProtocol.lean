import SerialNexus.ControlConnection

/-! # One answer to each request

A request is in one place at a time: its response was begun, or its verb is in flight, or its result
waits in `settled` (`Books.tickets`). -/

namespace SerialNexus

open List
namespace Rpc

variable {V : Type*} {J : Serde V}

def dispatched (requests : List Taken) : List ℕ :=
  (requests.zipIdx.filter (·.1.how = .verb)).map (·.2)

theorem dispatched_append (requests : List Taken) (t : Taken) :
    dispatched (requests ++ [t]) =
      dispatched requests ++ if t.how = .verb then [requests.length] else [] := by
  by_cases h : t.how = .verb
  · simp [dispatched, zipIdx_append, h]
  · simp [dispatched, zipIdx_append, h]

namespace Ledger

def waiting (l : Ledger V) : List ℕ :=
  l.inflight.toList.map (·.ticket) ++ l.settled.toList.map (·.ticket)

def Names (J : Serde V) (requests : List Taken) (ticket : ℕ) (id : Id) : Prop :=
  (requests[ticket]?).map (·.id J) = some id

structure Books (J : Serde V) (l : Ledger V) : Prop where
  one : l.inflight = none ∨ l.settled = none
  dispatched : dispatched l.requests = l.finished.map (·.ticket) ++ l.inflight.toList.map (·.ticket)
  finished : l.finished = l.begun.filterMap Outgoing.verb? ++ l.settled.toList
  tickets : (l.begun.filterMap Outgoing.ticket? ++ l.waiting).Perm (List.range l.requests.length)
  responses : ∀ msg ∈ l.begun, ∀ ticket response, msg.response? = some (ticket, response) →
    Names J l.requests ticket response.id
  inflightId : ∀ v, l.inflight = some v → Names J l.requests v.ticket v.id
  settledId : ∀ done, l.settled = some done → Names J l.requests done.ticket done.id

variable {l : Ledger V}

theorem Names.append {requests : List Taken} {ticket : ℕ} {id : Id}
    (h : Names J requests ticket id) (t : Taken) : Names J (requests ++ [t]) ticket id := by
  unfold Names at h ⊢
  obtain ⟨t', ht, -⟩ := Option.map_eq_some_iff.mp h
  rw [List.getElem?_append_left (List.getElem?_eq_some_iff.mp ht).1]
  exact h

theorem names_last (requests : List Taken) (t : Taken) :
    Names J (requests ++ [t]) requests.length (t.id J) := by
  simp [Names]

theorem Settled.response_id (done : Settled V) : done.response.id = done.id := by
  unfold Settled.response
  split <;> rfl

variable {v : InFlight V} {t : Taken}

theorem Books.settle (h : l.Books J) (hv : l.inflight = some v) (result : Except (RpcError V) V) :
    Books J { l with
      inflight := none
      settled := some ⟨v.ticket, v.id, v.isSubscribe, result⟩
      finished := l.finished ++ [⟨v.ticket, v.id, v.isSubscribe, result⟩] } := by
  have hnone : l.settled = none := h.one.resolve_left (by simp [hv])
  refine ⟨.inl rfl, ?_, ?_, ?_, h.responses, nofun, ?_⟩
  · simpa [hv] using h.dispatched
  · simpa [hnone] using h.finished
  · simpa [waiting, hv, hnone] using h.tickets
  · rintro _ ⟨⟩
    exact h.inflightId v hv

theorem Books.complete (h : l.Books J) (result : Except (RpcError V) V) :
    Books J { l with
      inflight := l.inflight.map fun v => { v with ready := v.ready <|> some result } } := by
  cases hi : l.inflight with
  | none =>
    rw [Option.map_none, ← hi]
    exact h
  | some v =>
    have hs : l.settled = none := h.one.resolve_left (by simp [hi])
    refine ⟨.inr hs, ?_, h.finished, ?_, h.responses, ?_, h.settledId⟩
    · simpa [hi] using h.dispatched
    · simpa [waiting, hi] using h.tickets
    · rintro _ ⟨⟩
      exact h.inflightId v hi

theorem Books.beginVerb (h : l.Books J) {done : Settled V} (hd : l.settled = some done) :
    Books J { l with settled := none, begun := l.begun ++ [.verb done] } := by
  have hnone : l.inflight = none := h.one.resolve_right (by simp [hd])
  refine ⟨.inr rfl, h.dispatched, ?_, ?_, ?_, h.inflightId, nofun⟩
  · simpa [hd, Outgoing.verb?] using h.finished
  · simpa [waiting, hd, hnone, Outgoing.ticket?, Outgoing.response?] using h.tickets
  · intro msg hm ticket response hr
    rcases mem_append.mp hm with hm | hm
    · exact h.responses msg hm ticket response hr
    · obtain rfl := mem_singleton.mp hm
      obtain ⟨rfl, rfl⟩ : done.ticket = ticket ∧ done.response = response := by
        simpa [Outgoing.response?] using hr
      rw [Settled.response_id]
      exact h.settledId done hd

theorem Books.beginNote (h : l.Books J) (n : Notification V) :
    Books J { l with begun := l.begun ++ [.note n] } := by
  refine ⟨h.one, h.dispatched, ?_, ?_, ?_, h.inflightId, h.settledId⟩
  · simpa [Outgoing.verb?, filterMap_cons] using h.finished
  · simpa [waiting, Outgoing.ticket?, Outgoing.response?, filterMap_cons] using h.tickets
  · intro msg hm ticket response hr
    rcases mem_append.mp hm with hm | hm
    · exact h.responses msg hm ticket response hr
    · obtain rfl := mem_singleton.mp hm
      cases hr

theorem Books.answer (h : l.Books J) (ht : t.how ≠ .verb) {response : Response V}
    (hid : response.id = t.id J) :
    Books J { l with
      requests := l.requests ++ [t]
      begun := l.begun ++ [.reply l.requests.length response] } := by
  refine ⟨h.one, ?_, ?_, ?_, ?_, fun v hv => (h.inflightId v hv).append t,
    fun done hd => (h.settledId done hd).append t⟩
  · rw [dispatched_append, if_neg ht, append_nil]
    exact h.dispatched
  · simpa [Outgoing.verb?, filterMap_cons] using h.finished
  · have hrange : List.range (l.requests ++ [t]).length =
        List.range l.requests.length ++ [l.requests.length] := by
      rw [length_append, length_singleton, range_succ]
    rw [hrange, filterMap_append, append_assoc]
    refine (List.perm_append_comm.append_left _).trans ?_
    rw [← append_assoc]
    exact h.tickets.append_right _
  · intro msg hm ticket r hr
    rcases mem_append.mp hm with hm | hm
    · exact (h.responses msg hm ticket r hr).append t
    · obtain rfl := mem_singleton.mp hm
      obtain ⟨rfl, rfl⟩ : l.requests.length = ticket ∧ response = r := by
        simpa [Outgoing.response?] using hr
      rw [hid]
      exact names_last l.requests t

theorem Books.dispatch (h : l.Books J) (hi : l.inflight = none) (hs : l.settled = none)
    (ht : t.how = .verb) (hticket : v.ticket = l.requests.length) (hid : v.id = t.id J) :
    Books J { l with requests := l.requests ++ [t], inflight := some v } := by
  refine ⟨.inr hs, ?_, h.finished, ?_, fun msg hm ticket r hr => ?_, ?_,
    fun done hd => (h.settledId done hd).append t⟩
  · have := h.dispatched
    rw [dispatched_append, if_pos ht, this, hi, ← hticket]
    simp
  · have := h.tickets
    rw [length_append, length_singleton, range_succ]
    simp only [waiting, hi, hs, hticket, Option.toList_none, Option.toList_some, map_nil,
      map_cons, append_nil] at this ⊢
    exact this.append_right _
  · exact (h.responses msg hm ticket r hr).append t
  · rintro _ ⟨⟩
    rw [hticket, hid]
    exact names_last l.requests t

end Ledger
namespace Connection

/-! ### Lines -/

def Lines (J : Serde V) (s : Connection V) : Prop :=
  ∃ part, s.wire = s.sent.flatMap (·.line J) ++ part ∧
    match s.task with
    | .select => part = [] ∧ s.begun = s.sent
    | .writing msg rest _ => part ++ rest = msg.line J ∧ s.begun = s.sent ++ [msg]
    | .ended =>
      part = [] ∧ s.begun = s.sent ∨ ∃ msg, part <+: msg.line J ∧ s.begun = s.sent ++ [msg]

structure Calm (s : Connection V) : Prop where
  select : s.task = .select → s.settled = none
  answering : ∀ msg rest sub, s.task = .writing msg rest (.answered sub) →
    s.inflight = none ∧ s.settled = none

/-- What every step keeps. -/
structure Kept (J : Serde V) (s : Connection V) : Prop where
  books : s.toLedger.Books J
  lines : s.Lines J
  calm : s.Calm

structure Free (J : Serde V) (s : Connection V) : Prop where
  books : s.toLedger.Books J
  lines : s.Lines J
  task : s.task = .select

section steps
variable {s : Connection V} {msg : Outgoing V} {after : After}

theorem Lines.begin (h : s.Lines J) (hs : s.task = .select) : (s.begin J msg after).Lines J := by
  obtain ⟨part, hwire, hpart⟩ := h
  rw [hs] at hpart
  obtain ⟨rfl, hbegun⟩ := hpart
  exact ⟨[], hwire, rfl, by simp [Connection.begin, hbegun]⟩

theorem calm_of_ended (hs : s.task = .ended) : s.Calm := by
  constructor
  · simp [hs]
  · simp [hs]

variable {rest : List UInt8} {line : String} {how : Handling} {request : Request V}

theorem calm_of_writing (hs : s.task = .writing msg rest after)
    (hanswering : ∀ sub, after = .answered sub → s.inflight = none ∧ s.settled = none) :
    s.Calm := by
  constructor
  · simp [hs]
  · intro msg' rest' sub hw
    rw [hs] at hw
    obtain ⟨-, -, rfl⟩ := ConnTask.writing.inj hw
    exact hanswering sub rfl

theorem calm_of_select (hs : s.task = .select) (hd : s.settled = none) : s.Calm := by
  constructor
  · exact fun _ => hd
  · simp [hs]

theorem begin_kept (hl : s.Lines J) (hs : s.task = .select)
    (hb : Ledger.Books J { s.toLedger with begun := s.begun ++ [msg] })
    (hafter : ∀ sub, after ≠ .answered sub) : (s.begin J msg after).Kept J :=
  ⟨hb, hl.begin hs, calm_of_writing rfl fun sub he => absurd he (hafter sub)⟩

theorem finish_kept (h : s.Free J) (reader : RequestLines) (socket : List Fill) :
    Kept J { s with reader, socket, task := .ended } := by
  obtain ⟨part, hwire, hpart⟩ := h.lines
  rw [h.task] at hpart
  exact ⟨h.books, ⟨part, hwire, .inl hpart⟩, calm_of_ended rfl⟩

theorem top_kept (h : s.Free J) : (s.top J).Kept J := by
  unfold top
  cases hd : s.settled with
  | none =>
    obtain ⟨part, hwire, hpart⟩ := h.lines
    rw [h.task] at hpart
    exact ⟨h.books, ⟨part, hwire, hpart⟩, calm_of_select rfl hd⟩
  | some done =>
    have hnone : s.inflight = none := h.books.one.resolve_right (by simp [hd])
    have hlines : Lines J { s with settled := none } := h.lines
    exact ⟨h.books.beginVerb hd, hlines.begin h.task, calm_of_writing rfl fun _ _ => ⟨hnone, rfl⟩⟩

theorem note_kept (h : s.Free J) (n : Notification V) : (s.begin J (.note n) .again).Kept J :=
  begin_kept h.lines h.task (h.books.beginNote n) nofun

theorem answer_kept (h : s.Free J) {line : Option String} {response : Response V}
    (hhow : how ≠ .verb) (hid : response.id = Taken.id J ⟨line, how⟩)
    (hafter : ∀ sub, after ≠ .answered sub) : (s.answer J line how response after).Kept J := by
  have hlines : Lines J { s with requests := s.requests ++ [⟨line, how⟩] } := h.lines
  exact begin_kept hlines h.task (h.books.answer hhow hid) hafter

theorem replyId_ok (h : parseIncomingRequest J line = .ok request) :
    replyId J line = request.id := by
  simp [replyId, h]

theorem replyId_error {err : RpcError V} (h : parseIncomingRequest J line = .error err) :
    replyId J line = .null := by
  simp [replyId, h]

theorem tapClose_id (id : Id) (params : Option V) : (s.tapClose J id params).1.id = id := by
  unfold tapClose
  split
  · split
    · dsimp only
      split_ifs <;> rfl
    · rfl
  · rfl

theorem takeRequest_kept (h : s.Free J) (hi : s.inflight = none) (hd : s.settled = none)
    (hreq : parseIncomingRequest J line = .ok request)
    (opened : Except (RpcError V) (V × OpenTap)) :
    (s.takeRequest J line request opened).Kept J := by
  have hid := replyId_ok hreq
  unfold takeRequest
  split_ifs
  · split
    · apply answer_kept
      exacts [⟨h.books, h.lines, h.task⟩, nofun, hid.symm, nofun]
    · exact answer_kept h nofun hid.symm nofun
  · apply answer_kept
    exacts [⟨h.books, h.lines, h.task⟩, nofun, (tapClose_id _ _).trans hid.symm, nofun]
  · exact top_kept ⟨h.books.dispatch hi hd rfl rfl hid.symm, h.lines, h.task⟩

theorem takeLine_kept (h : s.Free J) (hd : s.settled = none) (line : String)
    (opened : Except (RpcError V) (V × OpenTap)) : (s.takeLine J line opened).Kept J := by
  unfold takeLine
  split_ifs with hblank hbusy
  · exact top_kept h
  · cases hreq : parseIncomingRequest J line with
    | ok request => exact answer_kept h nofun (replyId_ok hreq).symm nofun
    | error err => exact answer_kept h nofun (replyId_error hreq).symm nofun
  · cases hreq : parseIncomingRequest J line with
    | error err => exact answer_kept h nofun (replyId_error hreq).symm nofun
    | ok request => exact takeRequest_kept h (by simpa using hbusy) hd hreq opened

/-! ### Steps -/

theorem forward_kept (h : s.Kept J) (hs : s.task = .select) : (s.forward J).Kept J := by
  unfold forward
  split
  · apply note_kept
    exact ⟨h.books, h.lines, hs⟩
  · apply top_kept
    exact ⟨h.books, h.lines, hs⟩
  · exact finish_kept ⟨h.books, h.lines, hs⟩ _ _
  · split
    · apply note_kept
      exact ⟨h.books, h.lines, hs⟩
    · apply note_kept
      exact ⟨h.books, h.lines, hs⟩
    · exact h

theorem settle_spec (h : s.toLedger.Books J) :
    s.settle.toLedger.Books J ∧ (s.Lines J → s.settle.Lines J) ∧ s.settle.task = s.task := by
  unfold settle
  split
  · next hv => exact ⟨h.settle hv _, id, rfl⟩
  · exact ⟨h, id, rfl⟩

theorem settle_kept (h : s.Kept J) (hs : s.task = .writing msg rest after) : s.settle.Kept J := by
  obtain ⟨hb, hl, ht⟩ := settle_spec h.books
  refine ⟨hb, hl h.lines, calm_of_writing (ht.trans hs) ?_⟩
  rintro sub rfl
  -- While a verb is being answered there is none to poll.
  obtain ⟨hi, hd⟩ := h.calm.answering msg rest sub hs
  have hsame : s.settle = s := by simp only [settle, hi]
  rw [hsame]
  exact ⟨hi, hd⟩

theorem select_kept (h : s.Kept J) (hs : s.task = .select)
    (opened : Except (RpcError V) (V × OpenTap)) : (s.select J opened).Kept J := by
  have hd := h.calm.select hs
  unfold select
  split_ifs
  · obtain ⟨hb, hl, ht⟩ := settle_spec h.books
    exact top_kept ⟨hb, hl h.lines, ht.trans hs⟩
  · split
    · apply takeLine_kept
      exacts [⟨h.books, h.lines, hs⟩, hd]
    · exact finish_kept ⟨h.books, h.lines, hs⟩ _ _
    · exact finish_kept ⟨h.books, h.lines, hs⟩ _ _
    · apply answer_kept
      exacts [⟨h.books, h.lines, hs⟩, nofun, rfl, nofun]
    · apply forward_kept
      exacts [⟨h.books, h.lines, h.calm.select, h.calm.answering⟩, hs]

theorem resume_kept (h : s.Free J) (hanswering : ∀ sub, after = .answered sub → s.settled = none) :
    (s.resume J after).Kept J := by
  cases after with
  | answered sub =>
    obtain ⟨part, hwire, hpart⟩ := h.lines
    rw [h.task] at hpart
    exact ⟨h.books, ⟨part, hwire, hpart⟩, calm_of_select rfl (hanswering sub rfl)⟩
  | again => exact top_kept h
  | close => exact finish_kept h _ _

theorem write_kept (h : s.Kept J) (hs : s.task = .writing msg rest after) (room : Option ℕ) :
    (s.write J msg rest after room).Kept J := by
  obtain ⟨part, hwire, hpart⟩ := h.lines
  rw [hs] at hpart
  obtain ⟨hline, hbegun⟩ := hpart
  cases room with
  | none =>
    refine ⟨h.books, ⟨part, hwire, .inr ⟨msg, ?_, hbegun⟩⟩, calm_of_ended rfl⟩
    exact ⟨rest, hline⟩
  | some k =>
    unfold write
    dsimp only
    split_ifs
    · apply resume_kept
      · refine ⟨h.books, ⟨[], ?_, rfl, hbegun⟩, rfl⟩
        simp [hwire, hline]
      · rintro sub rfl
        exact (h.calm.answering msg rest sub hs).2
    · have hlines : Lines J
          { s with wire := s.wire ++ rest.take k, task := .writing msg (rest.drop k) after } := by
        refine ⟨part ++ rest.take k, ?_, ?_, hbegun⟩
        · simp [hwire]
        · rw [append_assoc, take_append_drop, hline]
      refine settle_kept ⟨h.books, hlines, calm_of_writing rfl ?_⟩ rfl
      rintro sub rfl
      exact h.calm.answering msg rest sub hs

theorem poll_kept (h : s.Kept J) (room : Option ℕ) (opened : Except (RpcError V) (V × OpenTap)) :
    (s.poll J room opened).Kept J := by
  unfold poll
  split
  · next hs => exact select_kept h hs opened
  · next hs => exact write_kept h hs room
  · exact h

theorem step_kept (h : s.Kept J) (a : ConnAct V) : (s.step J a).Kept J := by
  cases a with
  | poll room opened => exact poll_kept h room opened
  | complete result =>
    refine ⟨h.books.complete result, h.lines, h.calm.select, fun msg rest sub hs => ?_⟩
    obtain ⟨hi, hd⟩ := h.calm.answering msg rest sub hs
    exact ⟨by simp [step, hi], hd⟩
  | _ => exact ⟨h.books, h.lines, h.calm.select, h.calm.answering⟩

structure Reads (J : Serde V) (s s' : Connection V) (t : Taken) : Prop where
  requests : s'.requests = s.requests ++ [t]
  free : t.how = .verb ∨ t.how = .tap → s.task = .select ∧ s.inflight = none
  refused : ∀ v, s.inflight = some v →
    s'.inflight = some v ∧ ∃ error after,
      let msg := Outgoing.reply s.requests.length (.failure (t.id J) error)
      s'.task = .writing msg (msg.line J) after ∧
        ∀ line request, t.line = some line → parseIncomingRequest J line = .ok request →
          error = .new waitInFlight waitInFlightMessage

theorem answer_reads (hs : s.task = .select) (hi : s.inflight = none) (s' : Connection V)
    {line : Option String} (hr : s'.requests = s.requests ++ [⟨line, how⟩]) :
    Reads J s s' ⟨line, how⟩ :=
  ⟨hr, fun _ => ⟨hs, hi⟩, by simp [hi]⟩

/-- Nothing is read: the reader, what the socket holds and the requests stay. -/
structure Same (s s' : Connection V) : Prop where
  reader : s'.reader = s.reader
  socket : s'.socket = s.socket
  requests : s'.requests = s.requests

theorem top_same (s : Connection V) : s.Same (s.top J) := by
  unfold top
  split <;> exact ⟨rfl, rfl, rfl⟩

theorem takeRequest_reads (hs : s.task = .select) (hi : s.inflight = none) (line : String)
    (request : Request V) (opened : Except (RpcError V) (V × OpenTap)) :
    ∃ t, Reads J s (s.takeRequest J line request opened) t := by
  unfold takeRequest
  split_ifs
  · split
    · exact ⟨_, answer_reads hs hi _ rfl⟩
    · exact ⟨_, answer_reads hs hi _ rfl⟩
  · exact ⟨_, answer_reads hs hi _ rfl⟩
  · exact ⟨_, answer_reads hs hi _ (top_same _).requests⟩

theorem takeLine_reads (hs : s.task = .select) (line : String)
    (opened : Except (RpcError V) (V × OpenTap)) :
    (s.takeLine J line opened).requests = s.requests ∨
      ∃ t, Reads J s (s.takeLine J line opened) t := by
  unfold takeLine
  split_ifs with hblank hbusy
  · exact .inl (top_same s).requests
  · refine .inr ⟨⟨line, .refused⟩, ?_⟩
    cases hreq : parseIncomingRequest J line with
    | ok request =>
      refine ⟨rfl, by simp, fun v hv => ⟨hv, .new waitInFlight waitInFlightMessage, .again, ?_⟩⟩
      refine ⟨?_, fun _ _ _ _ => rfl⟩
      rw [show Taken.id J ⟨line, .refused⟩ = request.id from replyId_ok hreq]
      rfl
    | error err =>
      refine ⟨rfl, by simp, fun v hv => ⟨hv, err, .again, ?_, ?_⟩⟩
      · rw [show Taken.id J ⟨line, .refused⟩ = .null from replyId_error hreq]
        rfl
      · rintro _ request ⟨⟩ hok
        rw [hreq] at hok
        cases hok
  · have hi : s.inflight = none := by simpa using hbusy
    cases hreq : parseIncomingRequest J line with
    | error err => exact .inr ⟨_, answer_reads hs hi _ rfl⟩
    | ok request => exact .inr (takeRequest_reads hs hi line request opened)

theorem forward_same (s : Connection V) : s.Same (s.forward J) := by
  unfold forward
  split
  · exact ⟨rfl, rfl, rfl⟩
  · next notes _ _ =>
    obtain ⟨hreader, hsocket, hrequests⟩ := top_same (J := J) { s with notes }
    exact ⟨hreader, hsocket, hrequests⟩
  · exact ⟨rfl, rfl, rfl⟩
  · split <;> exact ⟨rfl, rfl, rfl⟩

theorem settle_same (s : Connection V) : s.Same s.settle := by
  unfold settle
  split <;> exact ⟨rfl, rfl, rfl⟩

theorem Same.trans {s₁ s₂ : Connection V} (h : s.Same s₁) (h' : s₁.Same s₂) : s.Same s₂ :=
  ⟨h'.reader.trans h.reader, h'.socket.trans h.socket, h'.requests.trans h.requests⟩

theorem select_reads (hs : s.task = .select) (opened : Except (RpcError V) (V × OpenTap)) :
    (s.select J opened).requests = s.requests ∨ ∃ t, Reads J s (s.select J opened) t := by
  unfold select
  split_ifs
  · exact .inl ((settle_same s).trans (top_same _)).requests
  · split
    · next line reader socket _ =>
      have hs' : ({ s with reader, socket } : Connection V).task = .select := hs
      rcases takeLine_reads hs' line opened with hsame | ⟨t, h⟩
      · exact .inl hsame
      · exact .inr ⟨t, h.requests, h.free, h.refused⟩
    · exact .inl rfl
    · exact .inl rfl
    · refine .inr ⟨⟨none, .tooLong⟩, rfl, by simp, fun v hv => ⟨hv, _, .close, rfl, nofun⟩⟩
    · exact .inl (forward_same _).requests

theorem resume_same (s : Connection V) (after : After) : s.Same (s.resume J after) := by
  cases after with
  | answered | close => exact ⟨rfl, rfl, rfl⟩
  | again => exact top_same s

theorem write_same (s : Connection V) (msg : Outgoing V) (rest : List UInt8) (after : After)
    (room : Option ℕ) : s.Same (s.write J msg rest after room) := by
  unfold write
  split
  · exact ⟨rfl, rfl, rfl⟩
  · split_ifs
    · obtain ⟨hreader, hsocket, hrequests⟩ := resume_same (J := J) _ after
      exact ⟨hreader, hsocket, hrequests⟩
    · obtain ⟨hreader, hsocket, hrequests⟩ := settle_same _
      exact ⟨hreader, hsocket, hrequests⟩

theorem step_reads (s : Connection V) (a : ConnAct V) :
    (s.step J a).requests = s.requests ∨ ∃ t, Reads J s (s.step J a) t := by
  cases a with
  | poll room opened =>
    change (s.poll J room opened).requests = _ ∨ ∃ t, Reads J s (s.poll J room opened) t
    unfold poll
    split
    · next hs => exact select_reads hs opened
    · exact .inl (write_same s _ _ _ room).requests
    · exact .inl rfl
  | _ => exact .inl rfl

theorem Kept.all_sent (h : s.Kept J) (hs : s.task = .select) (hi : s.inflight = none) :
    (s.sent.filterMap Outgoing.ticket?).Perm (List.range s.requests.length) := by
  obtain ⟨part, -, hpart⟩ := h.lines
  rw [hs] at hpart
  have htickets := h.books.tickets
  simp only [Ledger.waiting, hi, h.calm.select hs, hpart.2, Option.toList_none, map_nil,
    append_nil] at htickets
  exact htickets

end steps

/-- What the client's side adds to the socket at this step. -/
def arriving : ConnAct V → List Fill
  | .receive fill => [fill]
  | _ => []

/-- What the reader returns at this step, and what it leaves, if the step gets to the reader. -/
def reading (s : Connection V) :
    ConnAct V → Option (Poll (Except Unit LineRead) × RequestLines × List Fill)
  | .poll _ _ =>
    match s.task with
    | .select =>
      if s.inflight.any (·.ready.isSome) then none else some (s.reader.nextLine s.socket)
    | .writing _ _ _ | .ended => none
  | _ => none

/-- The requests in what the reader returns: a line that is not blank, or one that is too long. -/
def requestOf : Poll (Except Unit LineRead) → List (Option String)
  | .ready (.ok (.line line)) => if isBlank line then [] else [some line]
  | .ready (.ok .tooLong) => [none]
  | .ready (.ok .eof) | .ready (.error _) | .pending => []

/-- The line of each request that the reader returns is taken as the next request, and nothing
else is. -/
def Takes (J : Serde V) (s : Connection V) (a : ConnAct V) : Prop :=
  match s.reading a with
  | some (read, reader, socket) =>
    (s.step J a).reader = reader ∧ (s.step J a).socket = socket ∧
      (s.step J a).requests.map (·.line) = s.requests.map (·.line) ++ requestOf read
  | none =>
    (s.step J a).reader = s.reader ∧ (s.step J a).socket = s.socket ++ arriving a ∧
      (s.step J a).requests = s.requests

section takes
variable {s : Connection V}

def Took (s s' : Connection V) (lines : List (Option String)) : Prop :=
  s'.reader = s.reader ∧ s'.socket = s.socket ∧
    s'.requests.map (·.line) = s.requests.map (·.line) ++ lines

theorem Same.took {s' : Connection V} (h : s.Same s') : s.Took s' [] :=
  ⟨h.reader, h.socket, by rw [h.requests, append_nil]⟩

theorem answer_took (line : Option String) (how : Handling) (response : Response V)
    (after : After) : s.Took (s.answer J line how response after) [line] :=
  ⟨rfl, rfl, by simp [answer, begin]⟩

theorem takeRequest_took (line : String) (request : Request V)
    (opened : Except (RpcError V) (V × OpenTap)) :
    s.Took (s.takeRequest J line request opened) [some line] := by
  unfold takeRequest
  split_ifs
  · split
    · obtain ⟨hreader, hsocket, hrequests⟩ := answer_took (J := J) _ _ _ _
      exact ⟨hreader, hsocket, hrequests⟩
    · exact answer_took _ _ _ _
  · obtain ⟨hreader, hsocket, hrequests⟩ := answer_took (J := J) _ _ _ _
    exact ⟨hreader, hsocket, hrequests⟩
  · obtain ⟨hreader, hsocket, hrequests⟩ := top_same (J := J) _
    exact ⟨hreader, hsocket, by simp [hrequests]⟩

theorem takeLine_took (line : String) (opened : Except (RpcError V) (V × OpenTap)) :
    s.Took (s.takeLine J line opened) (if isBlank line then [] else [some line]) := by
  unfold takeLine
  by_cases hblank : isBlank line = true
  · rw [if_pos hblank, if_pos hblank]
    exact (top_same s).took
  · rw [if_neg hblank, if_neg hblank]
    split_ifs
    · cases parseIncomingRequest J line with
      | ok request => exact answer_took _ _ _ _
      | error err => exact answer_took _ _ _ _
    · cases parseIncomingRequest J line with
      | error err => exact answer_took _ _ _ _
      | ok request => exact takeRequest_took line request opened

theorem select_takes (hs : s.task = .select) (room : Option ℕ)
    (opened : Except (RpcError V) (V × OpenTap)) : s.Takes J (.poll room opened) := by
  unfold Takes reading
  rw [hs]
  dsimp only
  have hstep : s.step J (.poll room opened) = s.select J opened := by
    change s.poll J room opened = _
    rw [poll, hs]
  rw [hstep]
  unfold select
  split_ifs with hready
  · obtain ⟨hreader, hsocket, hrequests⟩ := (settle_same s).trans (top_same (J := J) _)
    exact ⟨hreader, hsocket.trans (append_nil _).symm, hrequests⟩
  · rcases s.reader.nextLine s.socket with ⟨read, reader, socket⟩
    cases read with
    | pending => exact (forward_same _).took
    | ready result =>
      cases result with
      | error _ => exact ⟨rfl, rfl, (append_nil _).symm⟩
      | ok read =>
        cases read with
        | line line => exact takeLine_took line opened
        | eof => exact ⟨rfl, rfl, (append_nil _).symm⟩
        | tooLong => exact answer_took _ _ _ _

theorem step_takes (s : Connection V) (a : ConnAct V) : s.Takes J a := by
  cases a with
  | poll room opened =>
    cases hs : s.task with
    | select => exact select_takes hs room opened
    | writing msg rest after =>
      have hsame := write_same (J := J) s msg rest after room
      simp only [Takes, reading, hs, step, poll]
      exact ⟨hsame.reader, hsame.socket.trans (append_nil _).symm, hsame.requests⟩
    | ended => simp [Takes, reading, hs, step, poll, arriving]
  | receive fill => exact ⟨rfl, rfl, rfl⟩
  | _ => exact ⟨rfl, (append_nil _).symm, rfl⟩

end takes

/-! ### Runs -/

def Refuses (J : Serde V) (s : Connection V) (a : ConnAct V) : Prop :=
  ∀ t v, (s.step J a).requests = s.requests ++ [t] → s.inflight = some v →
    (s.step J a).inflight = some v ∧ ∃ error after,
      let msg := Outgoing.reply s.requests.length (.failure (t.id J) error)
      (s.step J a).task = .writing msg (msg.line J) after ∧
        ∀ line request, t.line = some line → parseIncomingRequest J line = .ok request →
          error = .new waitInFlight waitInFlightMessage

def StartsLast (J : Serde V) (s : Connection V) (a : ConnAct V) : Prop :=
  ∀ t, (s.step J a).requests = s.requests ++ [t] → t.how = .verb ∨ t.how = .tap →
    (s.sent.filterMap Outgoing.ticket?).Perm (List.range s.requests.length)

theorem reads_of_append {s : Connection V} {a : ConnAct V} {t : Taken}
    (h : (s.step J a).requests = s.requests ++ [t]) : Reads J s (s.step J a) t := by
  rcases step_reads (J := J) s a with hsame | ⟨t', ht'⟩
  · rw [hsame] at h
    simp at h
  · have hlast := h.symm.trans ht'.requests
    obtain rfl : t = t' := by simpa using hlast
    exact ht'

theorem start_kept : (start : Connection V).Kept J where
  books := ⟨.inl rfl, rfl, rfl, .refl _, by simp [start], by simp [start], by simp [start]⟩
  lines := ⟨[], rfl, rfl, rfl⟩
  calm := calm_of_select rfl rfl

theorem control_protocol (J : Serde V) (as : List (ConnAct V)) :
    let s := (machine J).run start as
    dispatched s.requests = s.finished.map (·.ticket) ++ s.inflight.toList.map (·.ticket) ∧
    ((s.inflight = none ∨ s.settled = none) ∧
      s.finished = s.begun.filterMap Outgoing.verb? ++ s.settled.toList) ∧
    ((s.begun.filterMap Outgoing.ticket? ++ s.waiting).Perm (List.range s.requests.length) ∧
      (∀ msg ∈ s.begun, ∀ ticket response, msg.response? = some (ticket, response) →
        (s.requests[ticket]?).map (·.id J) = some response.id) ∧
      (s.task = .select → s.inflight = none →
        (s.sent.filterMap Outgoing.ticket?).Perm (List.range s.requests.length))) ∧
    (machine J).Each (Takes J) start as ∧
    (machine J).Each (Refuses J) start as ∧
    (machine J).Each (StartsLast J) start as ∧
    s.Lines J := by
  intro s
  have hstep : ∀ s a, s.Kept J → (machine J).ok s a → ((machine J).step s a).Kept J :=
    fun _ a h _ => step_kept h a
  have hlegal : (machine J).Legal start as :=
    Runs.Machine.legal_of_forall (fun _ _ _ => trivial) start
  have h : s.Kept J := Runs.Machine.invariant hstep start_kept hlegal
  refine ⟨h.books.dispatched, ⟨h.books.one, h.books.finished⟩,
    ⟨h.books.tickets, h.books.responses, h.all_sent⟩,
    Runs.Machine.each_of_forall step_takes start as, ?_, ?_, h.lines⟩
  · exact Runs.Machine.each_of_forall
      (fun _ _ t v ht hv => (reads_of_append ht).refused v hv) start as
  · refine Runs.Machine.each_of_invariant hstep ?_ start_kept hlegal
    intro s a h _ t ht hhow
    obtain ⟨hs, hi⟩ := (reads_of_append ht).free hhow
    exact h.all_sent hs hi

/-- A library that takes a line as its request's id and method. -/
def plainSerde : Serde String where
  fromStr text := .ok text
  fromValue text := .ok ⟨.string text, text, none⟩
  responseToString response := match response.id with | .string text => text | _ => "?"
  notificationToString n := n.method
  get _ _ := none
  asU64 _ := none
  num n := toString n
  str text := text
  object _ := ""
  debug text := text

/-- Two requests and a blank line in one piece; the second is read while the first is in flight. -/
def busyRun : List (ConnAct String) :=
  [.receive (.data (toLine "ls" ++ toLine "" ++ toLine "st")), .poll none (.ok ("", ⟨0, "", false⟩)),
    .poll none (.ok ("", ⟨0, "", false⟩)), .poll none (.ok ("", ⟨0, "", false⟩)), .complete (.ok "x"),
    .poll (some 2) (.ok ("", ⟨0, "", false⟩)), .poll (some 9) (.ok ("", ⟨0, "", false⟩)),
    .poll (some 9) (.ok ("", ⟨0, "", false⟩))]

theorem control_protocol_busyRun :
    let s := (machine plainSerde).run start busyRun
    s.requests = [⟨some "ls", .verb⟩, ⟨some "st", .refused⟩] ∧ s.wire = toLine "st" ++ toLine "ls" ∧
      (s.begun.filterMap Outgoing.ticket? ++ s.waiting).Perm [0, 1] ∧
      (machine plainSerde).Each (Takes plainSerde) start busyRun := by
  intro s
  obtain ⟨-, -, ⟨htickets, -, -⟩, htakes, -⟩ := control_protocol plainSerde busyRun
  have hrequests : s.requests = [⟨some "ls", .verb⟩, ⟨some "st", .refused⟩] := by decide +kernel
  change (s.begun.filterMap _ ++ s.waiting).Perm (List.range s.requests.length) at htickets
  rw [hrequests] at htickets
  exact ⟨hrequests, by decide +kernel, htickets, htakes⟩

end Connection
end Rpc
end SerialNexus
