import SerialNexus.Rpc
import SerialNexus.RequestLines

/-! # The control connection

`serve_connection` (`daemon/src/control.rs`) is one task for each client: a loop around a `select!`
with five lanes (the verb in flight, the request lines, the notifications, and two lanes of tap
deliveries), in this order.  Every line goes out through `write_line`, which polls the verb in
flight as well; if the verb is done before the line is out, its result waits in the slot `settled`.

A step is at most what the task does between two awaits; what the client, the daemon and the sockets
do comes in between, in any order and any pieces. -/

namespace SerialNexus
namespace Rpc

inductive Handling where
  | tooLong
  | refused
  | malformed
  | tap
  | verb
deriving DecidableEq, Repr

structure Taken where
  line : Option String
  how : Handling
deriving DecidableEq, Repr

structure InFlight (V : Type*) where
  ticket : ℕ
  id : Id
  isSubscribe : Bool
  ready : Option (Except (RpcError V) V)

structure Settled (V : Type*) where
  ticket : ℕ
  id : Id
  isSubscribe : Bool
  result : Except (RpcError V) V

inductive Outgoing (V : Type*) where
  | verb (done : Settled V)
  | reply (ticket : ℕ) (response : Response V)
  | note (n : Notification V)

inductive After where
  | answered (isSubscribe : Bool)
  | again
  | close
deriving DecidableEq, Repr

/-- Where the task is. -/
inductive ConnTask (V : Type*) where
  | select
  | writing (msg : Outgoing V) (rest : List UInt8) (after : After)
  | ended

structure OpenTap where
  tapId : ℕ
  endpoint : String
  orphaned : Bool
deriving DecidableEq, Repr

inductive NoteRead (V : Type*) where
  | note (n : Notification V)
  | lagged
  | closed

structure Ledger (V : Type*) where
  inflight : Option (InFlight V)
  settled : Option (Settled V)
  requests : List Taken
  finished : List (Settled V)
  begun : List (Outgoing V)

structure Connection (V : Type*) extends Ledger V where
  reader : RequestLines
  socket : List Fill
  notes : List (NoteRead V)
  closed : List TapMsg
  taps : List TapMsg
  openTaps : List OpenTap
  subscribed : Bool
  task : ConnTask V
  sent : List (Outgoing V)
  wire : List UInt8

variable {V : Type*}

def Settled.response (done : Settled V) : Response V :=
  match done.result with
  | .ok value => .success done.id value
  | .error err => .failure done.id err

def Outgoing.response? : Outgoing V → Option (ℕ × Response V)
  | .verb done => some (done.ticket, done.response)
  | .reply ticket response => some (ticket, response)
  | .note _ => none

def Outgoing.ticket? (msg : Outgoing V) : Option ℕ := msg.response?.map Prod.fst

def Outgoing.verb? : Outgoing V → Option (Settled V)
  | .verb done => some done
  | _ => none

variable (J : Serde V)

def Outgoing.line : Outgoing V → List UInt8
  | .verb done => toLine (J.responseToString done.response)
  | .reply _ response => toLine (J.responseToString response)
  | .note n => toLine (J.notificationToString n)

def Taken.id (t : Taken) : Id :=
  match t.line with
  | some line => replyId J line
  | none => .null

def waitInFlightMessage : String :=
  "a waiting verb is already in flight on this connection; only one is supported at a time — " ++
    "open a second connection, or retry once it resolves"

namespace Connection

variable (s : Connection V)

/-! ### The task -/

def start : Connection V where
  inflight := none
  settled := none
  requests := []
  finished := []
  begun := []
  reader := .new
  socket := []
  notes := []
  closed := []
  taps := []
  openTaps := []
  subscribed := false
  task := .select
  sent := []
  wire := []

def begin (msg : Outgoing V) (after : After) : Connection V :=
  { s with task := .writing msg (msg.line J) after, begun := s.begun ++ [msg] }

def settle : Connection V :=
  match s.inflight with
  | some ⟨ticket, id, isSubscribe, some result⟩ =>
    { s with
      inflight := none
      settled := some ⟨ticket, id, isSubscribe, result⟩
      finished := s.finished ++ [⟨ticket, id, isSubscribe, result⟩] }
  | _ => s

def top : Connection V :=
  match s.settled with
  | some done => begin J { s with settled := none } (.verb done) (.answered done.isSubscribe)
  | none => { s with task := .select }

def answer (line : Option String) (how : Handling) (response : Response V) (after : After) :
    Connection V :=
  begin J { s with requests := s.requests ++ [⟨line, how⟩] } (.reply s.requests.length response)
    after

def tapClose (id : Id) (params : Option V) : Response V × List OpenTap :=
  match (params.bind (J.get · "tap")).bind J.asU64 with
  | some tapId =>
    match s.openTaps.find? (·.tapId = tapId) with
    | some handle =>
      (if handle.orphaned then
        .failure id (.new invalidParams
          (s!"tap {tapId} was already closed by the daemon: its endpoint " ++
            J.debug handle.endpoint ++ " is gone"))
      else .success id (J.object [("closed", J.num tapId)]), s.openTaps.eraseP (·.tapId = tapId))
    | none =>
      (.failure id (.new invalidParams s!"no open tap {tapId} on this connection"), s.openTaps)
  | none => (.failure id (.new invalidParams "missing 'tap' in params"), s.openTaps)

def takeRequest (line : String) (request : Request V)
    (opened : Except (RpcError V) (V × OpenTap)) : Connection V :=
  if request.method = "tap.open" then
    match opened with
    | .ok (value, handle) =>
      answer J { s with openTaps := s.openTaps ++ [handle] } line .tap
        (.success request.id value) .again
    | .error err => s.answer J line .tap (.failure request.id err) .again
  else if request.method = "tap.close" then
    let (response, openTaps) := s.tapClose J request.id request.params
    answer J { s with openTaps } line .tap response .again
  else
    top J
      { s with
        requests := s.requests ++ [⟨line, .verb⟩]
        inflight := some ⟨s.requests.length, request.id, request.method = "subscribe", none⟩ }

def takeLine (line : String) (opened : Except (RpcError V) (V × OpenTap)) : Connection V :=
  if isBlank line then s.top J
  else if s.inflight.isSome then
    match parseIncomingRequest J line with
    | .ok request =>
      s.answer J line .refused
        (.failure request.id (.new waitInFlight waitInFlightMessage)) .again
    | .error err => s.answer J line .refused (.errorWithoutId err) .again
  else
    match parseIncomingRequest J line with
    | .error err => s.answer J line .malformed (.errorWithoutId err) .again
    | .ok request => s.takeRequest J line request opened

def forward : Connection V :=
  match s.subscribed, s.notes with
  | true, .note n :: notes => begin J { s with notes } (.note n) .again
  | true, .lagged :: notes => top J { s with notes }
  | true, .closed :: _ => { s with task := .ended }
  | _, _ =>
    match s.closed, s.taps with
    | msg :: closed, _ => begin J { s with closed } (.note (tapNotification J msg)) .again
    | [], msg :: taps => begin J { s with taps } (.note (tapNotification J msg)) .again
    | [], [] => s

def select (opened : Except (RpcError V) (V × OpenTap)) : Connection V :=
  if s.inflight.any (·.ready.isSome) then s.settle.top J
  else
    match s.reader.nextLine s.socket with
    | (.ready (.ok (.line line)), reader, socket) =>
      takeLine J { s with reader, socket } line opened
    | (.ready (.ok .eof), reader, socket) | (.ready (.error _), reader, socket) =>
      { s with reader, socket, task := .ended }
    | (.ready (.ok .tooLong), reader, socket) =>
      answer J { s with reader, socket } none .tooLong
        (.errorWithoutId
          (.new invalidRequest s!"request line exceeds the {maxRequestLine}-byte limit")) .close
    | (.pending, reader, socket) => forward J { s with reader, socket }

def resume : After → Connection V
  | .answered isSubscribe => { s with subscribed := s.subscribed || isSubscribe, task := .select }
  | .again => s.top J
  | .close => { s with task := .ended }

def write (msg : Outgoing V) (rest : List UInt8) (after : After) : Option ℕ → Connection V
  | none => { s with task := .ended }
  | some k =>
    if rest.length ≤ k then
      resume J { s with wire := s.wire ++ rest, sent := s.sent ++ [msg], task := .select } after
    else
      settle { s with wire := s.wire ++ rest.take k, task := .writing msg (rest.drop k) after }

def poll (room : Option ℕ) (opened : Except (RpcError V) (V × OpenTap)) : Connection V :=
  match s.task with
  | .select => s.select J opened
  | .writing msg rest after => s.write J msg rest after room
  | .ended => s

end Connection

/-! ### The others -/

/-- Who moves. -/
inductive ConnAct (V : Type*) where
  | poll (room : Option ℕ) (opened : Except (RpcError V) (V × OpenTap))
  | complete (result : Except (RpcError V) V)
  | receive (fill : Fill)
  | notify (n : NoteRead V)
  | tapClosed (msg : TapMsg)
  | tapData (msg : TapMsg)
  | orphan (tapId : ℕ)

namespace Connection

def step (s : Connection V) : ConnAct V → Connection V
  | .poll room opened => s.poll J room opened
  | .complete result =>
    { s with inflight := s.inflight.map fun v => { v with ready := v.ready <|> some result } }
  | .receive fill => { s with socket := s.socket ++ [fill] }
  | .notify n => { s with notes := s.notes ++ [n] }
  | .tapClosed msg => { s with closed := s.closed ++ [msg] }
  | .tapData msg => { s with taps := s.taps ++ [msg] }
  | .orphan tapId =>
    { s with
      openTaps := s.openTaps.map fun t => if t.tapId = tapId then { t with orphaned := true } else t }

def machine : Runs.Machine (Connection V) (ConnAct V) := ⟨step J, fun _ _ => True⟩

end Connection
end Rpc
end SerialNexus
