import SerialNexus.Envelope
import SerialNexus.RequestFraming
import SerialNexus.Rpc

/-! # The browser bridge

`bridge.rs` (`web/src`) takes one JSON-RPC request per text frame of a browser.  `screen` parses the
frame and looks at the method; what is forwarded is the parsed value, printed again as one line. -/

namespace SerialNexus.Web

open List
open RequestLines (batch batch_line lineResult takeLine)
open Rpc (Serde Id parseIncomingRequest)

inductive Number where
  | posInt (n : ℕ)
  | negInt (n : ℤ)
  | float (bits : UInt64)
deriving DecidableEq

inductive Json where
  | null
  | bool (b : Bool)
  | number (n : Number)
  | string (s : String)
  | array (items : List Json)
  | object (fields : List (String × Json))

namespace Json

def get : Json → String → Option Json
  | .object fields, key => fields.lookup key
  | _, _ => none

def asStr : Json → Option String
  | .string s => some s
  | _ => none

def isObject : Json → Bool
  | .object _ => true
  | _ => false

def asId : Json → Option Id
  | .number (.posInt n) => if n < 2 ^ 63 then some (.number n) else none
  | .number (.negInt n) => some (.number n)
  | .string s => some (.string s)
  | .null => some .null
  | _ => none

def asParams : Option Json → Option Json
  | some .null | none => none
  | some v => some v

end Json

def requestOf (version id method params : Option Json) : Option (Rpc.Request Json) := do
  let version ← version.bind Json.asStr
  let id ← id.bind Json.asId
  let method ← method.bind Json.asStr
  if version = "2.0" then some ⟨id, method, Json.asParams params⟩ else none

def deserializeRequest : Json → Option (Rpc.Request Json)
  | .object fields =>
    requestOf (fields.lookup "jsonrpc") (fields.lookup "id") (fields.lookup "method")
      (fields.lookup "params")
  | .array items =>
    if items.length ≤ 4 then requestOf items[0]? items[1]? items[2]? items[3]? else none
  | _ => none

structure SerdeJson extends Serde Json where
  toStr : Json → Option String
  deserialize : ∀ v, (fromValue v).toOption = deserializeRequest v
  roundTrip : ∀ {text v s}, fromStr text = .ok v → toStr v = some s → fromStr s = .ok v
  escapes : ∀ {v s}, toStr v = some s → ∀ c ∈ s.toList, 0x20 ≤ c.toNat
  opens : ∀ {v s}, v.isObject = true → toStr v = some s → s.toList.head? = some '{'

/-! ### The bridge -/

def allowed : List String :=
  ["state", "subscribe", "info", "ports", "dump", "tap.open", "tap.close",
    "send", "lock", "unlock", "rotate", "send-break", "set-modem", "pulse-dtr",
    "add-node", "remove-node", "connect", "disconnect"]

structure Reject where
  id : Json
  code : ℤ
  message : String

def methodNotFound : ℤ := -32601

variable (J : SerdeJson)

def screen (text : String) : Except Reject Json :=
  let malformed : Reject := ⟨.null, Rpc.invalidRequest,
    "invalid request: a frame must be exactly one JSON-RPC request object"⟩
  match J.fromStr text with
  | .error _ => .error malformed
  | .ok v =>
    if v.isObject then
      let id := (v.get "id").getD .null
      match (v.get "method").bind Json.asStr with
      | none => .error ⟨id, Rpc.invalidRequest, "invalid request: no method"⟩
      | some m =>
        if m ∈ allowed then .ok v
        else .error ⟨id, methodNotFound, "method " ++ J.debug m ++ " is not available from the " ++
          "web console (§17: lifecycle verbs stay off the browser wire)"⟩
    else .error malformed

def forwardLine (v : Json) : List UInt8 := utf8 ((J.toStr v).getD "" ++ "\n")

def forwarded (text : String) : List UInt8 :=
  match screen J text with
  | .ok v => forwardLine J v
  | .error _ => []

def accepted (frames : List String) : List Json := frames.filterMap fun text => (screen J text).toOption

def requestOfLine (text : String) : Option (Rpc.Request Json) :=
  if isBlank text then none else (parseIncomingRequest J.toSerde text).toOption

variable {J}

variable {text s : String} {v : Json} {b : UInt8} {r : Rpc.Request Json}

theorem screen_ok (h : screen J text = .ok v) :
    J.fromStr text = .ok v ∧ v.isObject = true ∧
      ∃ m ∈ allowed, (v.get "method").bind Json.asStr = some m := by
  unfold screen at h
  dsimp only at h
  split at h
  · cases h
  · next w hw =>
    split_ifs at h with hobj
    split at h
    · cases h
    · next m hm =>
      split_ifs at h with hin
      obtain rfl : w = v := Except.ok.inj h
      exact ⟨hw, hobj, m, hin, hm⟩

theorem mem_utf8_ascii (hb : b.toNat < 128) (h : b ∈ utf8 s) :
    ∃ c ∈ s.toList, c.toNat = b.toNat := by
  rw [← String.ofList_toList (s := s), utf8_ofList, mem_flatMap] at h
  obtain ⟨c, hc, h⟩ := h
  refine ⟨c, hc, ?_⟩
  have hbyte : ∀ {n}, b = UInt8.ofNat n → b.toNat = n % 256 := fun {n} hn => by simp [hn]
  have hsmall : ∀ {n}, 128 ≤ n → n < 256 → b ≠ UInt8.ofNat n := fun {n} _ _ hn => by
    have := hbyte hn
    omega
  unfold String.utf8EncodeChar at h
  dsimp only at h
  split_ifs at h with h1 h2 h3 <;> simp only [mem_cons, not_mem_nil, or_false] at h
  · change c.val.toNat = b.toNat
    have := hbyte h
    omega
  · rcases h with h | h <;> exact absurd h (hsmall (by omega) (by omega))
  · rcases h with h | h | h <;> exact absurd h (hsmall (by omega) (by omega))
  · rcases h with h | h | h | h <;> exact absurd h (hsmall (by omega) (by omega))

theorem not_mem_utf8_of_control (h : ∀ c ∈ s.toList, 0x20 ≤ c.toNat) (hb : b.toNat < 0x20) :
    b ∉ utf8 s := fun hmem => by
  obtain ⟨c, hc, he⟩ := mem_utf8_ascii (by omega) hmem
  have := h c hc
  omega

theorem method_of_deserialize (hv : v.isObject = true) (h : deserializeRequest v = some r) :
    (v.get "method").bind Json.asStr = some r.method := by
  cases v with
  | object fields =>
    simp only [deserializeRequest, requestOf, Option.bind_eq_bind, Option.bind_eq_some_iff] at h
    obtain ⟨version, -, id, -, method, hm, h⟩ := h
    split_ifs at h
    cases h
    exact Option.bind_eq_some_iff.mpr hm
  | null | bool | number | string | array => cases hv

theorem requestOfLine_toStr (h : screen J text = .ok v) (hs : J.toStr v = some s)
    (hr : requestOfLine J s = some r) : (v.get "method").bind Json.asStr = some r.method := by
  obtain ⟨hparse, hobj, -⟩ := screen_ok h
  obtain ⟨rest, hrest⟩ := head?_eq_some_iff.mp (J.opens hobj hs)
  have htrim : s.toList.dropWhile isWhiteSpace = s.toList := by
    rw [hrest, dropWhile_cons_of_neg (by decide)]
  have hhead : s.toList.head? ≠ some '[' := by simp [hrest]
  unfold requestOfLine at hr
  split_ifs at hr
  unfold parseIncomingRequest at hr
  dsimp only at hr
  rw [htrim, if_neg hhead, String.ofList_toList, J.roundTrip hparse hs] at hr
  refine method_of_deserialize hobj ?_
  rw [← J.deserialize]
  dsimp only at hr
  split at hr
  · cases hr
  · next request he =>
    rw [he]
    exact hr

def lineOf (J : SerdeJson) (v : Json) : List UInt8 := utf8 ((J.toStr v).getD "")

theorem forwardLine_eq (J : SerdeJson) (v : Json) : forwardLine J v = lineOf J v ++ [10] :=
  utf8_append _ _

theorem lineOf_clean (J : SerdeJson) (v : Json) : 10 ∉ lineOf J v ∧ 13 ∉ lineOf J v := by
  have hclean : ∀ c ∈ ((J.toStr v).getD "").toList, 0x20 ≤ c.toNat := by
    cases hs : J.toStr v with
    | none => simp
    | some s => exact J.escapes hs
  exact ⟨not_mem_utf8_of_control hclean (by decide), not_mem_utf8_of_control hclean (by decide)⟩

theorem takeLine_utf8 {text : String} (h : (utf8 text).getLast? ≠ some 13) :
    takeLine (utf8 text) = .ok (.line text) := by
  have hread : String.fromUTF8? ⟨(utf8 text).toArray⟩ = some text := fromUtf8_utf8 text
  rw [takeLine, if_neg h, hread]

theorem method_of_line (h : screen J text = .ok v) {line : String}
    (hline : lineResult (lineOf J v) = .ok (.line line)) (hr : requestOfLine J line = some r) :
    (v.get "method").bind Json.asStr = some r.method := by
  have hread : line = (J.toStr v).getD "" := by
    have hlast : (lineOf J v).getLast? ≠ some 13 := fun hl =>
      (lineOf_clean J v).2 (mem_of_getLast? hl)
    unfold lineResult at hline
    split at hline
    · cases hline
    rw [lineOf, takeLine_utf8 hlast] at hline
    cases hline
    rfl
  cases hs : J.toStr v with
  | none =>
    rw [hread, hs] at hr
    simp [requestOfLine, isBlank] at hr
  | some s =>
    rw [hread, hs] at hr
    exact requestOfLine_toStr h hs hr

/-! ### A session -/

theorem accepted_cons (text : String) (frames : List String) :
    accepted J (text :: frames) = (screen J text).toOption.toList ++ accepted J frames := by
  unfold accepted
  rw [filterMap_cons]
  cases (screen J text).toOption <;> rfl

theorem exists_screen_of_mem {frames : List String} (h : v ∈ accepted J frames) :
    ∃ text ∈ frames, screen J text = .ok v := by
  obtain ⟨text, hmem, ht⟩ := mem_filterMap.mp h
  refine ⟨text, hmem, ?_⟩
  cases hs : screen J text with
  | ok w => rw [hs] at ht; exact congrArg Except.ok (Option.some.inj ht)
  | error e => rw [hs] at ht; cases ht

theorem batch_forwarded (frames : List String) :
    batch (frames.flatMap (forwarded J)) = (accepted J frames).map fun v => lineResult (lineOf J v) := by
  induction frames with
  | nil => rfl
  | cons text frames ih =>
    rw [flatMap_cons, accepted_cons, forwarded]
    cases screen J text with
    | error e => exact ih
    | ok v =>
      dsimp only
      rw [forwardLine_eq, append_assoc, singleton_append, batch_line (lineOf_clean J v).1, ih]
      rfl

open LineReader in
theorem bridge_forwards_screened (J : SerdeJson) (frames : List String) {as : List ReadAct}
    (h : machine.Legal (start (frames.flatMap (forwarded J))) as) :
    (∀ text v, screen J text = .ok v → ∃ line, forwarded J text = line ++ [10] ∧ 10 ∉ line) ∧
      ∀ i line r, (machine.outputs answered (start (frames.flatMap (forwarded J))) as)[i]? =
          some (.ok (.line line)) →
        (∀ y ∈ (machine.outputs answered (start (frames.flatMap (forwarded J))) as).take i,
          stops y = false) →
        requestOfLine J line = some r →
          ∃ v, (accepted J frames)[i]? = some v ∧ (v.get "method").bind Json.asStr = some r.method ∧
            r.method ∈ allowed := by
  constructor
  · intro text v hv
    rw [forwarded, hv]
    exact ⟨lineOf J v, forwardLine_eq J v, (lineOf_clean J v).1⟩
  · intro i line r hi hgo hr
    have hline := outputs_agree h i _ hi hgo
    rw [expected, batch_forwarded, List.getElem?_map] at hline
    cases hv : (accepted J frames)[i]? with
    | none => simp [hv] at hline
    | some v =>
      rw [hv, Option.map_some, Option.getD_some] at hline
      obtain ⟨text, -, hscreen⟩ := exists_screen_of_mem (mem_of_getElem? hv)
      have hm := method_of_line hscreen hline.symm hr
      obtain ⟨-, -, m, hin, hm'⟩ := screen_ok hscreen
      obtain rfl : m = r.method := Option.some.inj (hm'.symm.trans hm)
      exact ⟨v, rfl, hm, hin⟩

def stateRequest : Json :=
  .object [("id", .number (.posInt 1)), ("jsonrpc", .string "2.0"), ("method", .string "state")]

/-- The keys stand in the order in which the value keeps them, which is sorted. -/
def stateText : String := "\x7b\"id\":1,\"jsonrpc\":\"2.0\",\"method\":\"state\"\x7d"

def oneText : SerdeJson where
  fromStr text := if text = stateText then .ok stateRequest else .error "expected value"
  fromValue v := match deserializeRequest v with
    | some r => .ok r
    | none => .error "missing field"
  responseToString _ := ""
  notificationToString _ := ""
  get := Json.get
  asU64 _ := none
  num n := .number (.posInt n)
  str := .string
  object := .object
  debug s := s
  toStr _ := some stateText
  deserialize v := by cases deserializeRequest v <;> rfl
  roundTrip {text v s} h hs := by
    split_ifs at h
    rw [← Option.some.inj hs, if_pos rfl, h]
  escapes {v s} hs := by
    have : stateText.toList.all (0x20 ≤ ·.toNat) = true := by decide +kernel
    simpa [← Option.some.inj hs] using this
  opens {v s} _ hs := by
    rw [← Option.some.inj hs]
    decide +kernel

open LineReader in
theorem bridge_forwards_second_frame :
    ∃ v, (accepted oneText ["shutdown", stateText])[0]? = some v ∧
      (v.get "method").bind Json.asStr = some "state" ∧ "state" ∈ allowed := by
  obtain ⟨r, hr, hm⟩ := Option.map_eq_some_iff.mp
      (show (requestOfLine oneText stateText).map Rpc.Request.method = some "state" by decide +kernel)
  have hlegal : machine.Legal (start (["shutdown", stateText].flatMap (forwarded oneText)))
      [.arrive 42, .poll] := by decide +kernel
  obtain ⟨v, hv, hmethod, hin⟩ := (bridge_forwards_screened oneText _ hlegal).2 0 stateText r
      (by decide +kernel) (by decide +kernel) hr
  exact ⟨v, hv, hm ▸ hmethod, hm ▸ hin⟩

end SerialNexus.Web
