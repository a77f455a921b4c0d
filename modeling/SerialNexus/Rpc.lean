import SerialNexus.GraphModel
import SerialNexus.Tap

/-! # The messages of a control connection

JSON-RPC 2.0 as `rpc/src/lib.rs` has it: requests, responses, notifications, and the two rules that
are applied to a line at the door.  `Serde` is the JSON library, of which nothing is asked. -/

namespace SerialNexus
namespace Rpc

/-! ### Messages -/

/-- A request id. -/
inductive Id where
  | number (n : ℤ)
  | string (s : String)
  | null
deriving DecidableEq, Repr

structure Request (V : Type*) where
  id : Id
  method : String
  params : Option V

structure RpcError (V : Type*) where
  code : ℤ
  message : String
  data : Option V

structure Response (V : Type*) where
  id : Id
  result : Option V
  error : Option (RpcError V)

structure Notification (V : Type*) where
  method : String
  params : Option V

variable {V : Type*}

def RpcError.new (code : ℤ) (message : String) : RpcError V := ⟨code, message, none⟩

def Response.success (id : Id) (result : V) : Response V := ⟨id, some result, none⟩

def Response.failure (id : Id) (error : RpcError V) : Response V := ⟨id, none, some error⟩

def Response.errorWithoutId (error : RpcError V) : Response V := .failure .null error

def parseError : ℤ := -32700
def invalidRequest : ℤ := -32600
def invalidParams : ℤ := -32602
def appErrorBase : ℤ := -32000

def waitInFlight : ℤ := appErrorBase - 6

structure Serde (V : Type*) where
  fromStr : String → Except String V
  fromValue : V → Except String (Request V)
  responseToString : Response V → String
  notificationToString : Notification V → String
  get : V → String → Option V
  asU64 : V → Option ℕ
  num : ℕ → V
  str : String → V
  object : List (String × V) → V
  debug : String → String

variable (J : Serde V)

def parseIncomingRequest (line : String) : Except (RpcError V) (Request V) :=
  let trimmed := line.toList.dropWhile isWhiteSpace
  if trimmed.head? = some '[' then
    .error (.new invalidRequest "batch requests are not supported")
  else
    match J.fromStr (String.ofList trimmed) with
    | .error e => .error (.new parseError s!"invalid JSON: {e}")
    | .ok value =>
      match J.fromValue value with
      | .error e => .error (.new invalidRequest s!"invalid request: {e}")
      | .ok request => .ok request

def replyId (line : String) : Id :=
  match parseIncomingRequest J line with
  | .ok request => request.id
  | .error _ => .null

def toLine (text : String) : List UInt8 := (text ++ "\n").toUTF8.toList

def base64Alphabet : List Char :=
  "ABCDEFGHIJKLMNOPQRSTUVWXYZabcdefghijklmnopqrstuvwxyz0123456789+/".toList

def base64Char (n : ℕ) : Char := base64Alphabet.getD (n &&& 0x3f) '='

def base64Group (b0 b1 b2 : UInt8) (length : ℕ) : List Char :=
  let n := (b0.toNat <<< 16) ||| (b1.toNat <<< 8) ||| b2.toNat
  [base64Char (n >>> 18), base64Char (n >>> 12),
    if 1 < length then base64Char (n >>> 6) else '=', if 2 < length then base64Char n else '=']

def base64Chars : Chunk → List Char
  | [] => []
  | [b0] => base64Group b0 0 0 1
  | [b0, b1] => base64Group b0 b1 0 2
  | b0 :: b1 :: b2 :: rest => base64Group b0 b1 b2 3 ++ base64Chars rest

def base64Encode (input : Chunk) : String := String.ofList (base64Chars input)

def tapNotification : TapMsg → Notification V
  | .data tapId bytes offset gapBefore =>
    ⟨"tap.data", some (J.object [("tap", J.num tapId), ("offset", J.num offset),
      ("gap_before", J.num gapBefore), ("data", J.str (base64Encode bytes))])⟩
  | .closed tapId endpoint reason =>
    ⟨"tap.closed", some (J.object [("tap", J.num tapId), ("endpoint", J.str endpoint),
      ("reason", J.str reason)])⟩

end Rpc
end SerialNexus
