import SerialNexus.TargetwardInbox

/-! # Reading request lines

`RequestLines` (`daemon/src/control.rs`) reads lines of bounded length.  A future that is dropped
while it waits leaves `buf` and `available` behind.  The socket is the list of what its reads will
give. -/

namespace SerialNexus

def maxRequestLine : ℕ := 1 <<< 20

inductive LineRead where
  | line (text : String)
  | eof
  | tooLong
deriving DecidableEq

inductive Fill where
  | data (bytes : List UInt8)
  | failed
deriving DecidableEq

structure RequestLines where
  buf : List UInt8
  available : List UInt8
deriving DecidableEq

namespace RequestLines

def new : RequestLines := ⟨[], []⟩

def takeLine (bytes : List UInt8) : Except Unit LineRead :=
  let bytes := if bytes.getLast? = some 13 then bytes.dropLast else bytes
  match String.fromUTF8? ⟨bytes.toArray⟩ with
  | some text => .ok (.line text)
  | none => .error ()

variable (r : RequestLines)

def scan : Option (Except Unit LineRead) × RequestLines :=
  match r.available.findIdx? (· = 10) with
  | some pos =>
    if r.buf.length + pos > maxRequestLine then
      (some (.ok .tooLong), ⟨[], r.available.drop (pos + 1)⟩)
    else (some (takeLine (r.buf ++ r.available.take pos)), ⟨[], r.available.drop (pos + 1)⟩)
  | none =>
    if r.buf.length + r.available.length > maxRequestLine then (some (.ok .tooLong), ⟨[], []⟩)
    else (none, ⟨r.buf ++ r.available, []⟩)

def readMore : RequestLines → List Fill → Poll (Except Unit LineRead) × RequestLines × List Fill
  | r, [] => (.pending, r, [])
  | r, .failed :: fills => (.ready (.error ()), r, fills)
  | r, .data [] :: fills =>
    if r.buf.isEmpty then (.ready (.ok .eof), r, .data [] :: fills)
    else (.ready (takeLine r.buf), ⟨[], []⟩, .data [] :: fills)
  | r, .data (byte :: bytes) :: fills =>
    match scan { r with available := byte :: bytes } with
    | (some result, r) => (.ready result, r, fills)
    | (none, r) => readMore r fills

def nextLine (fills : List Fill) : Poll (Except Unit LineRead) × RequestLines × List Fill :=
  if r.available.isEmpty then r.readMore fills
  else
    match r.scan with
    | (some result, r) => (.ready result, r, fills)
    | (none, r) => r.readMore fills

end RequestLines
end SerialNexus
