import Mathlib.Data.Char
import Mathlib.Data.List.DropRight
import Mathlib.Data.List.Lex
import Mathlib.Data.List.Sort
import SerialNexus.FileTree
import SerialNexus.GraphModel

/-! # The device resolver

`core/src/resolver.rs`: from what an operator types to the identity that a configuration stores
(`resolveInput`), from a stored identity to the path of the device that has it now
(`resolveCurrentPath`), and the listing of the devices that can be bound (`enumeratePorts`).  `/dev`
and `/sys` are parts of one `FileSystem`; every name is UTF-8. -/

namespace SerialNexus

open PathText

def trim (s : PathText) : PathText := (s.dropWhile isWhiteSpace).rdropWhile isWhiteSpace

def stripScheme (scheme s : PathText) : Option PathText :=
  if scheme.isPrefixOf s then some (s.drop scheme.length) else none

inductive DeviceKind where
  | usb
  | byPath
  | raw
deriving DecidableEq, Repr

def usbScheme : PathText := "usb:".toList

def byPathScheme : PathText := "by-path:".toList

def rawScheme : PathText := "raw:".toList

def absentMark : PathText := ['-']

structure Resolved where
  identity : PathText
  path : Option PathText
  kind : DeviceKind
  description : PathText
  warning : Option PathText
deriving DecidableEq

inductive Resolver.ResolveError where
  | notPresent (input : PathText)
  | malformed (input reason : PathText)
deriving DecidableEq

structure Adapter where
  byIdName : PathText
  devPath : PathText
  identity : Option PathText
deriving DecidableEq

structure PortCandidate where
  identity : PathText
  kind : DeviceKind
  path : PathText
  description : PathText
  byId : Option PathText
  warning : Option PathText
deriving DecidableEq

structure UsbInfo where
  identity : PathText
  description : PathText
deriving DecidableEq

structure Resolver where
  devRoot : PathText
  sysRoot : PathText
  devRoot_ne : devRoot ≠ []
  sysRoot_ne : sysRoot ≠ []

/-! ### Texts -/

def byPathWarning : PathText :=
  "bound by topology (by-path): this identity follows whatever adapter occupies the physical ".toList ++
    "port, not a specific device (§12)".toList

def rawWarning : PathText :=
  "bound by raw path: no device identity — a replugged or different adapter on this path is ".toList ++
    "adopted blindly, and the path is not stable across reboots (§12)".toList

def commaSeparated (texts : List PathText) : PathText := ", ".toList.intercalate texts

def ambiguousWarning (found : List (PathText × UsbInfo)) : PathText :=
  "ambiguous usb identity: ".toList ++ (toString found.length).toList ++
    " present devices answer to it (".toList ++ commaSeparated (found.map (·.1)) ++
    ") — a duplicated serial number pins no single adapter, so nothing is bound and the node ".toList ++
      "stays waiting; bind each adapter by the by-path: identity `ports` lists for it instead ".toList ++
      "(§12)".toList

def describeFields (serial iface : PathText) : PathText :=
  (if serial ≠ absentMark then ", serial ".toList ++ serial else []) ++
    (if iface ≠ absentMark then ", interface ".toList ++ iface else [])

def describe (manufacturer product : Option PathText) (serial iface vid pid : PathText) : PathText :=
  let head :=
    match manufacturer, product with
    | some m, some p => m ++ ' ' :: p
    | some m, none => m
    | none, some p => p
    | none, none => "USB ".toList ++ vid ++ ':' :: pid
  trim head ++ describeFields serial iface

def describeUsbIdentity (fields : PathText) : PathText :=
  match fields.splitOn ':' with
  | [vid, pid, serial, iface] => "USB ".toList ++ vid ++ ':' :: pid ++ describeFields serial iface
  | _ => usbScheme ++ fields

def usbSerialField (identity : PathText) : Option PathText :=
  (stripScheme usbScheme identity).bind fun rest => (rest.splitOn ':')[2]?

def usbIdentity (vid pid serial iface : PathText) : PathText :=
  usbScheme ++ [':'].intercalate [vid, pid, serial, iface]

/-! ### Files -/

def isDevNode (fs : FileSystem) (p : PathText) : Bool := (fs.metadata p).any (·.list.isNone)

def readTrimmed (fs : FileSystem) (p : PathText) : Option PathText := (fs.readToString p).map trim

def readField (fs : FileSystem) (cur : List PathText) (name : String) : Option PathText :=
  (readTrimmed fs (join (absolute cur) name.toList)).filter (· ≠ [])

def location (names : List PathText) : List Component := .root :: names.map .normal

def linkName (fs : FileSystem) (link : PathText) : Option PathText := (fs.readLink link).bind fileName

def usbInfoAt (fs : FileSystem) (cur : List PathText) (interface : Option PathText) :
    Option UsbInfo :=
  match readField fs cur "idVendor", readField fs cur "idProduct" with
  | some vid, some pid =>
    let serial := (readField fs cur "serial").getD absentMark
    let iface := interface.getD absentMark
    -- a field with a colon cannot be told from two fields
    if [vid, pid, serial, iface].any (·.contains ':') then none
    else
      some
        { identity := usbIdentity vid pid serial iface
          description := describe (readTrimmed fs (join (absolute cur) "manufacturer".toList))
            (readTrimmed fs (join (absolute cur) "product".toList)) serial iface vid pid }
  | _, _ => none

def sysfsWalk (fs : FileSystem) (guard : List Component) :
    ℕ → List PathText → Option PathText → Option UsbInfo
  | 0, _, _ => none
  | steps + 1, cur, interface =>
    let interface := if interface.isNone then readField fs cur "bInterfaceNumber" else interface
    if (fs.metadata (join (absolute cur) "idVendor".toList)).isSome then usbInfoAt fs cur interface
    else if cur ≠ [] ∧ guard.isPrefixOf (location cur.dropLast) then
      sysfsWalk fs guard steps cur.dropLast interface
    else none

namespace Resolver

def new (devRoot : PathText) (h : devRoot ≠ []) : Resolver where
  devRoot
  sysRoot := join devRoot "sys".toList
  devRoot_ne := h
  sysRoot_ne := join_ne_nil h _

variable (r : Resolver) (fs : FileSystem)

def devDir : PathText := join r.devRoot "dev".toList

def devPath (name : PathText) : PathText := join r.devDir name

def byIdDir : PathText := join r.devRoot "dev/serial/by-id".toList

def byPathDir : PathText := join r.devRoot "dev/serial/by-path".toList

def ttyDir : PathText := join r.sysRoot "class/tty".toList

def rooted (abs : PathText) : PathText := join r.devRoot (abs.dropWhile (· = '/'))

def checkLiteral (input path : PathText) : Except ResolveError PathText :=
  if Component.parent ∈ components path then
    .error (.malformed input
      ".. components are not allowed: the path must stay inside the device root".toList)
  else if fs.isDir (r.rooted path) then
    .error (.malformed input "path is a directory, not a device node".toList)
  else .ok (r.rooted path)

def literalDevPath (path : PathText) : Option PathText :=
  match r.checkLiteral fs path path with
  | .ok rooted => if isDevNode fs rooted then some rooted else none
  | .error _ => none

def sysfsLookup (devName : PathText) : Option UsbInfo :=
  match fs.canonicalize (join (join r.ttyDir devName) "device".toList) with
  | none => none
  | some start =>
    let guard := ((fs.canonicalize r.sysRoot).map location).getD (components r.sysRoot)
    sysfsWalk fs guard 12 start none

def sysfsUsbDevices : List (PathText × UsbInfo) :=
  match fs.readDir r.ttyDir with
  | none => []
  | some names =>
    (names.insertionSort (· ≤ ·)).filterMap fun name =>
      if isDevNode fs (r.devPath name) then (r.sysfsLookup fs name).map ((r.devPath name), ·)
      else none

def usbIdentityMatches (identity : PathText) : List (PathText × UsbInfo) :=
  (r.sysfsUsbDevices fs).filter (·.2.identity = identity)

def usbIdentityAmbiguous (identity : PathText) : Bool :=
  1 < (r.usbIdentityMatches fs identity).length

def findUsbById (identity : PathText) : Option (PathText × UsbInfo) :=
  match fs.readDir r.byIdDir with
  | none => none
  | some entries =>
    entries.findSome? fun entry =>
      match linkName fs (join r.byIdDir entry) with
      | none => none
      | some devName =>
        match r.sysfsLookup fs devName with
        | none => none
        | some info =>
          if info.identity = identity ∧ isDevNode fs (r.devPath devName) = true then
            some (r.devPath devName, info)
          else none

def findUsb (identity : PathText) : Option (PathText × UsbInfo) :=
  if 1 < (r.usbIdentityMatches fs identity).length then none
  else
    match r.findUsbById fs identity with
    | some found => some found
    | none => (r.usbIdentityMatches fs identity).getLast?

def bypathLookup (port : PathText) : Option PathText :=
  match linkName fs (join r.byPathDir port) with
  | none => none
  | some devName => if isDevNode fs (r.devPath devName) then some (r.devPath devName) else none

def bypathOf (devName : PathText) : Option PathText :=
  match fs.readDir r.byPathDir with
  | none => none
  | some entries => entries.find? fun entry => linkName fs (join r.byPathDir entry) = some devName

def devicesWithSerial (serial : PathText) : List (PathText × UsbInfo) :=
  if serial = absentMark then []
  else (r.sysfsUsbDevices fs).filter fun d => usbSerialField d.2.identity = some serial

def captureForDev (devName rooted raw : PathText) : Resolved :=
  let fallback : Resolved :=
    match r.bypathOf fs devName with
    | some port =>
      { identity := byPathScheme ++ port
        path := some rooted
        kind := .byPath
        description := "topology port ".toList ++ port ++ " (".toList ++ devName ++ ")".toList
        warning := some byPathWarning }
    | none =>
      { identity := rawScheme ++ raw
        path := some rooted
        kind := .raw
        description := "raw path ".toList ++ raw
        warning := some rawWarning }
  match r.sysfsLookup fs devName with
  | some info =>
    if usbSerialField info.identity ≠ some absentMark ∧
        r.usbIdentityAmbiguous fs info.identity = false then
      { identity := info.identity
        path := some rooted
        kind := .usb
        description := info.description
        warning := none }
    else fallback
  | none => fallback

def rawName (devName : PathText) : PathText := "/dev/".toList ++ devName

def ambiguousSerialReason (found : List (PathText × UsbInfo)) : PathText :=
  let pinned := found.map fun d =>
    let devName := (fileName d.1).getD []
    (d.1, r.captureForDev fs devName d.1 (rawName devName))
  let caveat :=
    if pinned.any fun d => d.2.kind = .raw then
      "; where the list shows a raw path, no by-path entry covers that device here, so it names ".toList ++
        "the path and not the adapter — nothing published here pins that one across a replug".toList
    else []
  (toString pinned.length).toList ++ " present devices carry this serial number (".toList ++
    commaSeparated (pinned.map fun d => d.1 ++ " → ".toList ++ d.2.identity) ++
    ") — a serial number that names more than one adapter pins none of them; add by the identity ".toList ++
      "listed against the adapter you mean, or by its device path".toList ++
    caveat ++ " (§12)".toList

def captureFromSerial (serial : PathText) : Except ResolveError Resolved :=
  let found := r.devicesWithSerial fs serial
  if 1 < found.length then .error (.malformed serial (r.ambiguousSerialReason fs found))
  else
    match found.getLast? with
    | none => .error (.notPresent serial)
    | some d =>
      let devName := (fileName d.1).getD []
      .ok (r.captureForDev fs devName d.1 (rawName devName))

def canonicalDev (rooted input : PathText) : PathText × PathText :=
  match fs.canonicalize rooted with
  | none => (rooted, input)
  | some canon =>
    let root := ((fs.canonicalize r.devRoot).map location).getD (components r.devRoot)
    if root.isPrefixOf (location canon) then
      let rel := (location canon).drop root.length
      if rel = [] then (rooted, input)
      else
        let spelling := '/' :: ['/'].intercalate (rel.map Component.text)
        (r.rooted spelling, spelling)
    else (rooted, input)

def captureFromPath (input : PathText) : Except ResolveError Resolved :=
  if input.dropWhile (· = '/') = [] then .error (.malformed input "empty path".toList)
  else
    match r.checkLiteral fs input input with
    | .error e => .error e
    | .ok rooted =>
      if isDevNode fs rooted = false then .error (.notPresent input)
      else
        let (rooted, raw) := r.canonicalDev fs rooted input
        .ok (r.captureForDev fs ((fileName rooted).getD []) rooted raw)

def resolveUsbIdentity (input rest : PathText) : Except ResolveError Resolved :=
  let fields := rest.splitOn ':'
  if fields.length ≠ 4 then
    .error (.malformed input "expected usb:<vid>:<pid>:<serial>:<iface>".toList)
  else if fields.any fun f => trim f = [] then
    .error (.malformed input
      "usb identity fields must be non-empty (use - for an absent serial/interface)".toList)
  else
    let ambiguous := r.usbIdentityMatches fs input
    if 1 < ambiguous.length then
      .ok
        { identity := input
          path := none
          kind := .usb
          description := describeUsbIdentity rest
          warning := some (ambiguousWarning ambiguous) }
    else
      let found := r.findUsb fs input
      .ok
        { identity := input
          path := found.map (·.1)
          kind := .usb
          description := found.elim (describeUsbIdentity rest) (·.2.description)
          warning := none }

def resolveBypathIdentity (input rest : PathText) : Except ResolveError Resolved :=
  if rest = [] then .error (.malformed input "empty by-path port".toList)
  else
    .ok
      { identity := input
        path := r.bypathLookup fs rest
        kind := .byPath
        description := "topology port ".toList ++ rest
        warning := some byPathWarning }

def resolveRawIdentity (input rest : PathText) : Except ResolveError Resolved :=
  if rest.dropWhile (· = '/') = [] then .error (.malformed input "empty raw path".toList)
  else
    match r.checkLiteral fs input rest with
    | .error e => .error e
    | .ok rooted =>
      .ok
        { identity := input
          path := if isDevNode fs rooted then some rooted else none
          kind := .raw
          description := "raw path ".toList ++ rest
          warning := some rawWarning }

def resolveInput (text : PathText) : Except ResolveError Resolved :=
  let input := trim text
  if input = [] then .error (.malformed input "empty device string".toList)
  else
    match stripScheme usbScheme input, stripScheme byPathScheme input, stripScheme rawScheme input with
    | some rest, _, _ => r.resolveUsbIdentity fs input rest
    | none, some rest, _ => r.resolveBypathIdentity fs input rest
    | none, none, some rest => r.resolveRawIdentity fs input rest
    | none, none, none =>
      if isAbsolute input then r.captureFromPath fs input else r.captureFromSerial fs input

def resolveCurrentPath (text : PathText) : Option PathText :=
  let device := trim text
  match stripScheme usbScheme device, stripScheme byPathScheme device, stripScheme rawScheme device with
  | some _, _, _ => (r.findUsb fs device).map (·.1)
  | none, some rest, _ => r.bypathLookup fs rest
  | none, none, some rest => r.literalDevPath fs rest
  | none, none, none =>
    if isAbsolute device then r.literalDevPath fs device
    else
      let found := r.devicesWithSerial fs device
      if found.length = 1 then found.getLast?.map (·.1) else none

def discoverAdapters : List Adapter :=
  match fs.readDir r.byIdDir with
  | none => []
  | some entries =>
    (entries.insertionSort (· ≤ ·)).filterMap fun entry =>
      (fs.readLink (join r.byIdDir entry)).map fun target =>
        let devName := (fileName target).getD []
        { byIdName := entry
          devPath := join r.devDir devName
          identity := (r.sysfsLookup fs devName).map (·.identity) }

def byIdNames : List (PathText × PathText) :=
  (r.discoverAdapters fs).filterMap fun a => (fileName a.devPath).map (·, a.byIdName)

def byPathNames : List PathText :=
  ((fs.readDir r.byPathDir).getD []).filterMap fun entry => linkName fs (join r.byPathDir entry)

def calloutNames : List PathText :=
  ((fs.readDir r.devDir).getD []).filter fun name => "cu.".toList.isPrefixOf name

def seenNames : List PathText :=
  ((r.byIdNames fs).map (·.1) ++ (r.sysfsUsbDevices fs).filterMap (fun d => fileName d.1) ++
    r.byPathNames fs ++ r.calloutNames fs).dedup.insertionSort (· ≤ ·)

def candidate (devName : PathText) : Option PortCandidate :=
  let raw := rawName devName
  if isDevNode fs (r.rooted raw) then
    let resolved := r.captureForDev fs devName (r.rooted raw) raw
    some
      { identity := resolved.identity
        kind := resolved.kind
        path := r.rooted raw
        description := resolved.description
        byId := ((r.byIdNames fs).reverse.find? (·.1 = devName)).map (·.2)
        warning := resolved.warning }
  else none

def enumeratePorts : List PortCandidate := (r.seenNames fs).filterMap (r.candidate fs)

end Resolver
end SerialNexus
