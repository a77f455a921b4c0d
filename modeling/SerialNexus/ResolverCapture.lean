import SerialNexus.ResolverBinding

/-! # Captured paths

What the resolver can return at all, and what it returns for a path that an operator typed: a path
captured with its links followed keeps its directories (`canonicalDev_spec`); but a usb or by-path
identity is captured for its base name only. -/

namespace SerialNexus

open List PathText

def trimEnd (s : PathText) : PathText := s.rdropWhile isWhiteSpace

theorem trim_append {a : PathText} (ha : a ≠ []) (hws : a.any isWhiteSpace = false)
    (b : PathText) : trim (a ++ b) = a ++ trimEnd b := by
  rw [any_eq_false] at hws
  have hstart : (a ++ b).dropWhile isWhiteSpace = a ++ b := by
    obtain ⟨c, a, rfl⟩ := exists_cons_of_ne_nil ha
    exact dropWhile_cons_of_neg (by simp [hws c mem_cons_self])
  unfold trim trimEnd
  rw [hstart]
  clear hstart
  induction b using List.reverseRecOn with
  | nil =>
    rw [append_nil, rdropWhile_nil, append_nil, rdropWhile_eq_self_iff]
    intro hne
    simp [hws _ (getLast_mem hne)]
  | append_singleton b c ih =>
    rw [← append_assoc]
    by_cases hc : isWhiteSpace c = true
    · rw [rdropWhile_concat_pos _ _ _ hc, rdropWhile_concat_pos _ _ _ hc, ih]
    · rw [rdropWhile_concat_neg _ _ _ hc, rdropWhile_concat_neg _ _ _ hc, append_assoc]

theorem exists_trimEnd (s : PathText) :
    ∃ w, s = trimEnd s ++ w ∧ ∀ c ∈ w, isWhiteSpace c = true := by
  refine ⟨s.rtakeWhile isWhiteSpace, ?_, fun c hc => mem_rtakeWhile_imp hc⟩
  rw [trimEnd, List.rdropWhile, List.rtakeWhile, ← reverse_append,
    takeWhile_append_dropWhile, reverse_reverse]

theorem trim_usbScheme (rest : PathText) : trim (usbScheme ++ rest) = usbScheme ++ trimEnd rest :=
  trim_append (ne_nil_of_head (head_usbScheme [])) (by decide) rest

theorem trim_byPathScheme (rest : PathText) :
    trim (byPathScheme ++ rest) = byPathScheme ++ trimEnd rest :=
  trim_append (ne_nil_of_head (head_byPathScheme [])) (by decide) rest

theorem trim_rawScheme (rest : PathText) : trim (rawScheme ++ rest) = rawScheme ++ trimEnd rest :=
  trim_append (ne_nil_of_head (head_rawScheme [])) (by decide) rest

namespace Resolver

variable {r : Resolver} {fs : FileSystem}

def Under (r : Resolver) (p : PathText) : Prop :=
  ∃ rest, components p = components r.devRoot ++ rest ∧ Component.parent ∉ rest

theorem components_rooted (r : Resolver) (path : PathText) :
    components (r.rooted path) =
      components r.devRoot ++ (parts path).filterMap Component.ofPart := by
  rw [rooted, components_join r.devRoot_ne (isAbsolute_dropWhile path), inner_dropWhile]

variable {name path input q port text identity p : PathText} {res : Resolved} {fs' : FileSystem}

theorem components_devPath (hn : isFileName name = true) :
    components (r.devPath name) =
      components r.devRoot ++ [.normal "dev".toList, .normal name] := by
  rw [devPath, components_join_fileName hn r.devDir_ne, devDir,
    components_join_fileName (by decide) r.devRoot_ne, append_assoc]
  rfl

theorem under_devPath (hn : isFileName name = true) : r.Under (r.devPath name) :=
  ⟨_, components_devPath hn, by simp⟩

theorem under_rooted (hparent : Component.parent ∉ components path) : r.Under (r.rooted path) :=
  ⟨_, components_rooted r path, fun hm => hparent (mem_append_right _ hm)⟩

theorem checkLiteral_ok (h : r.checkLiteral fs input path = .ok q) :
    Component.parent ∉ components path ∧ q = r.rooted path := by
  unfold checkLiteral at h
  split at h
  · cases h
  · next hparent =>
    split at h
    · cases h
    · cases h
      exact ⟨hparent, rfl⟩

theorem literalDevPath_some (h : r.literalDevPath fs path = some q) :
    Component.parent ∉ components path ∧ q = r.rooted path ∧ isDevNode fs q = true := by
  unfold literalDevPath at h
  split at h
  · next hok =>
    split at h
    · next hnode =>
      cases h
      obtain ⟨hparent, rfl⟩ := checkLiteral_ok hok
      exact ⟨hparent, rfl, hnode⟩
    · cases h
  · cases h

theorem bypathLookup_some (h : r.bypathLookup fs port = some q) :
    ∃ name, linkName fs (join r.byPathDir port) = some name ∧ isFileName name = true ∧
      isDevNode fs q = true ∧ q = r.devPath name := by
  unfold bypathLookup at h
  split at h
  · cases h
  · next name hlink =>
    split at h
    · next hnode =>
      cases h
      obtain ⟨target, -, hname⟩ := Option.bind_eq_some_iff.mp hlink
      exact ⟨name, hlink, isFileName_fileName hname, hnode, rfl⟩
    · cases h

theorem exists_append_of_location {d canon : List PathText} (h : location d <+: location canon) :
    ∃ names, canon = d ++ names := by
  obtain ⟨rest, hrest⟩ := h
  have htail : canon.map Component.normal = d.map Component.normal ++ rest :=
    (List.cons.inj hrest).2.symm
  obtain ⟨d', names, rfl, hd, -⟩ := map_eq_append_iff.mp htail
  have hinj : Function.Injective Component.normal := fun a b hab => Component.normal.inj hab
  exact ⟨names, congrArg (· ++ names) (map_injective_iff.mpr hinj hd)⟩

theorem canonicalDev_spec (hparent : Component.parent ∉ components input)
    (hnode : isDevNode fs (r.rooted input) = true) :
    ∃ raw, r.canonicalDev fs (r.rooted input) input = (r.rooted raw, raw) ∧
      isDevNode fs (r.rooted raw) = true ∧ Component.parent ∉ components raw := by
  unfold canonicalDev
  cases hcanon : fs.canonicalize (r.rooted input) with
  | none => exact ⟨input, rfl, hnode, hparent⟩
  | some canon =>
    obtain ⟨-, d, hd, -⟩ :=
      FileSystem.canonicalize_of_join r.devRoot_ne (isAbsolute_dropWhile input) hcanon
    dsimp only
    rw [hd, Option.map_some, Option.getD_some]
    split
    · next hprefix =>
      obtain ⟨names, rfl⟩ := exists_append_of_location (List.isPrefixOf_iff_prefix.mp hprefix)
      have hrel : (location (d ++ names)).drop (location d).length =
          names.map Component.normal := by
        simp [location]
      have htext : (names.map Component.normal).map Component.text = names := by
        simp [Function.comp_def, Component.text]
      rw [hrel, htext]
      split
      · exact ⟨input, rfl, hnode, hparent⟩
      · next hne =>
        have hne : names ≠ [] := fun h => hne (by rw [h]; rfl)
        have hcanonical := FileSystem.canonicalize_canonical hcanon
        have hnames : ∀ name ∈ names, isFileName name = true := fun name hn =>
          hcanonical.isFileName (mem_append_right d hn)
        have hdrop : (absolute names).dropWhile (· = '/') = ['/'].intercalate names := by
          rw [absolute, dropWhile_cons_of_pos (by simp)]
          exact dropWhile_of_relative (isAbsolute_intercalate hne hnames)
        have hsame : fs.canonicalize (r.rooted (absolute names)) = some (d ++ names) := by
          rw [rooted, hdrop]
          exact FileSystem.canonicalize_join_names r.devRoot_ne hd hcanonical hne
        refine ⟨absolute names, rfl, ?_, ?_⟩
        · unfold isDevNode FileSystem.metadata at hnode ⊢
          rw [hsame]
          rw [hcanon] at hnode
          exact hnode
        · simp [components_absolute hne hnames]
    · exact ⟨input, rfl, hnode, hparent⟩

theorem captureFromPath_ok (h : r.captureFromPath fs input = .ok res) :
    ∃ raw, res = r.captureForDev fs ((fileName (r.rooted raw)).getD []) (r.rooted raw) raw ∧
      isDevNode fs (r.rooted raw) = true ∧ Component.parent ∉ components raw := by
  unfold captureFromPath at h
  split at h
  · cases h
  · split at h
    · cases h
    · next rooted hok =>
      obtain ⟨hparent, rfl⟩ := checkLiteral_ok hok
      split at h
      · cases h
      · next hnode =>
        obtain ⟨raw, hraw, hspec⟩ := canonicalDev_spec hparent (Bool.not_eq_false _ ▸ hnode)
        rw [hraw] at h
        cases h
        exact ⟨raw, rfl, hspec⟩

theorem resolveInput_absolute (habs : isAbsolute (trim text) = true) :
    r.resolveInput fs text = r.captureFromPath fs (trim text) := by
  have hhead : (trim text).head? = some '/' := of_decide_eq_true habs
  unfold resolveInput
  dsimp only
  have hscheme : ∀ scheme c, scheme.head? = some c → c ≠ '/' →
      stripScheme scheme (trim text) = none := fun scheme c hc hne =>
    stripScheme_of_head hc (by rw [hhead]; exact fun h => hne (Option.some.inj h).symm)
  rw [if_neg (ne_nil_of_head hhead), hscheme usbScheme 'u' rfl (by decide),
    hscheme byPathScheme 'b' rfl (by decide), hscheme rawScheme 'r' rfl (by decide)]
  exact if_pos habs

def Returns (r : Resolver) (fs : FileSystem) (text p : PathText) : Prop :=
  r.resolveCurrentPath fs text = some p ∨
    ∃ res, r.resolveInput fs text = .ok res ∧ res.path = some p

theorem under_of_mem_sysfsUsbDevices {d : PathText × UsbInfo} (h : d ∈ r.sysfsUsbDevices fs) :
    r.Under d.1 := by
  obtain ⟨name, hpresent, hd⟩ := mem_sysfsUsbDevices.mp h
  exact hd ▸ under_devPath hpresent.isFileName

theorem under_of_findUsb (h : (r.findUsb fs identity).map (·.1) = some p) : r.Under p := by
  obtain ⟨d, hd, rfl⟩ := Option.map_eq_some_iff.mp h
  have hmem : d ∈ r.usbIdentityMatches fs identity := findUsb_eq_some.mp hd ▸ mem_singleton_self d
  exact under_of_mem_sysfsUsbDevices (mem_of_mem_filter hmem)

theorem under_of_bypathLookup (h : r.bypathLookup fs port = some p) : r.Under p := by
  obtain ⟨name, -, hn, -, rfl⟩ := bypathLookup_some h
  exact under_devPath hn

theorem under_of_literalDevPath (h : r.literalDevPath fs path = some p) : r.Under p := by
  obtain ⟨hparent, rfl, -⟩ := literalDevPath_some h
  exact under_rooted hparent

theorem under_of_resolveCurrentPath (h : r.resolveCurrentPath fs text = some p) : r.Under p := by
  unfold resolveCurrentPath at h
  dsimp only at h
  split at h
  · exact under_of_findUsb h
  · exact under_of_bypathLookup h
  · exact under_of_literalDevPath h
  · split at h
    · exact under_of_literalDevPath h
    · split at h
      · obtain ⟨d, hd, rfl⟩ := Option.map_eq_some_iff.mp h
        exact under_of_mem_sysfsUsbDevices (mem_devicesWithSerial (mem_of_getLast? hd)).2.1
      · cases h

theorem under_of_resolveRawIdentity {rest : PathText}
    (h : r.resolveRawIdentity fs input rest = .ok res) (hp : res.path = some p) : r.Under p := by
  unfold resolveRawIdentity at h
  split at h
  · cases h
  · split at h
    · cases h
    · next hok =>
      cases h
      obtain ⟨hparent, rfl⟩ := checkLiteral_ok hok
      dsimp only at hp
      split at hp
      · cases hp
        exact under_rooted hparent
      · cases hp

theorem under_of_resolveInput (h : r.resolveInput fs text = .ok res) (hp : res.path = some p) :
    r.Under p := by
  unfold resolveInput at h
  dsimp only at h
  split at h
  · cases h
  · split at h
    · exact under_of_findUsb ((resolveUsbIdentity_path h).symm.trans hp)
    · unfold resolveBypathIdentity at h
      split at h
      · cases h
      · cases h
        exact under_of_bypathLookup hp
    · exact under_of_resolveRawIdentity h hp
    · split at h
      · obtain ⟨raw, rfl, -, hparent⟩ := captureFromPath_ok h
        rw [(captureForDev_cases r fs _ _ raw).1] at hp
        cases hp
        exact under_rooted hparent
      · obtain ⟨q, hq, hbinds⟩ := captureFromSerial_bindsTo h
        rw [hq] at hp
        cases hp
        exact under_of_resolveCurrentPath hbinds.2

theorem Returns.under (h : r.Returns fs text p) : r.Under p := by
  rcases h with h | ⟨res, h, hp⟩
  · exact under_of_resolveCurrentPath h
  · exact under_of_resolveInput h hp

def SoleBearer (r : Resolver) (fs : FileSystem) (identity p : PathText) : Prop :=
  ∃ name info, Present r fs name info ∧ p = r.devPath name ∧ info.identity = identity ∧
    ∀ other info', Present r fs other info' → info'.identity = identity → other = name

theorem soleBearer_of_findUsb (h : (r.findUsb fs identity).map (·.1) = some p) :
    r.SoleBearer fs identity p := by
  obtain ⟨d, hd, rfl⟩ := Option.map_eq_some_iff.mp h
  rw [findUsb_eq_some] at hd
  have hmem : d ∈ r.usbIdentityMatches fs identity := hd ▸ mem_singleton_self d
  obtain ⟨name, hpresent, hpath, hid⟩ := mem_usbIdentityMatches.mp hmem
  refine ⟨name, d.2, hpresent, hpath, hid, fun other info' hother hid' => ?_⟩
  have hmem' : (r.devPath other, info') ∈ r.usbIdentityMatches fs identity :=
    mem_usbIdentityMatches.mpr ⟨other, hother, rfl, hid'⟩
  rw [hd, mem_singleton] at hmem'
  have hsame : r.devPath other = r.devPath name := (congrArg Prod.fst hmem').trans hpath
  exact devPath_inj hother.isFileName hpresent.isFileName hsame

theorem findUsb_congr (h : r.sysfsUsbDevices fs' = r.sysfsUsbDevices fs) (identity : PathText) :
    r.findUsb fs' identity = r.findUsb fs identity := by
  refine Option.ext fun d => ?_
  rw [findUsb_eq_some, findUsb_eq_some, usbIdentityMatches, usbIdentityMatches, h]

theorem resolveUsbIdentity_congr (h : r.sysfsUsbDevices fs' = r.sysfsUsbDevices fs)
    (input rest : PathText) :
    r.resolveUsbIdentity fs' input rest = r.resolveUsbIdentity fs input rest := by
  unfold resolveUsbIdentity
  rw [findUsb_congr h, usbIdentityMatches, usbIdentityMatches, h]

theorem usb_text_binds_sole_bearer (r : Resolver) (fs : FileSystem) :
    (∀ device, usbScheme <+: device →
      (∀ p, r.Returns fs device p →
        r.SoleBearer fs (trim device) p ∧ isDevNode fs p = true ∧ r.Under p) ∧
      ∀ fs', r.sysfsUsbDevices fs' = r.sysfsUsbDevices fs →
        r.resolveCurrentPath fs' device = r.resolveCurrentPath fs device ∧
          r.resolveInput fs' device = r.resolveInput fs device) ∧
      ∀ device p, r.Returns fs device p → r.Under p := by
  refine ⟨?_, fun device p h => h.under⟩
  rintro device ⟨text, rfl⟩
  have htrim := trim_usbScheme text
  refine ⟨fun p hp => ?_, fun fs' hsame => ⟨?_, ?_⟩⟩
  · have hbearer : r.SoleBearer fs (trim (usbScheme ++ text)) p := by
      rcases hp with h | ⟨res, h, hpath⟩
      · rw [resolveCurrentPath_usb htrim] at h
        exact soleBearer_of_findUsb h
      · rw [resolveInput_usb htrim] at h
        exact soleBearer_of_findUsb ((resolveUsbIdentity_path h).symm.trans hpath)
    refine ⟨hbearer, ?_, hp.under⟩
    obtain ⟨name, info, hpresent, rfl, -⟩ := hbearer
    exact hpresent.node
  · rw [resolveCurrentPath_usb htrim, resolveCurrentPath_usb htrim, findUsb_congr hsame]
  · rw [resolveInput_usb htrim, resolveInput_usb htrim, resolveUsbIdentity_congr hsame]

def benchDevices : List (PathText × UsbInfo) :=
  [("/dev/ttyUSB0", "A1"), ("/dev/ttyUSB1", "C7"), ("/dev/ttyUSB2", "C7")].map fun d =>
    (d.1.toList,
      { identity := ("usb:0403:6001:" ++ d.2 ++ ":00").toList
        description := ("USB 0403:6001, serial " ++ d.2 ++ ", interface 00").toList })

theorem usb_text_binds_sole_bearer_bench :
    production.Returns swappedBench "usb:0403:6001:A1:00".toList "/dev/ttyUSB0".toList ∧
      production.SoleBearer swappedBench "usb:0403:6001:A1:00".toList "/dev/ttyUSB0".toList ∧
      production.resolveInput staleBench "usb:0403:6001:A1:00".toList =
        production.resolveInput swappedBench "usb:0403:6001:A1:00".toList := by
  have hreturns : production.Returns swappedBench "usb:0403:6001:A1:00".toList
      "/dev/ttyUSB0".toList := .inl (by decide +kernel)
  have hspec := (usb_text_binds_sole_bearer production swappedBench).1
    "usb:0403:6001:A1:00".toList (List.isPrefixOf_iff_prefix.mp (by decide +kernel))
  have htrim : trim "usb:0403:6001:A1:00".toList = "usb:0403:6001:A1:00".toList := by
    decide +kernel
  have hstale : production.sysfsUsbDevices staleBench = benchDevices := by decide +kernel
  have hswapped : production.sysfsUsbDevices swappedBench = benchDevices := by decide +kernel
  rw [htrim] at hspec
  exact ⟨hreturns, (hspec.1 _ hreturns).1, (hspec.2 staleBench (hstale.trans hswapped.symm)).2⟩

theorem usb_text_trimmed_and_by_id_makes_present :
    (production.Returns staleBench "usb:0403:6001:A1:00 ".toList "/dev/ttyUSB0".toList ∧
        ¬ production.SoleBearer staleBench "usb:0403:6001:A1:00 ".toList "/dev/ttyUSB0".toList) ∧
      production.resolveCurrentPath (linkedBench [entry "usb-A1" (.link "../../bus0".toList)])
          "usb:0403:6001:A1:00".toList = some "/dev/ttyUSB0".toList ∧
      production.resolveCurrentPath (linkedBench []) "usb:0403:6001:A1:00".toList = none := by
  refine ⟨⟨.inl (by decide +kernel), ?_⟩, by decide +kernel, by decide +kernel⟩
  rintro ⟨name, info, hpresent, -, hid, -⟩
  have hmem : (production.devPath name, info) ∈ production.sysfsUsbDevices staleBench :=
    mem_sysfsUsbDevices.mpr ⟨name, hpresent, rfl⟩
  have hother : ∀ d ∈ production.sysfsUsbDevices staleBench,
      d.2.identity ≠ "usb:0403:6001:A1:00 ".toList := by decide +kernel
  exact hother _ hmem hid

def InDev (r : Resolver) (p : PathText) : Prop :=
  ∃ name, isFileName name = true ∧ components p = components (r.devPath name)

theorem fileName_congr (h : components p = components q) : fileName p = fileName q := by
  unfold fileName
  rw [h]

theorem isDevNode_devPath (hn : isFileName name = true)
    (hc : components p = components (r.devPath name)) (h : isDevNode fs p = true) :
    isDevNode fs (r.devPath name) = true := by
  unfold isDevNode FileSystem.metadata at h ⊢
  cases hcanon : fs.canonicalize p with
  | none =>
    rw [hcanon] at h
    cases h
  | some loc =>
    rw [devPath, FileSystem.canonicalize_of_components r.devDir_ne hn hc hcanon]
    rwa [hcanon] at h

def FoundAgain (r : Resolver) (fs : FileSystem) (res : Resolved) (p : PathText) : Prop :=
  match res.kind with
  | .usb => r.InDev p
  | .byPath => r.InDev p ∧ ∃ port, res.identity = byPathScheme ++ port ∧
      linkName fs (join r.byPathDir (trimEnd port)) = fileName p
  | .raw => trim res.identity = res.identity

theorem resolveCurrentPath_usbIdentity (h : IsUsbIdentity identity) :
    r.resolveCurrentPath fs identity = (r.findUsb fs identity).map (·.1) := by
  obtain ⟨vid, pid, serial, iface, -, -, -, hiface, rfl⟩ := h
  have htrim := (trimmed_usbIdentity vid pid serial hiface).trim_eq
  have hscheme : trim (usbIdentity vid pid serial iface) = usbScheme ++ _ := htrim
  rw [resolveCurrentPath_usb hscheme, htrim]

section found
variable {raw : PathText} (hnode : isDevNode fs (r.rooted raw) = true)
include hnode

theorem found_usb_iff {info : UsbInfo}
    (hinfo : r.sysfsLookup fs ((fileName (r.rooted raw)).getD []) = some info)
    (hfew : (r.usbIdentityMatches fs info.identity).length ≤ 1) :
    (r.resolveCurrentPath fs info.identity).map components = some (components (r.rooted raw)) ↔
      r.InDev (r.rooted raw) := by
  have hidentity := (sysfsLookup_spec hinfo).2
  rw [resolveCurrentPath_usbIdentity hidentity]
  constructor
  · intro h
    obtain ⟨q, hq, hc⟩ := Option.map_eq_some_iff.mp h
    obtain ⟨name, _, hpresent, rfl, -⟩ := soleBearer_of_findUsb hq
    exact ⟨name, hpresent.isFileName, hc.symm⟩
  · rintro ⟨name, hn, hc⟩
    have hbase : fileName (r.rooted raw) = some name :=
      (fileName_congr hc).trans (fileName_devPath hn)
    rw [hbase] at hinfo
    have hpresent : Present r fs name info := ⟨hn, isDevNode_devPath hn hc hnode, hinfo⟩
    rw [hpresent.findUsb hfew, hc]
    rfl

theorem found_byPath_iff (port : PathText) :
    (r.resolveCurrentPath fs (byPathScheme ++ port)).map components =
        some (components (r.rooted raw)) ↔
      r.InDev (r.rooted raw) ∧
        linkName fs (join r.byPathDir (trimEnd port)) = fileName (r.rooted raw) := by
  rw [resolveCurrentPath_byPath (trim_byPathScheme port)]
  constructor
  · intro h
    obtain ⟨q, hq, hc⟩ := Option.map_eq_some_iff.mp h
    obtain ⟨name, hlink, hn, -, rfl⟩ := bypathLookup_some hq
    refine ⟨⟨name, hn, hc.symm⟩, ?_⟩
    rw [hlink, ← fileName_congr hc, fileName_devPath hn]
  · rintro ⟨⟨name, hn, hc⟩, hlink⟩
    rw [(fileName_congr hc).trans (fileName_devPath hn)] at hlink
    rw [bypathLookup, hlink, hc]
    dsimp only
    rw [if_pos (isDevNode_devPath hn hc hnode)]
    rfl

theorem found_raw_iff (hparent : Component.parent ∉ components raw) :
    (r.resolveCurrentPath fs (rawScheme ++ raw)).map components = some (components (r.rooted raw)) ↔
      trimEnd raw = raw := by
  rw [resolveCurrentPath_raw (trim_rawScheme raw)]
  constructor
  · intro h
    obtain ⟨q, hq, hc⟩ := Option.map_eq_some_iff.mp h
    obtain ⟨-, rfl, -⟩ := literalDevPath_some hq
    rw [components_rooted, components_rooted, append_cancel_left_eq] at hc
    obtain ⟨w, hw, hspace⟩ := exists_trimEnd raw
    have hmark : ∀ c ∈ w, c ≠ '/' ∧ c ≠ '.' := by
      intro c hcw
      have hc := hspace c hcw
      constructor
      · rintro rfl
        exact absurd hc (by decide)
      · rintro rfl
        exact absurd hc (by decide)
    have hsame : (parts (trimEnd raw ++ w)).filterMap Component.ofPart =
        (parts (trimEnd raw)).filterMap Component.ofPart := by
      rw [← hw]
      exact hc.symm
    have hnil := eq_nil_of_inner_append hmark hsame
    rw [hnil, append_nil] at hw
    exact hw.symm
  · intro h
    rw [h, literalDevPath_eq hparent hnode]
    rfl

end found

theorem captured_path_found_iff (r : Resolver) (fs : FileSystem) {text p : PathText} {res : Resolved}
    (habs : isAbsolute (trim text) = true) (h : r.resolveInput fs text = .ok res)
    (hp : res.path = some p) :
    (r.resolveCurrentPath fs res.identity).map components = some (components p) ↔
      r.FoundAgain fs res p := by
  rw [resolveInput_absolute habs] at h
  obtain ⟨raw, rfl, hnode, hparent⟩ := captureFromPath_ok h
  obtain ⟨hpath, hends⟩ :=
    captureForDev_cases r fs ((fileName (r.rooted raw)).getD []) (r.rooted raw) raw
  rw [hpath] at hp
  cases hp
  unfold FoundAgain
  rcases hends with ⟨info, hinfo, hfew, hkind, hid⟩ | ⟨port, -, hkind, hid⟩ | ⟨hkind, hid⟩
  · rw [hkind, hid]
    exact found_usb_iff hnode hinfo hfew
  · rw [hkind, hid, found_byPath_iff hnode port]
    refine and_congr_right fun _ => ⟨fun hlink => ⟨port, rfl, hlink⟩, ?_⟩
    rintro ⟨port', hport, hlink⟩
    rwa [append_cancel_left hport]
  · rw [hkind, hid, found_raw_iff hnode hparent, trim_rawScheme]
    exact (append_cancel_left_eq ..).symm.to_iff

theorem captured_path_found_iff_port :
    production.resolveInput staleBench "/dev/serial/by-path/pci-1".toList =
        .ok
          { identity := "by-path:pci-1".toList
            path := some "/dev/ttyUSB1".toList
            kind := .byPath
            description := "topology port pci-1 (ttyUSB1)".toList
            warning := some byPathWarning } ∧
      (production.resolveCurrentPath staleBench "by-path:pci-1".toList).map components =
        some (components "/dev/ttyUSB1".toList) := by
  have hcapture : production.resolveInput staleBench "/dev/serial/by-path/pci-1".toList =
      .ok
        { identity := "by-path:pci-1".toList
          path := some "/dev/ttyUSB1".toList
          kind := .byPath
          description := "topology port pci-1 (ttyUSB1)".toList
          warning := some byPathWarning } := by
    decide +kernel
  refine ⟨hcapture, (captured_path_found_iff production staleBench (by decide) hcapture rfl).mpr ?_⟩
  exact ⟨⟨"ttyUSB1".toList, by decide, by decide +kernel⟩, "pci-1".toList, by decide +kernel, by decide +kernel⟩

theorem captured_nested_path_found_elsewhere :
    production.resolveInput muxBench "/dev/mux/ttyUSB0".toList =
        .ok
          { identity := "usb:0403:6001:A1:00".toList
            path := some "/dev/mux/ttyUSB0".toList
            kind := .usb
            description := "USB 0403:6001, serial A1, interface 00".toList
            warning := none } ∧
      production.resolveCurrentPath muxBench "usb:0403:6001:A1:00".toList =
        some "/dev/ttyUSB0".toList ∧
      components "/dev/mux/ttyUSB0".toList ≠ components "/dev/ttyUSB0".toList ∧
      muxBench.canonicalize "/dev/mux/ttyUSB0".toList ≠
        muxBench.canonicalize "/dev/ttyUSB0".toList := by
  exact ⟨by decide +kernel, by decide +kernel, by decide +kernel, by decide +kernel⟩

end Resolver
end SerialNexus
