import SerialNexus.ResolverIdentity

/-! # What an identity binds

A usb identity binds the one present device that has it: `findUsb_eq_some` says that the by-id tree,
with whatever links it has, changes nothing about this. -/

namespace SerialNexus

open List PathText

namespace Resolver

variable {r : Resolver} {fs : FileSystem}

theorem devDir_ne (r : Resolver) : r.devDir ≠ [] := join_ne_nil r.devRoot_ne _

theorem ttyDir_ne (r : Resolver) : r.ttyDir ≠ [] := join_ne_nil r.sysRoot_ne _

variable {name identity : PathText} {info : UsbInfo} {d : PathText × UsbInfo}

theorem rooted_rawName (hn : isFileName name = true) :
    r.rooted (rawName name) = r.devPath name := by
  have hdrop : (rawName name).dropWhile (· = '/') = "dev".toList ++ '/' :: name := rfl
  rw [rooted, hdrop, devPath, devDir, join_join (by decide) rfl (by decide) (isAbsolute_fileName hn)]

theorem fileName_devPath (hn : isFileName name = true) :
    fileName (r.devPath name) = some name := fileName_join hn r.devDir_ne

theorem devPath_inj {a b : PathText} (ha : isFileName a = true) (hb : isFileName b = true)
    (h : r.devPath a = r.devPath b) : a = b := by
  have hname := fileName_devPath (r := r) ha
  rw [h, fileName_devPath hb] at hname
  exact (Option.some.inj hname).symm

theorem isFileName_of_readDir {dir : PathText} {names : List PathText}
    (h : fs.readDir dir = some names) (hn : name ∈ names) : isFileName name = true := by
  obtain ⟨d, -, hd⟩ := Option.bind_eq_some_iff.mp h
  obtain ⟨c, hc⟩ := Option.isSome_iff_exists.mp ((FileTree.mem_list_iff hd name).mp hn)
  exact FileTree.isFileName_of_child hc

theorem mem_ttyDir_of_sysfsLookup (hn : isFileName name = true)
    (h : r.sysfsLookup fs name = some info) :
    ∃ names, fs.readDir r.ttyDir = some names ∧ name ∈ names := by
  obtain ⟨start, hstart⟩ := (sysfsLookup_spec h).1
  obtain ⟨k, d, hd, -⟩ := FileSystem.canonicalize_of_join (join_ne_nil r.ttyDir_ne name) rfl hstart
  rw [FileSystem.canonicalize_join r.ttyDir_ne (isAbsolute_fileName hn), parts_fileName hn] at hd
  exact FileSystem.mem_readDir r.ttyDir_ne hn hd

structure Present (r : Resolver) (fs : FileSystem) (name : PathText) (info : UsbInfo) : Prop where
  isFileName : isFileName name = true
  node : isDevNode fs (r.devPath name) = true
  sysfs : r.sysfsLookup fs name = some info

theorem mem_sysfsUsbDevices :
    d ∈ r.sysfsUsbDevices fs ↔ ∃ name, Present r fs name d.2 ∧ d.1 = r.devPath name := by
  constructor
  · intro h
    unfold sysfsUsbDevices at h
    split at h
    · cases h
    · next names hnames =>
      obtain ⟨name, hname, hd⟩ := mem_filterMap.mp h
      split at hd
      · next hnode =>
        obtain ⟨info, hinfo, rfl⟩ := Option.map_eq_some_iff.mp hd
        have hmem := (List.perm_insertionSort _ names).mem_iff.mp hname
        exact ⟨name, ⟨isFileName_of_readDir hnames hmem, hnode, hinfo⟩, rfl⟩
      · cases hd
  · rintro ⟨name, hp, hd⟩
    obtain ⟨names, hnames, hmem⟩ := mem_ttyDir_of_sysfsLookup hp.isFileName hp.sysfs
    unfold sysfsUsbDevices
    rw [hnames]
    refine mem_filterMap.mpr ⟨name, (List.perm_insertionSort _ names).mem_iff.mpr hmem, ?_⟩
    rw [if_pos hp.node, hp.sysfs, Option.map_some, ← hd]

theorem mem_usbIdentityMatches :
    d ∈ r.usbIdentityMatches fs identity ↔
      ∃ name, Present r fs name d.2 ∧ d.1 = r.devPath name ∧ d.2.identity = identity := by
  rw [usbIdentityMatches, mem_filter, mem_sysfsUsbDevices, decide_eq_true_eq]
  constructor
  · rintro ⟨⟨name, hp, hd⟩, hi⟩
    exact ⟨name, hp, hd, hi⟩
  · rintro ⟨name, hp, hd, hi⟩
    exact ⟨⟨name, hp, hd⟩, hi⟩

theorem findUsbById_mem (h : r.findUsbById fs identity = some d) :
    d ∈ r.usbIdentityMatches fs identity := by
  unfold findUsbById at h
  split at h
  · cases h
  · next entries _ =>
    obtain ⟨entry, -, hentry⟩ := exists_of_findSome?_eq_some h
    split at hentry
    · cases hentry
    · next devName hlink =>
      split at hentry
      · cases hentry
      · next info hinfo =>
        split at hentry
        · next hmatch =>
          cases hentry
          obtain ⟨target, -, hname⟩ := Option.bind_eq_some_iff.mp hlink
          exact mem_usbIdentityMatches.mpr
            ⟨devName, ⟨isFileName_fileName hname, hmatch.2, hinfo⟩, rfl, hmatch.1⟩
        · cases hentry

theorem findUsb_eq_some :
    r.findUsb fs identity = some d ↔ r.usbIdentityMatches fs identity = [d] := by
  unfold findUsb
  by_cases hmany : 1 < (r.usbIdentityMatches fs identity).length
  · rw [if_pos hmany]
    refine ⟨nofun, fun h => ?_⟩
    rw [h] at hmany
    simp at hmany
  · rw [if_neg hmany]
    cases hm : r.usbIdentityMatches fs identity with
    | nil =>
      cases hb : r.findUsbById fs identity with
      | none => simp
      | some d' =>
        have hmem := findUsbById_mem hb
        rw [hm] at hmem
        cases hmem
    | cons d₀ rest =>
      obtain rfl : rest = [] := by
        rw [hm, length_cons] at hmany
        exact length_eq_zero_iff.mp (by omega)
      cases hb : r.findUsbById fs identity with
      | none => simp
      | some d' =>
        have hmem := findUsbById_mem hb
        rw [hm, mem_singleton] at hmem
        simp [hmem]

theorem Present.findUsb (h : Present r fs name info)
    (hfew : (r.usbIdentityMatches fs info.identity).length ≤ 1) :
    r.findUsb fs info.identity = some (r.devPath name, info) := by
  have hmem : (r.devPath name, info) ∈ r.usbIdentityMatches fs info.identity :=
    mem_usbIdentityMatches.mpr ⟨name, h, rfl, rfl⟩
  rw [findUsb_eq_some]
  cases hm : r.usbIdentityMatches fs info.identity with
  | nil =>
    rw [hm] at hmem
    cases hmem
  | cons d rest =>
    obtain rfl : rest = [] := by
      rw [hm, length_cons] at hfew
      exact length_eq_zero_iff.mp (by omega)
    rw [hm, mem_singleton] at hmem
    rw [hmem]

section schemes
variable {text rest : PathText}

theorem resolveCurrentPath_usb (h : trim text = usbScheme ++ rest) :
    r.resolveCurrentPath fs text = (r.findUsb fs (trim text)).map (·.1) := by
  unfold resolveCurrentPath
  dsimp only
  rw [h, stripScheme_append]

theorem resolveInput_usb (h : trim text = usbScheme ++ rest) :
    r.resolveInput fs text = r.resolveUsbIdentity fs (trim text) rest := by
  unfold resolveInput
  dsimp only
  rw [h, stripScheme_append, if_neg (ne_nil_of_head (head_usbScheme rest))]

theorem resolveCurrentPath_byPath (h : trim text = byPathScheme ++ rest) :
    r.resolveCurrentPath fs text = r.bypathLookup fs rest := by
  unfold resolveCurrentPath
  dsimp only
  rw [h, stripScheme_usb_byPath, stripScheme_append]

theorem resolveInput_byPath (h : trim text = byPathScheme ++ rest) :
    r.resolveInput fs text = r.resolveBypathIdentity fs (trim text) rest := by
  unfold resolveInput
  dsimp only
  rw [h, stripScheme_usb_byPath, stripScheme_append,
    if_neg (ne_nil_of_head (head_byPathScheme rest))]

theorem resolveCurrentPath_raw (h : trim text = rawScheme ++ rest) :
    r.resolveCurrentPath fs text = r.literalDevPath fs rest := by
  unfold resolveCurrentPath
  dsimp only
  rw [h, stripScheme_usb_raw, stripScheme_byPath_raw, stripScheme_append]

theorem resolveInput_raw (h : trim text = rawScheme ++ rest) :
    r.resolveInput fs text = r.resolveRawIdentity fs (trim text) rest := by
  unfold resolveInput
  dsimp only
  rw [h, stripScheme_usb_raw, stripScheme_byPath_raw, stripScheme_append,
    if_neg (ne_nil_of_head (head_rawScheme rest))]

end schemes

variable {input path name serial : PathText} {res : Resolved} {d : PathText × UsbInfo}
  {c : PortCandidate} {info : UsbInfo}

theorem resolveUsbIdentity_path {rest : PathText}
    (h : r.resolveUsbIdentity fs input rest = .ok res) :
    res.path = (r.findUsb fs input).map (·.1) := by
  unfold resolveUsbIdentity at h
  dsimp only at h
  split at h
  · cases h
  · split at h
    · cases h
    · split at h
      · next hmany =>
        cases h
        rw [findUsb, if_pos hmany]
        rfl
      · cases h
        rfl

def BindsTo (r : Resolver) (fs : FileSystem) (text path : PathText) : Prop :=
  (∃ res, r.resolveInput fs text = .ok res ∧ res.path = some path) ∧
    r.resolveCurrentPath fs text = some path

theorem bindsTo_usb {identity : PathText} (h : IsUsbIdentity identity)
    (hd : r.findUsb fs identity = some d) : r.BindsTo fs identity d.1 := by
  obtain ⟨vid, pid, serial, iface, hvid, hpid, hserial, hiface, rfl⟩ := h
  have htrim := (trimmed_usbIdentity vid pid serial hiface).trim_eq
  have hscheme : trim (usbIdentity vid pid serial iface) = usbScheme ++ _ := htrim
  have hfields := splitOn_usbIdentity hvid hpid hserial hiface
  have hnonempty : ∀ f, IsField f → trim f ≠ [] := fun f hf =>
    hf.trimmed.trim_eq.symm ▸ hf.nonempty
  have haccepted : ∃ res, r.resolveUsbIdentity fs (usbIdentity vid pid serial iface)
      (([':'] : PathText).intercalate [vid, pid, serial, iface]) = .ok res := by
    unfold resolveUsbIdentity
    dsimp only
    rw [hfields, if_neg (by simp), if_neg (by
      simp [hnonempty vid hvid, hnonempty pid hpid, hnonempty serial hserial,
        hnonempty iface hiface])]
    split
    · exact ⟨_, rfl⟩
    · exact ⟨_, rfl⟩
  constructor
  · obtain ⟨res, hres⟩ := haccepted
    refine ⟨res, ?_, ?_⟩
    · rw [resolveInput_usb hscheme, htrim]
      exact hres
    · rw [resolveUsbIdentity_path hres, hd]
      rfl
  · rw [resolveCurrentPath_usb hscheme, htrim, hd]
    rfl

theorem bindsTo_byPath {port : PathText} (hne : port ≠ []) (ht : Trimmed (byPathScheme ++ port))
    (hp : r.bypathLookup fs port = some path) : r.BindsTo fs (byPathScheme ++ port) path := by
  refine ⟨?_, (resolveCurrentPath_byPath ht.trim_eq).trans hp⟩
  rw [resolveInput_byPath ht.trim_eq, resolveBypathIdentity, if_neg hne]
  exact ⟨_, rfl, hp⟩

theorem isDir_of_isDevNode {p : PathText} (h : isDevNode fs p = true) : fs.isDir p = false := by
  unfold isDevNode at h
  unfold FileSystem.isDir
  cases hm : fs.metadata p with
  | none => rfl
  | some node =>
    rw [hm, Option.any_some, Option.isNone_iff_eq_none] at h
    rw [Option.bind_some, h]
    rfl

theorem checkLiteral_eq (hparent : Component.parent ∉ components path)
    (hnode : isDevNode fs (r.rooted path) = true) :
    r.checkLiteral fs input path = .ok (r.rooted path) := by
  rw [checkLiteral, if_neg hparent, if_neg (by simp [isDir_of_isDevNode hnode])]

theorem literalDevPath_eq (hparent : Component.parent ∉ components path)
    (hnode : isDevNode fs (r.rooted path) = true) :
    r.literalDevPath fs path = some (r.rooted path) := by
  unfold literalDevPath
  rw [checkLiteral_eq hparent hnode]
  exact if_pos hnode

theorem bindsTo_raw (hne : path.dropWhile (· = '/') ≠ []) (ht : Trimmed (rawScheme ++ path))
    (hparent : Component.parent ∉ components path) (hnode : isDevNode fs (r.rooted path) = true) :
    r.BindsTo fs (rawScheme ++ path) (r.rooted path) := by
  refine ⟨?_, (resolveCurrentPath_raw ht.trim_eq).trans (literalDevPath_eq hparent hnode)⟩
  rw [resolveInput_raw ht.trim_eq, resolveRawIdentity, if_neg hne, checkLiteral_eq hparent hnode]
  exact ⟨_, rfl, if_pos hnode⟩

/-! ### Capture -/

theorem captureForDev_cases (r : Resolver) (fs : FileSystem) (devName rooted raw : PathText) :
    (r.captureForDev fs devName rooted raw).path = some rooted ∧
      ((∃ info, r.sysfsLookup fs devName = some info ∧
          (r.usbIdentityMatches fs info.identity).length ≤ 1 ∧
          (r.captureForDev fs devName rooted raw).kind = .usb ∧
          (r.captureForDev fs devName rooted raw).identity = info.identity) ∨
        (∃ port, r.bypathOf fs devName = some port ∧
          (r.captureForDev fs devName rooted raw).kind = .byPath ∧
          (r.captureForDev fs devName rooted raw).identity = byPathScheme ++ port) ∨
        ((r.captureForDev fs devName rooted raw).kind = .raw ∧
          (r.captureForDev fs devName rooted raw).identity = rawScheme ++ raw)) := by
  unfold captureForDev
  cases hinfo : r.sysfsLookup fs devName with
  | none =>
    dsimp only
    cases r.bypathOf fs devName with
    | none => exact ⟨rfl, .inr (.inr ⟨rfl, rfl⟩)⟩
    | some port => exact ⟨rfl, .inr (.inl ⟨port, rfl, rfl, rfl⟩)⟩
  | some info =>
    dsimp only
    split
    · next hunique =>
      refine ⟨rfl, .inl ⟨info, rfl, ?_, rfl, rfl⟩⟩
      have hfew := hunique.2
      rw [usbIdentityAmbiguous, decide_eq_false_iff_not] at hfew
      omega
    · cases r.bypathOf fs devName with
      | none => exact ⟨rfl, .inr (.inr ⟨rfl, rfl⟩)⟩
      | some port => exact ⟨rfl, .inr (.inl ⟨port, rfl, rfl, rfl⟩)⟩

def PlainNames (fs : FileSystem) (dir : PathText) : Prop :=
  ∀ names, fs.readDir dir = some names → ∀ name ∈ names, Trimmed name

theorem mem_devDir_of_isDevNode (hn : isFileName name = true)
    (hnode : isDevNode fs (r.devPath name) = true) :
    ∃ names, fs.readDir r.devDir = some names ∧ name ∈ names := by
  unfold isDevNode FileSystem.metadata at hnode
  cases hloc : fs.canonicalize (r.devPath name) with
  | none =>
    rw [hloc] at hnode
    cases hnode
  | some loc =>
    rw [devPath, FileSystem.canonicalize_join r.devDir_ne (isAbsolute_fileName hn),
      parts_fileName hn] at hloc
    exact FileSystem.mem_readDir r.devDir_ne hn hloc

theorem components_rawName (hn : isFileName name = true) :
    components (rawName name) = [.root, .normal "dev".toList, .normal name] := by
  have hjoin : join "/dev".toList name = "/dev".toList ++ '/' :: name :=
    join_of_name (isAbsolute_fileName hn) (by decide) (by decide)
  have hraw : rawName name = join "/dev".toList name := hjoin.symm
  rw [hraw, components_join_fileName hn (by decide)]
  rfl

theorem captureForDev_bindsTo (hn : isFileName name = true)
    (hnode : isDevNode fs (r.devPath name) = true) (htrim : Trimmed name)
    (hports : PlainNames fs r.byPathDir) :
    r.BindsTo fs (r.captureForDev fs name (r.devPath name) (rawName name)).identity
      (r.devPath name) := by
  rcases (captureForDev_cases r fs name (r.devPath name) (rawName name)).2 with
    ⟨info, hinfo, hfew, -, hid⟩ | ⟨port, hport, -, hid⟩ | ⟨-, hid⟩
  · have hpresent : Present r fs name info := ⟨hn, hnode, hinfo⟩
    rw [hid]
    exact bindsTo_usb (sysfsLookup_spec hinfo).2 (hpresent.findUsb hfew)
  · unfold bypathOf at hport
    split at hport
    · cases hport
    · next entries hentries =>
      have hlink := find?_some hport
      rw [decide_eq_true_eq] at hlink
      have hmem := mem_of_find?_eq_some hport
      have hne := isFileName_ne_nil (isFileName_of_readDir hentries hmem)
      have htrimmed : Trimmed (byPathScheme ++ port) :=
        .append (ne_nil_of_head (head_byPathScheme [])) hne (by rintro c ⟨⟩; rfl)
          (hports entries hentries port hmem).last
      rw [hid]
      refine bindsTo_byPath hne htrimmed ?_
      rw [bypathLookup, hlink]
      exact if_pos hnode
  · have htrimmed : Trimmed (rawScheme ++ rawName name) := by
      have hlast : (rawName name).getLast? = name.getLast? :=
        getLast?_append_of_ne_nil _ (isFileName_ne_nil hn)
      refine .append (ne_nil_of_head (head_rawScheme [])) (by simp [rawName]) (by rintro c ⟨⟩; rfl) ?_
      rw [hlast]
      exact htrim.last
    have hraw : r.BindsTo fs (rawScheme ++ rawName name) (r.rooted (rawName name)) :=
      bindsTo_raw (by simp [rawName]) htrimmed (by rw [components_rawName hn]; simp)
        (by rw [rooted_rawName hn]; exact hnode)
    rw [hid]
    rw [rooted_rawName hn] at hraw
    exact hraw

theorem isFileName_of_mem_seenNames (h : name ∈ r.seenNames fs) : isFileName name = true := by
  unfold seenNames at h
  rw [(List.perm_insertionSort _ _).mem_iff, mem_dedup] at h
  simp only [mem_append] at h
  rcases h with ((h | h) | h) | h
  · obtain ⟨pair, hpair, rfl⟩ := mem_map.mp h
    obtain ⟨a, -, ha⟩ := mem_filterMap.mp hpair
    obtain ⟨n, hn, rfl⟩ := Option.map_eq_some_iff.mp ha
    exact isFileName_fileName hn
  · obtain ⟨d, -, hd⟩ := mem_filterMap.mp h
    exact isFileName_fileName hd
  · obtain ⟨entry, -, hentry⟩ := mem_filterMap.mp h
    obtain ⟨target, -, htarget⟩ := Option.bind_eq_some_iff.mp hentry
    exact isFileName_fileName htarget
  · have hmem := mem_of_mem_filter h
    cases hdir : fs.readDir r.devDir with
    | none =>
      rw [hdir] at hmem
      cases hmem
    | some names =>
      rw [hdir] at hmem
      exact isFileName_of_readDir hdir hmem

theorem candidate_spec (hn : isFileName name = true) (h : r.candidate fs name = some c) :
    isDevNode fs (r.devPath name) = true ∧ c.path = r.devPath name ∧
      c.identity = (r.captureForDev fs name (r.devPath name) (rawName name)).identity := by
  unfold candidate at h
  dsimp only at h
  rw [rooted_rawName hn] at h
  split at h
  · next hnode =>
    cases h
    exact ⟨hnode, rfl, rfl⟩
  · cases h

theorem candidate_usb (hn : isFileName name = true) (h : r.candidate fs name = some c)
    (husb : usbScheme <+: c.identity) :
    ∃ info, Present r fs name info ∧ info.identity = c.identity ∧
      (r.usbIdentityMatches fs c.identity).length ≤ 1 := by
  obtain ⟨hnode, -, hid⟩ := candidate_spec hn h
  obtain ⟨rest, hrest⟩ := husb
  rcases (captureForDev_cases r fs name (r.devPath name) (rawName name)).2 with
    ⟨info, hinfo, hfew, -, hcapture⟩ | ⟨port, -, -, hcapture⟩ | ⟨-, hcapture⟩
  · rw [hid, hcapture]
    exact ⟨info, ⟨hn, hnode, hinfo⟩, rfl, hfew⟩
  · rw [hid, hcapture] at hrest
    cases congrArg List.head? hrest
  · rw [hid, hcapture] at hrest
    cases congrArg List.head? hrest

theorem nodup_seenNames (r : Resolver) (fs : FileSystem) : (r.seenNames fs).Nodup :=
  (List.perm_insertionSort _ _).nodup_iff.mpr (nodup_dedup _)

theorem pairwise_enumeratePorts (r : Resolver) (fs : FileSystem) :
    (r.enumeratePorts fs).Pairwise fun a b => usbScheme <+: a.identity → a.identity ≠ b.identity := by
  unfold enumeratePorts
  rw [List.pairwise_filterMap]
  refine (nodup_seenNames r fs).imp_of_mem fun {m n} hm hn hne a ha b hb husb heq => ?_
  have hm := isFileName_of_mem_seenNames hm
  have hn := isFileName_of_mem_seenNames hn
  obtain ⟨i, hi, hia, hfew⟩ := candidate_usb hm ha husb
  obtain ⟨j, hj, hjb, -⟩ := candidate_usb hn hb (heq ▸ husb)
  have hfoundm : r.findUsb fs a.identity = some (r.devPath m, i) :=
    hia ▸ hi.findUsb (hia.symm ▸ hfew)
  have hfoundn : r.findUsb fs a.identity = some (r.devPath n, j) :=
    (hjb.trans heq.symm) ▸ hj.findUsb ((hjb.trans heq.symm).symm ▸ hfew)
  rw [hfoundm] at hfoundn
  exact hne (devPath_inj hm hn (Prod.mk.inj (Option.some.inj hfoundn)).1)

def IsBareSerial (text : PathText) : Prop :=
  stripScheme usbScheme (trim text) = none ∧ stripScheme byPathScheme (trim text) = none ∧
    stripScheme rawScheme (trim text) = none ∧ isAbsolute (trim text) = false

theorem captureForDev_usb {devName : PathText} (rooted raw : PathText)
    (hinfo : r.sysfsLookup fs devName = some info)
    (hserial : usbSerialField info.identity ≠ some absentMark)
    (hfew : (r.usbIdentityMatches fs info.identity).length ≤ 1) :
    (r.captureForDev fs devName rooted raw).identity = info.identity ∧
      (r.captureForDev fs devName rooted raw).path = some rooted := by
  have hpins : r.usbIdentityAmbiguous fs info.identity = false := by
    rw [usbIdentityAmbiguous, decide_eq_false_iff_not]
    omega
  unfold captureForDev
  rw [hinfo]
  dsimp only
  rw [if_pos ⟨hserial, hpins⟩]
  exact ⟨rfl, rfl⟩

theorem length_usbIdentityMatches_le (hmark : serial ≠ absentMark)
    (hs : usbSerialField info.identity = some serial) :
    (r.usbIdentityMatches fs info.identity).length ≤ (r.devicesWithSerial fs serial).length := by
  unfold usbIdentityMatches devicesWithSerial
  rw [if_neg hmark]
  refine (monotone_filter_right _ fun d hd => ?_).length_le
  rw [decide_eq_true_eq] at hd ⊢
  rw [hd, hs]

theorem mem_devicesWithSerial (h : d ∈ r.devicesWithSerial fs serial) :
    serial ≠ absentMark ∧ d ∈ r.sysfsUsbDevices fs ∧ usbSerialField d.2.identity = some serial := by
  unfold devicesWithSerial at h
  split at h
  · cases h
  · next hmark =>
    obtain ⟨hd, hs⟩ := mem_filter.mp h
    exact ⟨hmark, hd, of_decide_eq_true hs⟩

theorem captureFromSerial_bindsTo (h : r.captureFromSerial fs serial = .ok res) :
    ∃ path, res.path = some path ∧ r.BindsTo fs res.identity path := by
  unfold captureFromSerial at h
  dsimp only at h
  split at h
  · cases h
  · next hfew =>
    split at h
    · cases h
    · next d hd =>
      cases h
      obtain ⟨hmark, hdev, hserial⟩ := mem_devicesWithSerial (mem_of_getLast? hd)
      obtain ⟨name, hpresent, hpath⟩ := mem_sysfsUsbDevices.mp hdev
      have hone : (r.usbIdentityMatches fs d.2.identity).length ≤ 1 :=
        (length_usbIdentityMatches_le hmark hserial).trans (not_lt.mp hfew)
      have hne : usbSerialField d.2.identity ≠ some absentMark := by
        rw [hserial]
        exact fun he => hmark (Option.some.inj he)
      have hname : (fileName d.1).getD [] = name := by
        rw [hpath, fileName_devPath hpresent.isFileName]
        rfl
      rw [hname]
      obtain ⟨hid, hp⟩ := captureForDev_usb d.1 (rawName name) hpresent.sysfs hne hone
      refine ⟨d.1, hp, ?_⟩
      rw [hid, hpath]
      exact bindsTo_usb (sysfsLookup_spec hpresent.sysfs).2 (hpresent.findUsb hone)

theorem resolveInput_bareSerial {text : PathText} (hbare : IsBareSerial text)
    (h : r.resolveInput fs text = .ok res) : r.captureFromSerial fs (trim text) = .ok res := by
  obtain ⟨husb, hby, hraw, habs⟩ := hbare
  unfold resolveInput at h
  dsimp only at h
  rw [husb, hby, hraw] at h
  dsimp only at h
  split at h
  · cases h
  · rw [if_neg (by simp [habs])] at h
    exact h

/-! ### A machine -/

def entry (name : String) (node : FileTree) (h : isFileName name.toList = true := by decide) :
    FileName × FileTree := (⟨name.toList, h⟩, node)

def line (text : String) : FileTree := .file (some (text ++ "\n").toList)

def adapterDir (serial : String) : FileTree :=
  .dir [entry "idVendor" (line "0403"), entry "idProduct" (line "6001"),
    entry "serial" (line serial), entry "if0" (.dir [entry "bInterfaceNumber" (line "00")])]

def ttyNode (port : String) : FileTree :=
  .dir [entry "device" (.link ("../../../devices/" ++ port ++ "/if0").toList)]

def bench (dev : List (FileName × FileTree)) : FileSystem where
  root := .dir
    [entry "dev" (.dir dev),
      entry "sys" (.dir
        [entry "class" (.dir [entry "tty" (.dir
            [entry "ttyUSB0" (ttyNode "p0"), entry "ttyUSB1" (ttyNode "p1"),
              entry "ttyUSB2" (ttyNode "p2")])]),
          entry "devices" (.dir
            [entry "p0" (adapterDir "A1"), entry "p1" (adapterDir "C7"),
              entry "p2" (adapterDir "C7")])])]
  cwd := []
  cwd_canonical := FileTree.canonical_nil _

def benchDev (byId : List (FileName × FileTree)) : List (FileName × FileTree) :=
  [entry "ttyUSB2" .device, entry "ttyUSB0" .device, entry "ttyUSB1" .device,
    entry "cu.modem" .device,
    entry "serial" (.dir
      [entry "by-id" (.dir byId),
        entry "by-path" (.dir
          [entry "pci-1" (.link "../../ttyUSB1".toList),
            entry "pci-2" (.link "../../ttyUSB2".toList)])])]

def staleBench : FileSystem := bench (benchDev [entry "usb-A1" (.link "../../ttyUSB7".toList)])

def swappedBench : FileSystem := bench (benchDev [entry "usb-A1" (.link "../../ttyUSB1".toList)])

def linkedBench (byId : List (FileName × FileTree)) : FileSystem :=
  bench [entry "bus0" .device, entry "ttyUSB0" (.link "serial/by-id/usb-A1".toList),
    entry "serial" (.dir [entry "by-id" (.dir byId)])]

def muxBench : FileSystem :=
  bench [entry "ttyUSB0" .device, entry "mux" (.dir [entry "ttyUSB0" .device])]

def production : Resolver := .new "/".toList (by decide)

theorem plainNames_of_all {dir : PathText}
    (h : (fs.readDir dir).all (fun names => names.all fun name => trim name = name) = true) :
    PlainNames fs dir := by
  intro names hnames name hn
  rw [hnames, Option.all_some, all_eq_true] at h
  exact trimmed_iff.mpr (of_decide_eq_true (h name hn))

theorem listed_devices_bind_back (r : Resolver) (fs : FileSystem) (hdev : PlainNames fs r.devDir)
    (hports : PlainNames fs r.byPathDir) :
    (∀ c ∈ r.enumeratePorts fs, r.BindsTo fs c.identity c.path) ∧
      (∀ text res, IsBareSerial text → r.resolveInput fs text = .ok res →
        ∃ path, res.path = some path ∧ r.BindsTo fs res.identity path) ∧
      (r.enumeratePorts fs).Pairwise
        fun a b => usbScheme <+: a.identity → a.identity ≠ b.identity := by
  refine ⟨?_, fun text res hbare h => captureFromSerial_bindsTo (resolveInput_bareSerial hbare h),
    pairwise_enumeratePorts r fs⟩
  intro c hc
  obtain ⟨name, hname, hcand⟩ := mem_filterMap.mp hc
  have hn := isFileName_of_mem_seenNames hname
  obtain ⟨hnode, hpath, hid⟩ := candidate_spec hn hcand
  obtain ⟨names, hnames, hmem⟩ := mem_devDir_of_isDevNode hn hnode
  rw [hid, hpath]
  exact captureForDev_bindsTo hn hnode (hdev names hnames name hmem) hports

theorem listed_devices_bind_back_bench :
    ((production.enumeratePorts staleBench).map fun c => (c.identity, c.path)) =
        [("raw:/dev/cu.modem".toList, "/dev/cu.modem".toList),
          ("usb:0403:6001:A1:00".toList, "/dev/ttyUSB0".toList),
          ("by-path:pci-1".toList, "/dev/ttyUSB1".toList),
          ("by-path:pci-2".toList, "/dev/ttyUSB2".toList)] ∧
      ∀ c ∈ production.enumeratePorts staleBench,
        production.BindsTo staleBench c.identity c.path := by
  have hbound := listed_devices_bind_back production staleBench
    (plainNames_of_all (by decide +kernel)) (plainNames_of_all (by decide +kernel))
  exact ⟨by decide +kernel, hbound.1⟩

end Resolver
end SerialNexus
