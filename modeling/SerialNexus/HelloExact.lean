import SerialNexus.Envelope

/-! # The hello as a code

`encode_hello` and `try_decode_hello` of `codec-api/src/lib.rs`. -/

namespace SerialNexus

open List Framing

def writeAnnouncement (ch : String) : ExceptT WireError (StateM (List UInt8)) Unit := do
  if (utf8 ch).length ≥ 2 ^ 16 then throw (.frameTooLarge (utf8 ch).length)
  modify (· ++ beBytes 2 (utf8 ch).length)
  modify (· ++ utf8 ch)

def writeAnnouncements : List String → ExceptT WireError (StateM (List UInt8)) Unit
  | [] => pure ()
  | ch :: chs => do
    writeAnnouncement ch
    writeAnnouncements chs

def encodeHelloInto (hello : Hello) : ExceptT WireError (StateM (List UInt8)) Unit := do
  let bodyLen := helloBodyLen hello.channels
  if bodyLen > maxFrameSize then throw (.frameTooLarge bodyLen)
  if hello.channels.length ≥ 2 ^ 16 then throw (.frameTooLarge bodyLen)
  modify (· ++ beBytes prefixLen bodyLen)
  modify (· ++ beBytes 4 wireMagic)
  modify (· ++ beBytes 2 hello.version)
  modify (· ++ beBytes 4 hello.capabilities)
  modify (· ++ beBytes 2 hello.channels.length)
  writeAnnouncements hello.channels

def encodeHelloTo (hello : Hello) (out : List UInt8) : Except WireError Unit × List UInt8 :=
  (encodeHelloInto hello).run.run out

variable {channels : List String} {body : List UInt8}

theorem writeAnnouncements_run (h : ∀ ch ∈ channels, (utf8 ch).length < 2 ^ 16) (out : List UInt8) :
    (writeAnnouncements channels).run.run out = (.ok (), out ++ announcements channels) := by
  induction channels generalizing out with
  | nil => simp [writeAnnouncements, announcements]; rfl
  | cons ch chs ih =>
    have hch : ¬ (utf8 ch).length ≥ 2 ^ 16 := not_le.mpr (h ch mem_cons_self)
    have hone : (writeAnnouncement ch).run.run out =
        (.ok (), out ++ (beBytes 2 (utf8 ch).length ++ utf8 ch)) := by
      simp only [writeAnnouncement, if_neg hch, ← append_assoc]
      rfl
    have hstep : (writeAnnouncements (ch :: chs)).run.run out =
        (writeAnnouncements chs).run.run (out ++ (beBytes 2 (utf8 ch).length ++ utf8 ch)) := by
      rw [writeAnnouncements, ExceptT.run_bind, StateT.run_bind, hone]
      rfl
    rw [hstep, ih fun c hc => h c (mem_cons_of_mem _ hc), append_assoc]
    rfl

theorem announcements_fit (h : helloBodyLen channels ≤ maxFrameSize) :
    channels.length < 2 ^ 16 ∧ ∀ ch ∈ channels, (utf8 ch).length < 2 ^ 16 := by
  have hmax : maxFrameSize = 2 ^ 16 := rfl
  have hcount := helloBodyLen_ge channels
  refine ⟨by omega, fun ch hch => ?_⟩
  rw [helloBodyLen] at h
  have hone : 2 + (utf8 ch).length ≤ (channels.map fun ch => 2 + (utf8 ch).length).sum :=
    single_le_sum (fun _ _ => Nat.zero_le _) _ (mem_map_of_mem hch)
  omega

theorem encodeHelloTo_eq (hello : Hello) (out : List UInt8) :
    encodeHelloTo hello out =
      if helloBodyLen hello.channels > maxFrameSize then
        (.error (.frameTooLarge (helloBodyLen hello.channels)), out)
      else (.ok (), out ++ (beBytes prefixLen (helloBody hello).length ++ helloBody hello)) := by
  by_cases hlen : helloBodyLen hello.channels > maxFrameSize
  · rw [if_pos hlen]
    simp only [encodeHelloTo, encodeHelloInto, if_pos hlen]
    rfl
  · obtain ⟨hcount, hids⟩ := announcements_fit (not_lt.mp hlen)
    have hrun := writeAnnouncements_run hids
    rw [if_neg hlen, helloBody_length]
    simp only [encodeHelloTo, encodeHelloInto, if_neg hlen, if_neg (not_le.mpr hcount)]
    change (writeAnnouncements hello.channels).run.run _ = _
    rw [hrun]
    simp [helloBody]

def readAt (bytes : List UInt8) (off n : ℕ) : Option (List UInt8) :=
  if off + n ≤ bytes.length then some ((bytes.drop off).take n) else none

theorem readAt_eq {bytes : List UInt8} {off n : ℕ} (h : off + n ≤ bytes.length) :
    readAt bytes off n = some ((bytes.drop off).take n) := if_pos h

def announcementsAt (body : List UInt8) :
    ℕ → ℕ → List String → Option (Except WireError (List String))
  | 0, _, channels => some (.ok channels)
  | count + 1, off, channels =>
    if body.length < off + 2 then some (.error (.truncated "announcement length"))
    else do
      let chLen := beValue (← readAt body off 2)
      let off := off + 2
      if body.length < off + chLen then some (.error (.truncated "announcement identity"))
      else
        match fromUtf8 (← readAt body off chLen) with
        | none => some (.error .badChannelId)
        | some ch => announcementsAt body count (off + chLen) (channels ++ [ch])

def helloAt (body : List UInt8) : Option (Except WireError Hello) :=
  if body.length < 6 then some (.error (.truncated "header"))
  else do
    let magic := beValue (← readAt body 0 4)
    if magic ≠ wireMagic then some (.error (.badMagic magic))
    else
      let version := beValue (← readAt body 4 2)
      if version ≠ wireVersion then some (.error (.unsupportedVersion version))
      else if body.length < 12 then some (.error (.truncated "header"))
      else
        let capabilities := beValue (← readAt body 6 4)
        let count := beValue (← readAt body 10 2)
        let channels ← announcementsAt body count 12 []
        some (channels.map fun channels => { version, capabilities, channels })

def decodeHelloAt (buf : List UInt8) : Option (Except WireError (Option (Hello × ℕ))) :=
  if buf.length < prefixLen then some (.ok none)
  else do
    let bodyLen := beValue (← readAt buf 0 prefixLen)
    if bodyLen > maxFrameSize then some (.error (.frameTooLarge bodyLen))
    else
      let frameEnd := prefixLen + bodyLen
      if buf.length < frameEnd then some (.ok none)
      else
        let hello ← helloAt (← readAt buf prefixLen bodyLen)
        some (hello.map fun hello => some (hello, frameEnd))

theorem announcementsAt_eq (body : List UInt8) (count off : ℕ) (channels : List String) :
    announcementsAt body count off channels =
      some ((parseAnnouncements count (body.drop off)).map (channels ++ ·)) := by
  induction count generalizing off channels with
  | zero => simp [announcementsAt, parseAnnouncements, Except.map]
  | succ count ih =>
    rw [announcementsAt, parseAnnouncements, length_drop]
    by_cases h2 : body.length < off + 2
    · rw [if_pos h2, if_pos (by omega)]
      rfl
    rw [if_neg h2, if_neg (by omega), readAt_eq (by omega)]
    simp only [Option.bind_eq_bind, Option.bind_some]
    generalize beValue ((body.drop off).take 2) = chLen
    by_cases hid : body.length < off + 2 + chLen
    · rw [if_pos hid, if_pos (by omega)]
      rfl
    rw [if_neg hid, if_neg (by omega), readAt_eq (by omega), drop_drop, drop_drop]
    simp only [Option.bind_some]
    cases hch : fromUtf8 ((body.drop (off + 2)).take chLen) with
    | none => rfl
    | some ch =>
      dsimp only
      rw [ih, Nat.add_assoc]
      cases parseAnnouncements count (body.drop (off + (2 + chLen))) with
      | error e => rfl
      | ok chs => simp [Except.map]

theorem helloAt_eq (body : List UInt8) : helloAt body = some (parseHello body) := by
  unfold helloAt parseHello
  by_cases h6 : body.length < 6
  · rw [if_pos h6, if_pos h6]
  rw [if_neg h6, if_neg h6, readAt_eq (by omega), readAt_eq (by omega)]
  simp only [Option.bind_eq_bind, Option.bind_some, drop_zero]
  by_cases hmagic : beValue (body.take 4) ≠ wireMagic
  · rw [if_pos hmagic, if_pos hmagic]
  rw [if_neg hmagic, if_neg hmagic]
  by_cases hversion : beValue ((body.drop 4).take 2) ≠ wireVersion
  · rw [if_pos hversion, if_pos hversion]
  rw [if_neg hversion, if_neg hversion]
  by_cases h12 : body.length < 12
  · rw [if_pos h12, if_pos h12]
  rw [if_neg h12, if_neg h12, readAt_eq (by omega), readAt_eq (by omega)]
  simp only [Option.bind_some, announcementsAt_eq, nil_append]
  cases parseAnnouncements (beValue ((body.drop 10).take 2)) (body.drop 12) with
  | error | ok => rfl

theorem decodeHelloAt_eq (buf : List UInt8) : decodeHelloAt buf = some (tryDecodeHello buf) := by
  unfold decodeHelloAt tryDecodeHello lengthPrefixed
  by_cases hlen : buf.length < prefixLen
  · rw [if_pos hlen, if_pos hlen]
  rw [if_neg hlen, if_neg hlen, readAt_eq (by omega)]
  simp only [Option.bind_eq_bind, Option.bind_some, drop_zero]
  by_cases hlarge : beValue (buf.take prefixLen) > maxFrameSize
  · rw [if_pos hlarge, if_pos hlarge]
  rw [if_neg hlarge, if_neg hlarge]
  by_cases hshort : buf.length < prefixLen + beValue (buf.take prefixLen)
  · rw [if_pos hshort, if_pos hshort]
  rw [if_neg hshort, if_neg hshort, readAt_eq (by omega)]
  simp only [Option.bind_some, helloAt_eq]
  rw [drop_take, Nat.add_sub_cancel_left]

theorem parseAnnouncements_length {count : ℕ} {rest : List UInt8}
    (h : parseAnnouncements count rest = .ok channels) :
    channels.length = count ∧ 2 * count ≤ rest.length := by
  induction count generalizing rest channels with
  | zero =>
    obtain rfl := Except.ok.inj h
    exact ⟨rfl, Nat.zero_le _⟩
  | succ count ih =>
    rw [parseAnnouncements] at h
    dsimp only at h
    split_ifs at h with h2 hid
    cases hch : fromUtf8 ((rest.drop 2).take (beValue (rest.take 2))) with
    | none => rw [hch] at h; cases h
    | some ch =>
      rw [hch] at h
      dsimp only at h
      cases hrest : parseAnnouncements count (rest.drop (2 + beValue (rest.take 2))) with
      | error e => rw [hrest] at h; cases h
      | ok chs =>
        rw [hrest] at h
        obtain rfl := Except.ok.inj h
        obtain ⟨hlen, hle⟩ := ih hrest
        rw [length_drop] at hle
        exact ⟨by rw [length_cons, hlen], by omega⟩

theorem parseHello_channels {hello : Hello} (h : parseHello body = .ok hello) :
    hello.channels.length ≤ (body.length - 12) / 2 := by
  unfold parseHello at h
  dsimp only at h
  split_ifs at h
  cases hch : parseAnnouncements (beValue ((body.drop 10).take 2)) (body.drop 12) with
  | error e => rw [hch] at h; cases h
  | ok channels =>
    rw [hch] at h
    obtain rfl := Except.ok.inj h
    obtain ⟨hlen, hle⟩ := parseAnnouncements_length hch
    rw [length_drop] at hle
    dsimp only
    omega

theorem parseHello_version (hlen : 6 ≤ body.length) (hmagic : body.take 4 = beBytes 4 wireMagic)
    (hversion : beValue ((body.drop 4).take 2) ≠ wireVersion) :
    parseHello body = .error (.unsupportedVersion (beValue ((body.drop 4).take 2))) := by
  unfold parseHello
  rw [if_neg (by omega)]
  dsimp only
  rw [hmagic, beValue_beBytes (by decide), if_neg (by simp), if_pos hversion]

theorem helloBody_header (hello : Hello) :
    6 ≤ (helloBody hello).length ∧ (helloBody hello).take 4 = beBytes 4 wireMagic ∧
      ((helloBody hello).drop 4).take 2 = beBytes 2 hello.version := by
  refine ⟨?_, by simp [helloBody, beBytes], by simp [helloBody, beBytes]⟩
  rw [helloBody_length, helloBodyLen]
  omega

theorem hello_exact :
    (∀ (hello : Hello) (out : List UInt8), hello.version = wireVersion →
      hello.capabilities < 2 ^ 32 →
      ((∃ e, (encodeHelloTo hello out).1 = .error e) ↔
        maxFrameSize < 12 + (hello.channels.map fun ch => 2 + (utf8 ch).length).sum) ∧
      (∀ e, (encodeHelloTo hello out).1 = .error e → (encodeHelloTo hello out).2 = out) ∧
      ((encodeHelloTo hello out).1 = .ok () → ∃ frame, (encodeHelloTo hello out).2 = out ++ frame ∧
        (∀ rest, tryDecodeHello (frame ++ rest) = .ok (some (hello, frame.length))) ∧
        ∀ p, p <+: frame → p ≠ frame → tryDecodeHello p = .ok none)) ∧
    (∀ (hello : Hello) (out frame : List UInt8), hello.version < 2 ^ 16 →
      hello.version ≠ wireVersion → encodeHelloTo hello out = (.ok (), out ++ frame) →
      ∀ rest, tryDecodeHello (frame ++ rest) = .error (.unsupportedVersion hello.version)) ∧
    (∀ body rest : List UInt8, 6 ≤ body.length → body.length ≤ maxFrameSize →
      body.take 4 = beBytes 4 wireMagic → beValue ((body.drop 4).take 2) ≠ wireVersion →
      tryDecodeHello (beBytes prefixLen body.length ++ body ++ rest) =
        .error (.unsupportedVersion (beValue ((body.drop 4).take 2)))) ∧
    (∀ buf : List UInt8, decodeHelloAt buf = some (tryDecodeHello buf) ∧
      decodeHelloAt (buf.take (4 + beValue (buf.take 4))) = decodeHelloAt buf) ∧
    ∀ (buf : List UInt8) (hello : Hello) (n : ℕ), tryDecodeHello buf = .ok (some (hello, n)) →
      n = 4 + beValue (buf.take 4) ∧ hello.channels.length ≤ (beValue (buf.take 4) - 12) / 2 := by
  refine ⟨fun hello out hv hc => ?_, fun hello out frame hv hne henc rest => ?_, ?_, fun buf => ?_,
    fun buf hello n h => ?_⟩
  · rw [encodeHelloTo_eq]
    by_cases hlen : helloBodyLen hello.channels > maxFrameSize
    · rw [if_pos hlen]
      exact ⟨⟨fun _ => hlen, fun _ => ⟨_, rfl⟩⟩, fun _ _ => rfl, nofun⟩
    · rw [if_neg hlen]
      refine ⟨⟨nofun, fun h => absurd h hlen⟩, nofun, fun _ => ⟨_, rfl, ?_⟩⟩
      obtain ⟨hcount, hids⟩ := announcements_fit (not_lt.mp hlen)
      rw [← helloBody_length] at hlen
      have hframe : Frame tryDecodeHello _ hello :=
        lengthPrefixed_frame (not_lt.mp hlen) (by decide) (parseHello_helloBody hv hc hcount hids)
      exact ⟨hframe.whole, hframe.partly⟩
  · rw [encodeHelloTo_eq] at henc
    by_cases hlen : helloBodyLen hello.channels > maxFrameSize
    · rw [if_pos hlen] at henc
      cases (Prod.mk.inj henc).1
    rw [if_neg hlen] at henc
    obtain rfl : _ = frame := append_cancel_left (Prod.mk.inj henc).2
    obtain ⟨h6, hmagic, hversion⟩ := helloBody_header hello
    have hval : beValue (((helloBody hello).drop 4).take 2) = hello.version := by
      rw [hversion, beValue_beBytes (by simpa using hv)]
    rw [← helloBody_length] at hlen
    rw [tryDecodeHello, lengthPrefixed_body (not_lt.mp hlen) (by decide),
      parseHello_version h6 hmagic (by rwa [hval]), hval]
    rfl
  · intro body rest h6 hmax hmagic hversion
    rw [tryDecodeHello, lengthPrefixed_body hmax (by decide), parseHello_version h6 hmagic hversion]
    rfl
  · refine ⟨decodeHelloAt_eq buf, ?_⟩
    rw [decodeHelloAt_eq, decodeHelloAt_eq]
    exact congrArg some (lengthPrefixed_take buf)
  · obtain ⟨hn, -, hle, hparse⟩ := lengthPrefixed_inv h
    have hchannels := parseHello_channels hparse
    rw [length_drop, length_take, Nat.min_eq_left hle, hn, Nat.add_sub_cancel_left]
      at hchannels
    exact ⟨hn, hchannels⟩

end SerialNexus
