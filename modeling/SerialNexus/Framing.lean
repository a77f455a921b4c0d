import Mathlib.Tactic

/-! # Framed byte streams

A decoder looks at the bytes received so far and answers a value and how many bytes it took, "not
enough yet", or an error.  The loops built on it do not care how the stream is cut into reads. -/

namespace Framing

open List

def beBytes : ℕ → ℕ → List UInt8
  | 0, _ => []
  | w + 1, n => UInt8.ofNat (n / 256 ^ w) :: beBytes w n

def beValue (bs : List UInt8) : ℕ := bs.foldl (fun acc b => acc * 256 + b.toNat) 0

@[simp] theorem beBytes_length (w n : ℕ) : (beBytes w n).length = w := by
  induction w with
  | zero => rfl
  | succ w ih => simp [beBytes, ih]

theorem foldl_beBytes (w n acc : ℕ) :
    (beBytes w n).foldl (fun acc b => acc * 256 + b.toNat) acc = acc * 256 ^ w + n % 256 ^ w := by
  induction w generalizing acc with
  | zero => simp [beBytes, Nat.mod_one]
  | succ w ih =>
    rw [beBytes, foldl_cons, ih, UInt8.toNat_ofNat']
    have hsplit : n % 256 ^ (w + 1) = (n / 256 ^ w % 256) * 256 ^ w + n % 256 ^ w := by
      rw [pow_succ, Nat.mod_mul, Nat.add_comm, Nat.mul_comm]
    rw [hsplit, pow_succ]
    norm_num
    ring

theorem beValue_beBytes {w n : ℕ} (h : n < 256 ^ w) : beValue (beBytes w n) = n := by
  rw [beValue, foldl_beBytes, Nat.zero_mul, Nat.zero_add, Nat.mod_eq_of_lt h]

theorem beValue_concat (bs : List UInt8) (b : UInt8) :
    beValue (bs ++ [b]) = beValue bs * 256 + b.toNat := by
  rw [beValue, foldl_append]
  rfl

theorem beBytes_succ_concat (w n : ℕ) :
    beBytes (w + 1) n = beBytes w (n / 256) ++ [UInt8.ofNat n] := by
  induction w with
  | zero => simp [beBytes]
  | succ w ih =>
    rw [beBytes, ih, beBytes, cons_append, Nat.div_div_eq_div_mul, pow_succ, Nat.mul_comm]

theorem beBytes_beValue (bs : List UInt8) : beBytes bs.length (beValue bs) = bs := by
  induction bs using List.reverseRecOn with
  | nil => rfl
  | append_singleton bs b ih =>
    have hlt := b.toNat_lt
    have hdiv : (beValue bs * 256 + b.toNat) / 256 = beValue bs := by omega
    have hmod : UInt8.ofNat (beValue bs * 256 + b.toNat) = b := by
      apply UInt8.toNat_inj.mp
      rw [UInt8.toNat_ofNat']
      omega
    rw [length_append, length_singleton, beBytes_succ_concat, beValue_concat, hdiv, hmod, ih]

variable {β α ε : Type*}

abbrev Decoder (β α ε : Type*) := List β → Except ε (Option (α × ℕ))

structure Frame (dec : Decoder β α ε) (bytes : List β) (a : α) : Prop where
  nonempty : bytes ≠ []
  whole : ∀ rest, dec (bytes ++ rest) = .ok (some (a, bytes.length))
  partly : ∀ p, p <+: bytes → p ≠ bytes → dec p = .ok none

variable {dec : Decoder β α ε} {f buf rest more : List β} {a : α} {reads : List (List β)}
  {frames : List (List β × α)}

theorem Frame.cases (hf : Frame dec f a) (h : buf ++ more = f ++ rest) :
    (∃ buf', buf = f ++ buf' ∧ buf' ++ more = rest) ∨ (dec buf = .ok none ∧ buf.length < f.length) := by
  rcases append_eq_append_iff.mp h with ⟨c, hfc, hmore⟩ | ⟨c, hbuf, hrest⟩
  · by_cases hc : c = []
    · left
      refine ⟨[], ?_, ?_⟩
      · simp [hfc, hc]
      · simp [hmore, hc]
    · right
      have hne : buf ≠ f := by
        intro he
        rw [he] at hfc
        exact hc (append_cancel_left (show f ++ c = f ++ [] by rw [← hfc, append_nil]))
      refine ⟨hf.partly buf ⟨c, hfc.symm⟩ hne, ?_⟩
      have := length_pos_iff.mpr hc
      rw [hfc, length_append]
      omega
  · exact .inl ⟨c, hbuf, hrest.symm⟩

theorem Frame.mapError {ε' : Type*} (hf : Frame dec f a) (g : ε → ε') :
    Frame (fun buf => (dec buf).mapError g) f a where
  nonempty := hf.nonempty
  whole rest := by rw [hf.whole]; rfl
  partly p hp hne := by rw [hf.partly p hp hne]; rfl

def takeOne (dec : Decoder β α ε) (eof : ε) :
    List β → List (List β) → Except ε (α × List β × List (List β))
  | buf, [] =>
    match dec buf with
    | .error e => .error e
    | .ok (some (a, n)) => .ok (a, buf.drop n, [])
    | .ok none => .error eof
  | buf, read :: reads =>
    match dec buf with
    | .error e => .error e
    | .ok (some (a, n)) => .ok (a, buf.drop n, read :: reads)
    | .ok none => if read.isEmpty then .error eof else takeOne dec eof (buf ++ read) reads

theorem takeOne_frame (eof : ε) (hf : Frame dec f a) (hne : ∀ r ∈ reads, r ≠ [])
    (h : buf ++ reads.flatten = f ++ rest) :
    ∃ buf' reads', takeOne dec eof buf reads = .ok (a, buf', reads') ∧
      (∀ r ∈ reads', r ≠ []) ∧ buf' ++ reads'.flatten = rest := by
  induction reads generalizing buf with
  | nil =>
    rcases hf.cases h with ⟨buf', hbuf, hrest⟩ | ⟨_, hlt⟩
    · refine ⟨buf', [], ?_, by simp, hrest⟩
      rw [takeOne, hbuf, hf.whole]
      simp
    · have := congrArg List.length h
      simp at this
      omega
  | cons read reads ih =>
    rcases hf.cases h with ⟨buf', hbuf, hrest⟩ | ⟨hnone, _⟩
    · refine ⟨buf', read :: reads, ?_, hne, hrest⟩
      rw [takeOne, hbuf, hf.whole]
      simp
    · have hread : read.isEmpty = false := by simpa using hne read mem_cons_self
      simp only [takeOne, hnone, hread, Bool.false_eq_true, if_false]
      refine ih (fun r hr => hne r (mem_cons_of_mem _ hr)) ?_
      rw [← h, flatten_cons, append_assoc]

def decodeAll (dec : Decoder β α ε) : ℕ → List β → List α × Except ε (List β)
  | 0, buf => ([], .ok buf)
  | fuel + 1, buf =>
    match dec buf with
    | .error e => ([], .error e)
    | .ok none => ([], .ok buf)
    | .ok (some (a, n)) =>
      let (as, rest) := decodeAll dec fuel (buf.drop n)
      (a :: as, rest)

def feed (dec : Decoder β α ε) : List β → List (List β) → List α × Except ε (List β)
  | buf, [] => decodeAll dec buf.length buf
  | buf, read :: reads =>
    match decodeAll dec buf.length buf with
    | (as, .error e) => (as, .error e)
    | (as, .ok buf) =>
      if read.isEmpty then (as, .ok buf)
      else
        let (as', rest) := feed dec (buf ++ read) reads
        (as ++ as', rest)

theorem decodeAll_frames (hnil : dec [] = .ok none) (hf : ∀ f ∈ frames, Frame dec f.1 f.2)
    {fuel : ℕ} (hfuel : buf.length ≤ fuel) (h : buf ++ more = (frames.map Prod.fst).flatten) :
    ∃ done todo buf', frames = done ++ todo ∧ buf' ++ more = (todo.map Prod.fst).flatten ∧
      (∀ g ∈ todo.head?, buf'.length < g.1.length) ∧
      decodeAll dec fuel buf = (done.map Prod.snd, .ok buf') := by
  induction frames generalizing fuel buf with
  | nil =>
    obtain ⟨rfl, hmore⟩ : buf = [] ∧ more = [] := by simpa using h
    refine ⟨[], [], [], rfl, by simpa using hmore, by simp, ?_⟩
    cases fuel with
    | zero => rfl
    | succ fuel => simp [decodeAll, hnil]
  | cons f frames ih =>
    have hf0 := hf f mem_cons_self
    rw [map_cons, flatten_cons] at h
    rcases hf0.cases h with ⟨buf', rfl, hrest⟩ | ⟨hnone, hlt⟩
    · have hpos := length_pos_iff.mpr hf0.nonempty
      rw [length_append] at hfuel
      cases fuel with
      | zero => omega
      | succ fuel =>
        obtain ⟨done, todo, buf'', hsplit, hmore, hlt, hdec⟩ :=
          ih (fun g hg => hf g (mem_cons_of_mem _ hg)) (show buf'.length ≤ fuel by omega) hrest
        refine ⟨f :: done, todo, buf'', by rw [hsplit, cons_append], hmore, hlt, ?_⟩
        rw [decodeAll, hf0.whole]
        simp [hdec]
    · refine ⟨[], f :: frames, buf, rfl, by rw [map_cons, flatten_cons]; exact h, ?_, ?_⟩
      · simpa using hlt
      cases fuel with
      | zero => rfl
      | succ fuel => simp [decodeAll, hnone]

theorem feed_frames (hnil : dec [] = .ok none) (hf : ∀ f ∈ frames, Frame dec f.1 f.2)
    (hne : ∀ r ∈ reads, r ≠ []) (h : buf ++ reads.flatten = (frames.map Prod.fst).flatten) :
    feed dec buf reads = (frames.map Prod.snd, .ok []) := by
  obtain ⟨done, todo, buf', hsplit, hmore, hlt, hdec⟩ :=
    decodeAll_frames hnil hf (le_refl buf.length) h
  induction reads generalizing buf frames done todo buf' with
  | nil =>
    have htodo : todo = [] := by
      cases todo with
      | nil => rfl
      | cons g todo =>
        -- a frame still to come would need bytes the stream does not have
        have hlen := congrArg List.length hmore
        have := hlt g (by simp)
        simp only [flatten_nil, append_nil, map_cons, flatten_cons, length_append] at hlen
        omega
    subst htodo
    obtain rfl : buf' = [] := by simpa using hmore
    rw [feed, hdec, hsplit, append_nil]
  | cons read reads ih =>
    have hread : read.isEmpty = false := by simpa using hne read mem_cons_self
    have hne' : ∀ r ∈ reads, r ≠ [] := fun r hr => hne r (mem_cons_of_mem _ hr)
    have hf' : ∀ f ∈ todo, Frame dec f.1 f.2 :=
      fun f hmem => hf f (hsplit ▸ mem_append_right _ hmem)
    have h' : (buf' ++ read) ++ reads.flatten = (todo.map Prod.fst).flatten := by
      rw [← hmore, flatten_cons, append_assoc]
    obtain ⟨done', todo', buf'', hsplit', hmore', hlt', hdec'⟩ :=
      decodeAll_frames hnil hf' (le_refl (buf' ++ read).length) h'
    have hrest := ih hf' hne' h' done' todo' buf'' hsplit' hmore' hlt' hdec'
    simp only [feed, hdec, hread, Bool.false_eq_true, if_false, hrest, hsplit, map_append]

/-- A stream of frames that is cut anywhere gives the values of the frames that are whole. -/
theorem feed_frames_cut {more : List β} (hnil : dec [] = .ok none) (hf : ∀ f ∈ frames, Frame dec f.1 f.2)
    (hne : ∀ r ∈ reads, r ≠ [])
    (h : buf ++ (reads.flatten ++ more) = (frames.map Prod.fst).flatten) :
    ∃ done rest, done <+: frames ∧ feed dec buf reads = (done.map Prod.snd, .ok rest) := by
  obtain ⟨done, todo, buf', rfl, hmore, -, hdec⟩ := decodeAll_frames hnil hf (le_refl buf.length) h
  induction reads generalizing buf done todo buf' with
  | nil => exact ⟨done, buf', prefix_append _ _, by rw [feed, hdec]⟩
  | cons read reads ih =>
    have hread : read.isEmpty = false := by simpa using hne read mem_cons_self
    have hf' : ∀ f ∈ todo, Frame dec f.1 f.2 := fun f hmem => hf f (mem_append_right _ hmem)
    have h' : (buf' ++ read) ++ (reads.flatten ++ more) = (todo.map Prod.fst).flatten := by
      rw [← hmore, flatten_cons, append_assoc, append_assoc]
    obtain ⟨done', todo', buf'', rfl, hmore', -, hdec'⟩ :=
      decodeAll_frames hnil hf' (le_refl (buf' ++ read).length) h'
    obtain ⟨all, rest, hpre, hfeed⟩ := ih
      (fun r hr => hne r (mem_cons_of_mem _ hr)) done' todo' buf'' hf' h' hmore' hdec'
    refine ⟨done ++ all, rest, (prefix_append_right_inj _).mpr hpre, ?_⟩
    simp only [feed, hdec, hread, Bool.false_eq_true, if_false, hfeed, map_append]

/-! ### Decoding a stream that grows

A decoder is stable if an answer other than "not enough yet" does not change when more bytes
arrive.  Then decoding may stop and go on at any point of the stream (`decodeWhole_of_takeN`,
`takeN_append`). -/

structure Stable (dec : Decoder β α ε) : Prop where
  value : ∀ {buf : List β} {a : α} {n : ℕ}, dec buf = .ok (some (a, n)) →
    ∀ more, dec (buf ++ more) = .ok (some (a, n))
  error : ∀ {buf : List β} {e : ε}, dec buf = .error e → ∀ more, dec (buf ++ more) = .error e
  taken : ∀ {buf : List β} {a : α} {n : ℕ}, dec buf = .ok (some (a, n)) → 0 < n ∧ n ≤ buf.length

def decodeWhole (dec : Decoder β α ε) (buf : List β) : List α × Except ε (List β) :=
  decodeAll dec (buf.length + 1) buf

def takeN (dec : Decoder β α ε) : ℕ → List β → Option (List α × List β)
  | 0, buf => some ([], buf)
  | k + 1, buf =>
    match dec buf with
    | .ok (some (a, n)) => (takeN dec k (buf.drop n)).map fun r => (a :: r.1, r.2)
    | _ => none

def bytesTaken (dec : Decoder β α ε) : ℕ → List β → ℕ
  | 0, _ => 0
  | k + 1, buf =>
    match dec buf with
    | .ok (some (_, n)) => n + bytesTaken dec k (buf.drop n)
    | _ => 0

section stable

variable {dec : Decoder β α ε}

variable {buf rest : List β} {a : α} {n k : ℕ} {as : List α}

theorem decodeAll_fuel (hs : Stable dec) {fuel : ℕ} (h : buf.length < fuel) :
    decodeAll dec fuel buf = decodeWhole dec buf := by
  rw [decodeWhole]
  generalize hfuel' : buf.length + 1 = fuel'
  have h' : buf.length < fuel' := by omega
  clear hfuel'
  induction fuel generalizing buf fuel' with
  | zero => omega
  | succ fuel ih =>
    obtain ⟨fuel', rfl⟩ : ∃ k, fuel' = k + 1 := ⟨fuel' - 1, by omega⟩
    match hd : dec buf with
    | .error e => simp only [decodeAll, hd]
    | .ok none => simp only [decodeAll, hd]
    | .ok (some (a, n)) =>
      obtain ⟨hpos, hle⟩ := hs.taken hd
      have hlen : (buf.drop n).length + n = buf.length := by rw [length_drop]; omega
      have hrec := ih (show (buf.drop n).length < fuel by omega) fuel' (by omega)
      simp only [decodeAll, hd, hrec]

theorem decodeWhole_value (hs : Stable dec) (h : dec buf = .ok (some (a, n))) :
    decodeWhole dec buf =
      (a :: (decodeWhole dec (buf.drop n)).1, (decodeWhole dec (buf.drop n)).2) := by
  obtain ⟨hpos, hle⟩ := hs.taken h
  have hlen : (buf.drop n).length + n = buf.length := by rw [length_drop]; omega
  rw [decodeWhole, decodeAll, h, ← decodeAll_fuel hs (show (buf.drop n).length < buf.length by omega)]

theorem decodeWhole_error {e : ε} (h : dec buf = .error e) :
    decodeWhole dec buf = ([], .error e) := by
  rw [decodeWhole, decodeAll, h]

theorem decodeWhole_frames (hs : Stable dec) {frames : List (List β × α)}
    (hf : ∀ f ∈ frames, Frame dec f.1 f.2) {part : List β} (hpart : dec part = .ok none) :
    decodeWhole dec ((frames.map Prod.fst).flatten ++ part) = (frames.map Prod.snd, .ok part) := by
  induction frames with
  | nil => simp [decodeWhole, decodeAll, hpart]
  | cons f frames ih =>
    have hwhole := (hf f mem_cons_self).whole ((frames.map Prod.fst).flatten ++ part)
    rw [map_cons, flatten_cons, append_assoc, decodeWhole_value hs hwhole,
      drop_left, ih fun g hg => hf g (mem_cons_of_mem _ hg)]
    rfl

theorem takeN_zero_eq_some (h : takeN dec 0 buf = some (as, rest)) : as = [] ∧ buf = rest := by
  simpa [takeN, eq_comm] using h

theorem takeN_succ_eq_some (h : takeN dec (k + 1) buf = some (as, rest)) :
    ∃ a n as', dec buf = .ok (some (a, n)) ∧ as = a :: as' ∧
      takeN dec k (buf.drop n) = some (as', rest) := by
  rw [takeN] at h
  match hd : dec buf with
  | .error e => simp [hd] at h
  | .ok none => simp [hd] at h
  | .ok (some (a, n)) =>
    simp only [hd, Option.map_eq_some_iff, Prod.mk.injEq] at h
    obtain ⟨⟨as', rest'⟩, htake, rfl, rfl⟩ := h
    exact ⟨a, n, as', rfl, rfl, htake⟩

theorem takeN_cons (h : dec buf = .ok (some (a, n)))
    (htake : takeN dec k (buf.drop n) = some (as, rest)) :
    takeN dec (k + 1) buf = some (a :: as, rest) := by
  simp [takeN, h, htake]

theorem takeN_concat (h : takeN dec k buf = some (as, rest))
    (hrest : dec rest = .ok (some (a, n))) :
    takeN dec (k + 1) buf = some (as ++ [a], rest.drop n) := by
  induction k generalizing buf as with
  | zero =>
    obtain ⟨rfl, rfl⟩ := takeN_zero_eq_some h
    exact takeN_cons hrest rfl
  | succ k ih =>
    obtain ⟨b, m, as', hd, rfl, htake⟩ := takeN_succ_eq_some h
    exact takeN_cons hd (ih htake)

theorem takeN_append (hs : Stable dec) {buf : List β} {rest : List β}
    (h : takeN dec k buf = some (as, rest)) (more : List β) :
    takeN dec k (buf ++ more) = some (as, rest ++ more) := by
  induction k generalizing buf as with
  | zero =>
    obtain ⟨rfl, rfl⟩ := takeN_zero_eq_some h
    rfl
  | succ k ih =>
    obtain ⟨b, m, as', hd, rfl, htake⟩ := takeN_succ_eq_some h
    refine takeN_cons (hs.value hd more) ?_
    rw [drop_append_of_le_length (hs.taken hd).2]
    exact ih htake

theorem decodeWhole_of_takeN (hs : Stable dec) (h : takeN dec k buf = some (as, rest)) :
    decodeWhole dec buf = (as ++ (decodeWhole dec rest).1, (decodeWhole dec rest).2) := by
  induction k generalizing buf as with
  | zero =>
    obtain ⟨rfl, rfl⟩ := takeN_zero_eq_some h
    rfl
  | succ k ih =>
    obtain ⟨b, m, as', hd, rfl, htake⟩ := takeN_succ_eq_some h
    rw [decodeWhole_value hs hd, ih htake]
    rfl

theorem length_of_takeN (hs : Stable dec) (h : takeN dec k buf = some (as, rest)) :
    as.length = k ∧ rest.length + bytesTaken dec k buf = buf.length := by
  induction k generalizing buf as with
  | zero =>
    obtain ⟨rfl, rfl⟩ := takeN_zero_eq_some h
    exact ⟨rfl, rfl⟩
  | succ k ih =>
    obtain ⟨b, m, as', hd, rfl, htake⟩ := takeN_succ_eq_some h
    obtain ⟨hlen, hsum⟩ := ih htake
    have hle := (hs.taken hd).2
    rw [length_drop] at hsum
    have htaken : bytesTaken dec (k + 1) buf = m + bytesTaken dec k (buf.drop m) := by
      simp only [bytesTaken, hd]
    rw [length_cons]
    omega

theorem decodeWhole_none (h : dec buf = .ok none) : decodeWhole dec buf = ([], .ok buf) := by
  rw [decodeWhole, decodeAll, h]

theorem takeN_of_decodeWhole (hs : Stable dec) (h : decodeWhole dec buf = (as, .ok rest)) :
    takeN dec as.length buf = some (as, rest) ∧ dec rest = .ok none := by
  induction hlen : buf.length using Nat.strong_induction_on generalizing buf as with
  | _ len ih =>
    match hd : dec buf with
    | .error e =>
      rw [decodeWhole_error hd] at h
      cases (Prod.mk.inj h).2
    | .ok none =>
      rw [decodeWhole_none hd] at h
      obtain ⟨rfl, hrest⟩ := Prod.mk.inj h
      obtain rfl := Except.ok.inj hrest
      exact ⟨rfl, hd⟩
    | .ok (some (a, n)) =>
      rw [decodeWhole_value hs hd] at h
      obtain ⟨rfl, hrest⟩ := Prod.mk.inj h
      obtain ⟨hpos, hle⟩ := hs.taken hd
      obtain ⟨htake, hnone⟩ := ih (buf.drop n).length (by rw [length_drop]; omega)
        (Prod.ext rfl hrest) rfl
      exact ⟨takeN_cons hd htake, hnone⟩

theorem decodeWhole_append (hs : Stable dec) {buf rest : List β}
    (h : decodeWhole dec buf = (as, .ok rest)) (more : List β) :
    decodeWhole dec (buf ++ more) =
      (as ++ (decodeWhole dec (rest ++ more)).1, (decodeWhole dec (rest ++ more)).2) :=
  decodeWhole_of_takeN hs (takeN_append hs (takeN_of_decodeWhole hs h).1 more)

end stable

/-! ### Decoding past errors

`resync dec skip` answers an error of `dec` with an item of its own and passes over as many bytes
as `skip` says.  It has no errors left, so that its values tell a stream as a whole: one item for
each value and each error, in order. -/

def resync (dec : Decoder β α ε) (skip : List β → Option ℕ) : Decoder β (Except ε α) Empty :=
  fun buf =>
    match dec buf with
    | .ok none => .ok none
    | .ok (some (a, n)) => .ok (some (.ok a, n))
    | .error e => .ok ((skip buf).map fun n => (.error e, n))

structure StableSkip (dec : Decoder β α ε) (skip : List β → Option ℕ) : Prop where
  taken : ∀ {buf : List β} {e : ε} {n : ℕ}, dec buf = .error e → skip buf = some n →
    0 < n ∧ n ≤ buf.length
  append : ∀ {buf : List β} {e : ε} {n : ℕ}, dec buf = .error e → skip buf = some n →
    ∀ more, skip (buf ++ more) = some n

section resync
variable {dec : Decoder β α ε} {skip : List β → Option ℕ}

variable {buf : List β} {n : ℕ}

theorem resync_none (h : dec buf = .ok none) : resync dec skip buf = .ok none := by
  rw [resync, h]

theorem resync_value {a : α} (h : dec buf = .ok (some (a, n))) :
    resync dec skip buf = .ok (some (.ok a, n)) := by
  rw [resync, h]

theorem resync_error {e : ε} (h : dec buf = .error e) :
    resync dec skip buf = .ok ((skip buf).map fun n => (.error e, n)) := by
  rw [resync, h]

theorem resync_eq_some {item : Except ε α} (h : resync dec skip buf = .ok (some (item, n))) :
    (∃ a, item = .ok a ∧ dec buf = .ok (some (a, n))) ∨
      ∃ e, item = .error e ∧ dec buf = .error e ∧ skip buf = some n := by
  match hd : dec buf with
  | .ok none =>
    rw [resync_none hd] at h
    cases h
  | .ok (some (a, m)) =>
    rw [resync_value hd] at h
    obtain ⟨rfl, rfl⟩ : .ok a = item ∧ m = n := by simpa using h
    exact .inl ⟨a, rfl, rfl⟩
  | .error e =>
    rw [resync_error hd] at h
    obtain ⟨m, hm, rfl, rfl⟩ : ∃ m, skip buf = some m ∧ .error e = item ∧ m = n := by
      simpa [Option.map_eq_some_iff] using h
    exact .inr ⟨e, rfl, rfl, hm⟩

theorem resync_stable (hs : Stable dec) (hk : StableSkip dec skip) : Stable (resync dec skip) where
  value h more := by
    obtain ⟨a, rfl, hd⟩ | ⟨e, rfl, hd, hn⟩ := resync_eq_some h
    · exact resync_value (hs.value hd more)
    · rw [resync_error (hs.error hd more), hk.append hd hn more]
      rfl
  error h := nomatch h
  taken h := by
    obtain ⟨a, -, hd⟩ | ⟨e, -, hd, hn⟩ := resync_eq_some h
    · exact hs.taken hd
    · exact hk.taken hd hn

theorem decodeWhole_resync (dec : Decoder β α ε) (skip : List β → Option ℕ) (buf : List β) :
    ∃ items rest, decodeWhole (resync dec skip) buf = (items, .ok rest) := by
  match h : decodeWhole (resync dec skip) buf with
  | (items, .ok rest) => exact ⟨items, rest, rfl⟩

end resync

def prefixLen : ℕ := 4

def lengthPrefixed (max : ℕ) (tooLarge : ℕ → ε) (parse : List UInt8 → Except ε α) :
    Decoder UInt8 α ε := fun buf =>
  if buf.length < prefixLen then .ok none
  else
    let bodyLen := beValue (buf.take prefixLen)
    if bodyLen > max then .error (tooLarge bodyLen)
    else
      let frameEnd := prefixLen + bodyLen
      if buf.length < frameEnd then .ok none
      else (parse ((buf.take frameEnd).drop prefixLen)).map fun a => some (a, frameEnd)

section lengthPrefixed
variable {max : ℕ} {tooLarge : ℕ → ε} {parse : List UInt8 → Except ε α}

@[simp] theorem lengthPrefixed_nil : lengthPrefixed max tooLarge parse [] = .ok none := rfl

variable {buf body : List UInt8} {a : α} {n : ℕ}

theorem lengthPrefixed_inv (h : lengthPrefixed max tooLarge parse buf = .ok (some (a, n))) :
    n = prefixLen + beValue (buf.take prefixLen) ∧ beValue (buf.take prefixLen) ≤ max ∧
      n ≤ buf.length ∧ parse ((buf.take n).drop prefixLen) = .ok a := by
  unfold lengthPrefixed at h
  dsimp only at h
  split_ifs at h with h1 h2 h3
  · cases h
  · cases h
  · cases hp : parse ((buf.take (prefixLen + beValue (buf.take prefixLen))).drop prefixLen) with
    | error e => rw [hp] at h; cases h
    | ok b =>
      rw [hp] at h
      obtain ⟨rfl, rfl⟩ : b = a ∧ prefixLen + beValue (buf.take prefixLen) = n := by
        simpa [Except.map] using h
      exact ⟨rfl, not_lt.mp h2, not_lt.mp h3, hp⟩

theorem lengthPrefixed_consumed (h : lengthPrefixed max tooLarge parse buf = .ok (some (a, n))) :
    prefixLen ≤ n ∧ n ≤ buf.length := by
  obtain ⟨hn, -, hle, -⟩ := lengthPrefixed_inv h
  exact ⟨by omega, hle⟩

theorem lengthPrefixed_value (h : lengthPrefixed max tooLarge parse buf = .ok (some (a, n))) :
    let body := (buf.take n).drop prefixLen
    parse body = .ok a ∧ body.length ≤ max ∧
      buf.take n = beBytes prefixLen body.length ++ body := by
  obtain ⟨rfl, hmax, hle, hp⟩ := lengthPrefixed_inv h
  have hlen : ((buf.take (prefixLen + beValue (buf.take prefixLen))).drop prefixLen).length =
      beValue (buf.take prefixLen) := by
    rw [length_drop, length_take]
    omega
  have htake : (buf.take prefixLen).length = prefixLen := by
    rw [length_take]
    omega
  have hbytes := beBytes_beValue (buf.take prefixLen)
  rw [htake] at hbytes
  refine ⟨hp, by omega, ?_⟩
  rw [hlen, hbytes, take_add, drop_append_of_le_length htake.ge,
    drop_of_length_le htake.le, nil_append]

theorem lengthPrefixed_take (buf : List UInt8) :
    lengthPrefixed max tooLarge parse (buf.take (prefixLen + beValue (buf.take prefixLen))) =
      lengthPrefixed max tooLarge parse buf := by
  by_cases hshort : buf.length < prefixLen + beValue (buf.take prefixLen)
  · rw [take_of_length_le hshort.le]
  unfold lengthPrefixed
  dsimp only
  rw [take_take, Nat.min_eq_left (Nat.le_add_right _ _), take_take, Nat.min_self,
    length_take, Nat.min_eq_left (not_lt.mp hshort), if_neg (by omega),
    if_neg (show ¬ buf.length < prefixLen by omega), if_neg (lt_irrefl _), if_neg hshort]

theorem lengthPrefixed_none (h : lengthPrefixed max tooLarge parse buf = .ok none) :
    buf.length < prefixLen + max := by
  unfold lengthPrefixed at h
  dsimp only at h
  split_ifs at h with h1 h2 h3
  · omega
  · omega
  · cases hp : parse ((buf.take (prefixLen + beValue (buf.take prefixLen))).drop prefixLen) with
    | error | ok => rw [hp] at h; cases h

theorem lengthPrefixed_append {buf : List UInt8} (more : List UInt8)
    (h : lengthPrefixed max tooLarge parse buf ≠ .ok none) :
    lengthPrefixed max tooLarge parse (buf ++ more) = lengthPrefixed max tooLarge parse buf := by
  unfold lengthPrefixed at h ⊢
  dsimp only at h ⊢
  by_cases h1 : buf.length < prefixLen
  · exact absurd (if_pos h1) h
  rw [if_neg h1] at h ⊢
  rw [length_append, if_neg (by omega), take_append_of_le_length (by omega)]
  by_cases h2 : beValue (buf.take prefixLen) > max
  · rw [if_pos h2, if_pos h2]
  rw [if_neg h2] at h ⊢
  rw [if_neg h2]
  by_cases h3 : buf.length < prefixLen + beValue (buf.take prefixLen)
  · exact absurd (if_pos h3) h
  rw [if_neg h3, if_neg (by omega), take_append_of_le_length (by omega)]

theorem lengthPrefixed_stable : Stable (lengthPrefixed max tooLarge parse) where
  value h more := by rw [lengthPrefixed_append more (by rw [h]; simp), h]
  error h more := by rw [lengthPrefixed_append more (by rw [h]; simp), h]
  taken h := by
    have := lengthPrefixed_consumed h
    simp only [prefixLen] at this
    omega

theorem lengthPrefixed_body {body : List UInt8} (hmax : body.length ≤ max)
    (hmax32 : max < 256 ^ prefixLen) (rest : List UInt8) :
    lengthPrefixed max tooLarge parse (beBytes prefixLen body.length ++ body ++ rest) =
      (parse body).map fun a => some (a, prefixLen + body.length) := by
  have hlen : (beBytes prefixLen body.length ++ body).length = prefixLen + body.length := by
    rw [length_append, beBytes_length]
  have hval : beValue (beBytes prefixLen body.length) = body.length := beValue_beBytes (by omega)
  have htake : ((beBytes prefixLen body.length ++ body) ++ rest).take prefixLen =
      beBytes prefixLen body.length := by
    rw [append_assoc, take_append_of_le_length (by rw [beBytes_length]),
      take_of_length_le (by rw [beBytes_length])]
  unfold lengthPrefixed
  dsimp only
  rw [htake, hval, length_append, hlen, if_neg (by omega), if_neg (by omega),
    if_neg (by omega), take_append_of_le_length (by omega),
    take_of_length_le (by omega), drop_append_of_le_length (by rw [beBytes_length]),
    drop_of_length_le (by rw [beBytes_length]), nil_append]

theorem lengthPrefixed_partly {p : List UInt8} (hmax : body.length ≤ max)
    (hmax32 : max < 256 ^ prefixLen) (hp : p <+: beBytes prefixLen body.length ++ body)
    (hne : p ≠ beBytes prefixLen body.length ++ body) :
    lengthPrefixed max tooLarge parse p = .ok none := by
  obtain ⟨c, hc⟩ := hp
  have hpc := congrArg List.length hc
  rw [length_append, length_append, beBytes_length] at hpc
  have hclen : 0 < c.length := by
    refine length_pos_iff.mpr ?_
    rintro rfl
    exact hne (by simpa using hc)
  unfold lengthPrefixed
  dsimp only
  by_cases h4 : p.length < prefixLen
  · rw [if_pos h4]
  · have htake : p.take prefixLen = beBytes prefixLen body.length := by
      have hprefix : (beBytes prefixLen body.length).length = prefixLen := beBytes_length _ _
      have := congrArg (List.take prefixLen) hc
      rwa [take_append_of_le_length (by omega),
        take_append_of_le_length hprefix.ge, take_of_length_le hprefix.le] at this
    rw [if_neg h4, htake, beValue_beBytes (by omega), if_neg (by omega), if_pos (by omega)]

theorem lengthPrefixed_ne_nil (body : List UInt8) : beBytes prefixLen body.length ++ body ≠ [] := by
  intro h
  have hlen := congrArg List.length h
  rw [length_append, beBytes_length] at hlen
  exact absurd hlen (by simp [prefixLen])

theorem lengthPrefixed_frame (hmax : body.length ≤ max) (hmax32 : max < 256 ^ prefixLen)
    (hp : parse body = .ok a) :
    Frame (lengthPrefixed max tooLarge parse) (beBytes prefixLen body.length ++ body) a where
  nonempty := lengthPrefixed_ne_nil body
  whole rest := by
    rw [lengthPrefixed_body hmax hmax32, hp, length_append, beBytes_length]
    rfl
  partly _ hprefix hne := lengthPrefixed_partly hmax hmax32 hprefix hne

end lengthPrefixed
end Framing
