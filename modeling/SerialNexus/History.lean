import SerialNexus.Graph

/-! # The scrollback of a browser console

`web/src/assets/history.mjs`: a console folds the chunks of a tap, each stamped with its offset in
the hostward stream, into one log.  `splice` keeps what lies at or beyond the frontier and counts
what was skipped, and `trim` drops the oldest bytes past a cap.

Offsets and the gap count are JavaScript numbers: integers up to `2 ^ 53` are exact, sums and
differences beyond that are rounded (`toNumber`).  Lengths of arrays are plain naturals. -/

namespace SerialNexus

open List

/-! ### Numbers -/

def toNumber (n : ℕ) : ℕ :=
  let unit := 2 ^ (n.log2 - 52)
  let low := n / unit * unit
  let rest := n % unit
  if 2 * rest < unit ∨ (2 * rest = unit ∧ n / unit % 2 = 0) then low else low + unit

def maxExact : ℕ := 2 ^ 53

theorem toNumber_of_le {n : ℕ} (h : n ≤ maxExact) : toNumber n = n := by
  rcases Nat.lt_or_eq_of_le h with hlt | rfl
  · have hlog : n.log2 - 52 = 0 := by
      rcases Nat.eq_zero_or_pos n with rfl | hpos
      · rfl
      · have := (Nat.log2_lt hpos.ne').mpr hlt
        omega
    simp [toNumber, hlog, Nat.mod_one]
  · decide +kernel

/-! ### The log -/

structure History where
  cap : ℕ
  frontier : Option ℕ
  epoch : Option ℕ
  chunks : List Chunk
  total : ℕ
  dropped : ℕ
deriving DecidableEq, Repr

namespace History

def defaultCap : ℕ := 16 * 1024 * 1024

def newHistory (cap : ℕ) : History :=
  { cap, frontier := none, epoch := none, chunks := [], total := 0, dropped := 0 }

def dropOldest (cap : ℕ) : List Chunk → ℕ → List Chunk × ℕ
  | c :: c' :: cs, total =>
    if total > cap then dropOldest cap (c' :: cs) (total - c.length) else (c :: c' :: cs, total)
  | cs, total => (cs, total)

def trim (h : History) : History :=
  match dropOldest h.cap h.chunks h.total with
  | ([only], total) =>
    if total > h.cap then
      let keep := only.drop (only.length - h.cap)
      { h with chunks := [keep], total := keep.length }
    else { h with chunks := [only], total }
  | (chunks, total) => { h with chunks, total }

def fromStored (bytes : Chunk) (endOffset : ℕ) (epoch : Option ℕ) (cap : ℕ) : History :=
  let h := { newHistory cap with epoch, frontier := some endOffset }
  if bytes ≠ [] then trim { h with chunks := [bytes], total := bytes.length } else h

def append (h : History) (fresh : Chunk) (stop : ℕ) : History :=
  trim
    { h with chunks := h.chunks ++ [fresh], total := h.total + fresh.length, frontier := some stop }

def splice (h : History) (offset : ℕ) (bytes : Chunk) : Chunk × History :=
  -- the first chunk anchors the log at its own offset
  let frontier := h.frontier.getD offset
  let h := { h with frontier := some frontier }
  let stop := toNumber (offset + bytes.length)
  if stop ≤ frontier then (bytes.drop bytes.length, h)
  else if offset ≤ frontier then
    let fresh := bytes.drop (frontier - offset)
    (fresh, h.append fresh stop)
  else
    let dropped := toNumber (h.dropped + toNumber (offset - frontier))
    (bytes, { h with dropped }.append bytes stop)

def noteGap (h : History) (fromOffset : ℕ) : ℕ × History :=
  match h.frontier with
  | none => (0, h)
  | some frontier =>
    if fromOffset ≤ frontier then (0, h)
    else
      let lost := toNumber (fromOffset - frontier)
      (lost, { h with dropped := toNumber (h.dropped + lost), frontier := some fromOffset })

def reanchor (h : History) (fromOffset : ℕ) : Bool × History :=
  if h.frontier = some fromOffset then (false, h)
  else (true, { h with frontier := some fromOffset })

def offsetSpaceChanged (storedEpoch : Option ℕ) (epoch : ℕ) : Bool := storedEpoch ≠ some epoch

def setAll : Chunk → ℕ → List Chunk → Option Chunk
  | out, _, [] => some out
  | out, o, c :: cs =>
    if o + c.length ≤ out.length then
      setAll (out.take o ++ c ++ out.drop (o + c.length)) (o + c.length) cs
    else none

def bytesOf (h : History) : Option Chunk := setAll (List.replicate h.total 0) 0 h.chunks

/-! ### Trimming -/

def retained (h : History) : Chunk := h.chunks.flatten

def Counted (h : History) : Prop := h.total = h.retained.length

theorem setAll_eq (done : Chunk) (cs : List Chunk) :
    setAll (done ++ List.replicate cs.flatten.length 0) done.length cs = some (done ++ cs.flatten) := by
  induction cs generalizing done with
  | nil => simp [setAll]
  | cons c cs ih =>
    have hstep : (done ++ List.replicate (c :: cs).flatten.length 0).take done.length ++ c ++
        (done ++ List.replicate (c :: cs).flatten.length 0).drop (done.length + c.length) =
        (done ++ c) ++ List.replicate cs.flatten.length 0 := by
      simp [drop_append]
    rw [setAll, if_pos (by simp), hstep, ← length_append, ih]
    simp

variable {h : History}

theorem bytesOf_eq (hc : h.Counted) : h.bytesOf = some h.retained := by
  have := setAll_eq [] h.chunks
  rw [nil_append, nil_append] at this
  rw [bytesOf, hc]
  exact this

theorem dropOldest_spec (cap : ℕ) (cs : List Chunk) :
    (dropOldest cap cs cs.flatten.length).2 =
        (dropOldest cap cs cs.flatten.length).1.flatten.length ∧
      (dropOldest cap cs cs.flatten.length).1.flatten <:+ cs.flatten := by
  match cs with
  | [] => exact ⟨rfl, suffix_rfl⟩
  | [c] => exact ⟨rfl, suffix_rfl⟩
  | c :: c' :: cs =>
    rw [dropOldest]
    split_ifs
    · have hlen : (c :: c' :: cs).flatten.length - c.length = (c' :: cs).flatten.length := by
        rw [flatten_cons, length_append]
        omega
      obtain ⟨htotal, hsuffix⟩ := dropOldest_spec cap (c' :: cs)
      rw [hlen]
      exact ⟨htotal, hsuffix.trans (suffix_append c _)⟩
    · exact ⟨rfl, suffix_rfl⟩

theorem trim_spec (hc : h.Counted) :
    h.trim.Counted ∧ h.trim.retained <:+ h.retained ∧ h.trim.frontier = h.frontier ∧
      h.trim.dropped = h.dropped := by
  obtain ⟨htotal, hsuffix⟩ := dropOldest_spec h.cap h.chunks
  rw [Counted, retained] at hc
  rw [← hc] at htotal hsuffix
  unfold trim
  split
  · next only total heq =>
    rw [heq] at htotal hsuffix
    split_ifs
    · refine ⟨by simp [Counted, retained], ?_, rfl, rfl⟩
      refine List.IsSuffix.trans ?_ hsuffix
      simpa [retained] using drop_suffix _ _
    · exact ⟨htotal, hsuffix, rfl, rfl⟩
  · next chunks total _ heq =>
    rw [heq] at htotal hsuffix
    exact ⟨htotal, hsuffix, rfl, rfl⟩

theorem append_spec (hc : h.Counted) (fresh : Chunk) (stop : ℕ) :
    (h.append fresh stop).Counted ∧ (h.append fresh stop).retained <:+ h.retained ++ fresh ∧
      (h.append fresh stop).frontier = some stop ∧
      (h.append fresh stop).dropped = h.dropped := by
  have hflat : (h.chunks ++ [fresh]).flatten = h.retained ++ fresh := by simp [retained]
  have hcounted : Counted { h with
      chunks := h.chunks ++ [fresh], total := h.total + fresh.length, frontier := some stop } := by
    rw [Counted] at hc
    simp only [Counted, retained, hflat, length_append, hc]
  obtain ⟨htotal, hsuffix, hfrontier, hdropped⟩ := trim_spec hcounted
  refine ⟨htotal, ?_, hfrontier, hdropped⟩
  rw [← hflat]
  exact hsuffix

def slice (S : ℕ → UInt8) (offset len : ℕ) : Chunk := (List.range' offset len).map S

variable {S : ℕ → UInt8}

@[simp] theorem slice_length (S : ℕ → UInt8) (offset len : ℕ) : (slice S offset len).length = len := by
  simp [slice]

theorem slice_drop (S : ℕ → UInt8) (offset len k : ℕ) :
    (slice S offset len).drop k = slice S (offset + k) (len - k) := by
  simp [slice, ← map_drop, drop_range']

structure Anchored (h : History) (f : ℕ) : Prop where
  frontier : h.frontier = some f
  counted : h.Counted
  dropped_le : h.dropped ≤ f
  exact : f ≤ maxExact

variable {h : History} {f o n : ℕ} {cs : List (ℕ × ℕ)}

theorem Anchored.splice (ha : h.Anchored f) (hend : o + n ≤ maxExact) :
    (h.splice o (slice S o n)).1 = slice S (max o f) (o + n - max o f) ∧
      (h.splice o (slice S o n)).2.Anchored (max f (o + n)) ∧
      (h.splice o (slice S o n)).2.dropped = h.dropped + (o - f) ∧
      (h.splice o (slice S o n)).2.retained <:+ h.retained ++ (h.splice o (slice S o n)).1 := by
  have hdrop := ha.dropped_le
  have hself : { h with frontier := some f } = h := by rw [← ha.frontier]
  unfold History.splice
  simp only [ha.frontier, Option.getD_some, hself, slice_length, toNumber_of_le hend]
  by_cases hseen : o + n ≤ f
  · rw [if_pos hseen]
    refine ⟨?_, ?_, ?_, ?_⟩
    · rw [slice_drop, max_eq_right (by omega), Nat.sub_self, Nat.sub_eq_zero_of_le hseen]
      rfl
    · rw [max_eq_left hseen]
      exact ha
    · rw [Nat.sub_eq_zero_of_le (by omega), Nat.add_zero]
    · rw [slice_drop, Nat.sub_self]
      simp [slice]
  rw [if_neg hseen]
  by_cases hmeets : o ≤ f
  · rw [if_pos hmeets]
    have hfresh : (slice S o n).drop (f - o) = slice S (max o f) (o + n - max o f) := by
      rw [slice_drop, max_eq_right hmeets]
      congr 1 <;> omega
    obtain ⟨hcounted, hsuffix, hfrontier, hdropped⟩ :=
      append_spec ha.counted ((slice S o n).drop (f - o)) (o + n)
    refine ⟨hfresh, ⟨?_, hcounted, ?_, ?_⟩, ?_, hsuffix⟩
    · rw [hfrontier, max_eq_right (by omega)]
    · rw [hdropped]
      omega
    · omega
    · rw [hdropped, Nat.sub_eq_zero_of_le hmeets, Nat.add_zero]
  · rw [if_neg hmeets]
    have hgap : toNumber (h.dropped + toNumber (o - f)) = h.dropped + (o - f) := by
      rw [toNumber_of_le (show o - f ≤ maxExact by omega), toNumber_of_le (by omega)]
    rw [hgap]
    have hcounted' : Counted { h with frontier := some f, dropped := h.dropped + (o - f) } :=
      ha.counted
    obtain ⟨hcounted, hsuffix, hfrontier, hdropped⟩ := append_spec hcounted' (slice S o n) (o + n)
    refine ⟨?_, ⟨?_, hcounted, ?_, ?_⟩, ?_, hsuffix⟩
    · rw [max_eq_left (by omega), Nat.add_sub_cancel_left]
    · rw [hfrontier, max_eq_right (by omega)]
    · rw [hdropped]
      dsimp only
      omega
    · omega
    · rw [hdropped]

structure Piece where
  offset : ℕ
  bytes : Chunk

def Piece.Covers (p : Piece) (x : ℕ) : Prop := p.offset ≤ x ∧ x < p.offset + p.bytes.length

instance (p : Piece) (x : ℕ) : Decidable (p.Covers x) := inferInstanceAs (Decidable (_ ∧ _))

def spliceAll (S : ℕ → UInt8) : History → List (ℕ × ℕ) → List Piece × History
  | h, [] => ([], h)
  | h, c :: cs =>
    let r := h.splice c.1 (slice S c.1 c.2)
    let rest := spliceAll S r.2 cs
    (⟨c.1 + c.2 - r.1.length, r.1⟩ :: rest.1, rest.2)

def uncovered (pieces : List Piece) (a b : ℕ) : Finset ℕ :=
  (Finset.Ico a b).filter fun x => ∀ p ∈ pieces, ¬ p.Covers x

def largestEnd (f : ℕ) (cs : List (ℕ × ℕ)) : ℕ := (cs.map fun c => c.1 + c.2).foldl max f

structure Spliced (S : ℕ → UInt8) (h : History) (f : ℕ) (cs : List (ℕ × ℕ)) (pieces : List Piece)
    (h' : History) : Prop where
  anchored : h'.Anchored (largestEnd f cs)
  bytes : ∀ p ∈ pieces, p.bytes = slice S p.offset p.bytes.length
  ahead : ∀ p ∈ pieces, p.bytes ≠ [] → f ≤ p.offset
  ordered : (pieces.filter (·.bytes ≠ [])).Pairwise fun p q => p.offset + p.bytes.length ≤ q.offset
  covers : ∀ before c after, cs = before ++ c :: after → ∃ p, pieces[before.length]? = some p ∧
    ∀ x, p.Covers x ↔ c.1 ≤ x ∧ x < c.1 + c.2 ∧ largestEnd f before ≤ x
  dropped : h'.dropped = h.dropped + (uncovered pieces f (largestEnd f cs)).card
  retained : h'.retained <:+ h.retained ++ (pieces.map Piece.bytes).flatten

theorem le_foldl_max (f : ℕ) (ns : List ℕ) : f ≤ ns.foldl max f := by
  induction ns generalizing f with
  | nil => exact le_rfl
  | cons n ns ih => exact (le_max_left f n).trans (ih _)

theorem le_largestEnd (f : ℕ) (cs : List (ℕ × ℕ)) : f ≤ largestEnd f cs := le_foldl_max _ _

theorem card_uncovered_cons {p : Piece} {pieces : List Piece} {e : ℕ}
    (hp : ∀ x, p.Covers x ↔ o ≤ x ∧ x < o + n ∧ f ≤ x)
    (hahead : ∀ q ∈ pieces, q.bytes ≠ [] → max f (o + n) ≤ q.offset) (he : max f (o + n) ≤ e) :
    (uncovered (p :: pieces) f e).card = (o - f) + (uncovered pieces (max f (o + n)) e).card := by
  have hlow : (Finset.Ico f (max f (o + n))).filter (fun x => ∀ q ∈ p :: pieces, ¬ q.Covers x) =
      Finset.Ico f o := by
    ext x
    simp only [Finset.mem_filter, Finset.mem_Ico, forall_mem_cons, hp]
    constructor
    · rintro ⟨hx, hnot, -⟩
      omega
    · intro hx
      refine ⟨by omega, by omega, fun q hq hcov => ?_⟩
      obtain ⟨h1, h2⟩ := hcov
      have hne : q.bytes ≠ [] := by
        rintro hnil
        simp [hnil] at h2
        omega
      have := hahead q hq hne
      omega
  have hhigh : (Finset.Ico (max f (o + n)) e).filter (fun x => ∀ q ∈ p :: pieces, ¬ q.Covers x) =
      uncovered pieces (max f (o + n)) e := by
    refine Finset.filter_congr fun x hx => ?_
    rw [Finset.mem_Ico] at hx
    simp only [forall_mem_cons, hp]
    exact ⟨fun h => h.2, fun h => ⟨by omega, h⟩⟩
  rw [uncovered, ← Finset.Ico_union_Ico_eq_Ico (le_max_left f (o + n)) he, Finset.filter_union,
    hlow, hhigh, Finset.card_union_of_disjoint, Nat.card_Ico]
  refine Finset.disjoint_left.mpr fun x hx hx' => ?_
  rw [Finset.mem_Ico] at hx
  have := (Finset.mem_Ico.mp (Finset.mem_filter.mp hx').1).1
  omega

theorem Anchored.spliceAll (ha : h.Anchored f) (hcs : ∀ c ∈ cs, c.1 + c.2 ≤ maxExact) :
    Spliced S h f cs (spliceAll S h cs).1 (spliceAll S h cs).2 := by
  induction cs generalizing h f with
  | nil =>
    refine ⟨ha, by simp [History.spliceAll], by simp [History.spliceAll],
      by simp [History.spliceAll], by simp, ?_, by simp [History.spliceAll]⟩
    simp [History.spliceAll, uncovered, largestEnd]
  | cons c cs ih =>
    obtain ⟨o, n⟩ := c
    have hend : o + n ≤ maxExact := hcs (o, n) mem_cons_self
    obtain ⟨hfresh, hanch, hdropped, hretained⟩ := ha.splice (S := S) hend
    have hrest := ih hanch fun c hc => hcs c (mem_cons_of_mem _ hc)
    set r := h.splice o (slice S o n) with hr
    have hlen : r.1.length = o + n - max o f := by rw [hfresh, slice_length]
    set p : Piece := ⟨o + n - r.1.length, r.1⟩ with hpdef
    have hall : History.spliceAll S h ((o, n) :: cs) =
        (p :: (History.spliceAll S r.2 cs).1, (History.spliceAll S r.2 cs).2) := rfl
    have hcov : ∀ x, p.Covers x ↔ o ≤ x ∧ x < o + n ∧ f ≤ x := by
      intro x
      simp only [Piece.Covers, hpdef]
      omega
    have hpieces : ∀ q ∈ (History.spliceAll S r.2 cs).1, q.bytes ≠ [] →
        p.bytes ≠ [] → p.offset + p.bytes.length ≤ q.offset := by
      intro q hq hne hpne
      have := hrest.ahead q hq hne
      simp only [hpdef]
      omega
    rw [hall]
    refine ⟨hrest.anchored, ?_, ?_, ?_, ?_, ?_, ?_⟩
    · refine forall_mem_cons.mpr ⟨?_, hrest.bytes⟩
      simp only [hpdef, hlen]
      rw [hfresh]
      by_cases hnil : o + n ≤ max o f
      · simp [slice, Nat.sub_eq_zero_of_le hnil]
      · congr 1
        omega
    · refine forall_mem_cons.mpr ⟨fun hne => ?_, fun q hq hne => ?_⟩
      · have hpos := length_pos_iff.mpr hne
        simp only [hpdef] at hpos ⊢
        omega
      · exact (le_max_left f (o + n)).trans (hrest.ahead q hq hne)
    · by_cases hne : p.bytes = []
      · rw [filter_cons_of_neg (by simp [hne])]
        exact hrest.ordered
      · rw [filter_cons_of_pos (by simpa using hne)]
        refine List.pairwise_cons.mpr ⟨fun q hq => ?_, hrest.ordered⟩
        obtain ⟨hmem, hqne⟩ := mem_filter.mp hq
        exact hpieces q hmem (by simpa using hqne) hne
    · intro before c after heq
      cases before with
      | nil =>
        obtain ⟨rfl, rfl⟩ : (o, n) = c ∧ cs = after := by simpa using heq
        exact ⟨p, rfl, hcov⟩
      | cons b before =>
        obtain ⟨rfl, rfl⟩ : (o, n) = b ∧ cs = before ++ c :: after := by simpa using heq
        exact hrest.covers before c after rfl
    · have hcard := card_uncovered_cons hcov hrest.ahead
        (le_largestEnd (max f (o + n)) cs)
      have hlargest : largestEnd f ((o, n) :: cs) = largestEnd (max f (o + n)) cs := rfl
      rw [hlargest, hcard, hrest.dropped, hdropped]
      omega
    · rw [map_cons, flatten_cons, ← append_assoc]
      refine hrest.retained.trans ?_
      obtain ⟨lost, hlost⟩ := hretained
      exact ⟨lost, by rw [← append_assoc, hlost]⟩

def opened (cap : ℕ) (epoch : Option ℕ) : Option (Chunk × ℕ) → History
  | none => newHistory cap
  | some (bytes, endOffset) => fromStored bytes endOffset epoch cap

def storedBytes (start : Option (Chunk × ℕ)) : Chunk := (start.map Prod.fst).getD []

def seen (start : Option (Chunk × ℕ)) (cs : List (ℕ × ℕ)) : Option ℕ :=
  (start.toList.map Prod.snd ++ cs.map fun c => c.1 + c.2).max?

def anchor (start : Option (Chunk × ℕ)) (cs : List (ℕ × ℕ)) : Option ℕ :=
  (start.map Prod.snd).or (cs.head?.map Prod.fst)

theorem fromStored_anchored (bytes : Chunk) {endOffset : ℕ} (epoch : Option ℕ) (cap : ℕ)
    (h : endOffset ≤ maxExact) :
    (fromStored bytes endOffset epoch cap).Anchored endOffset ∧
      (fromStored bytes endOffset epoch cap).dropped = 0 ∧
      (fromStored bytes endOffset epoch cap).retained <:+ bytes := by
  unfold fromStored
  split_ifs with hne
  · have hcounted : Counted { newHistory cap with
        epoch, frontier := some endOffset, chunks := [bytes], total := bytes.length } := by
      simp [Counted, retained]
    obtain ⟨hcount, hsuffix, hfrontier, hdropped⟩ := trim_spec hcounted
    refine ⟨⟨hfrontier, hcount, ?_, h⟩, hdropped, ?_⟩
    · exact hdropped.le.trans (Nat.zero_le _)
    · simpa [retained] using hsuffix
  · exact ⟨⟨rfl, rfl, Nat.zero_le _, h⟩, rfl, nil_suffix⟩

structure Faithful (S : ℕ → UInt8) (start : Option (Chunk × ℕ)) (cs : List (ℕ × ℕ))
    (pieces : List Piece) (h : History) : Prop where
  bytes : ∀ p ∈ pieces, p.bytes = slice S p.offset p.bytes.length
  ordered : (pieces.filter (·.bytes ≠ [])).Pairwise fun p q => p.offset + p.bytes.length ≤ q.offset
  covers : ∀ before c after, cs = before ++ c :: after → ∃ p, pieces[before.length]? = some p ∧
    ∀ x, p.Covers x ↔ c.1 ≤ x ∧ x < c.1 + c.2 ∧ (seen start before).getD c.1 ≤ x
  frontier : h.frontier = seen start cs
  dropped : h.dropped = (uncovered pieces ((anchor start cs).getD 0) (h.frontier.getD 0)).card
  retained : ∃ log, h.bytesOf = some log ∧
    log <:+ storedBytes start ++ (pieces.map Piece.bytes).flatten

theorem Anchored.faithful {start : Option (Chunk × ℕ)} (ha : h.Anchored f)
    (hcs : ∀ c ∈ cs, c.1 + c.2 ≤ maxExact) (hzero : h.dropped = 0)
    (hstored : h.retained <:+ storedBytes start) (hanchor : anchor start cs = some f)
    (hseen : seen start cs = some (largestEnd f cs))
    (hmoment : ∀ before c after, cs = before ++ c :: after →
      (seen start before).getD c.1 = largestEnd f before) :
    Faithful S start cs (History.spliceAll S h cs).1 (History.spliceAll S h cs).2 := by
  have hall : Spliced S h f cs _ _ := ha.spliceAll hcs
  refine ⟨hall.bytes, hall.ordered, fun before c after hsplit => ?_, ?_, ?_, _,
    bytesOf_eq hall.anchored.counted, ?_⟩
  · rw [hmoment before c after hsplit]
    exact hall.covers before c after hsplit
  · rw [hseen]
    exact hall.anchored.frontier
  · rw [hanchor, hall.anchored.frontier, Option.getD_some, Option.getD_some, hall.dropped, hzero,
      Nat.zero_add]
  · refine hall.retained.trans ?_
    obtain ⟨lost, hlost⟩ := hstored
    exact ⟨lost, by rw [← append_assoc, hlost]⟩

theorem scrollback_splice (S : ℕ → UInt8) (cap : ℕ) (epoch : Option ℕ)
    (start : Option (Chunk × ℕ)) (cs : List (ℕ × ℕ)) (hstart : ∀ s ∈ start, s.2 ≤ maxExact)
    (hcs : ∀ c ∈ cs, c.1 + c.2 ≤ maxExact) :
    Faithful S start cs (spliceAll S (opened cap epoch start) cs).1
      (spliceAll S (opened cap epoch start) cs).2 := by
  match start, hstart with
  | some (bytes, endOffset), hstart =>
    obtain ⟨hanch, hzero, hstored⟩ := fromStored_anchored bytes epoch cap (hstart _ rfl)
    refine hanch.faithful hcs hzero ?_ rfl rfl fun _ _ _ _ => rfl
    exact hstored
  | none, _ =>
    cases cs with
    | nil => exact ⟨by simp [spliceAll], by simp [spliceAll], by simp, rfl, rfl, [], rfl, by simp⟩
    | cons c cs =>
      -- an empty log is anchored by its first chunk
      have hend : c.1 + c.2 ≤ maxExact := hcs c mem_cons_self
      have hanch : Anchored { newHistory cap with frontier := some c.1 } c.1 :=
        ⟨rfl, rfl, Nat.zero_le _, by omega⟩
      have hmax : max c.1 (c.1 + c.2) = c.1 + c.2 := max_eq_right (by omega)
      have hfirst : ∀ cs, seen none (c :: cs) = some (largestEnd c.1 (c :: cs)) := by
        intro cs
        change some ((cs.map fun c => c.1 + c.2).foldl max (c.1 + c.2)) =
          some ((cs.map fun c => c.1 + c.2).foldl max (max c.1 (c.1 + c.2)))
        rw [hmax]
      refine hanch.faithful hcs rfl nil_suffix rfl (hfirst cs) ?_
      intro before d after hsplit
      cases before with
      | nil =>
        obtain ⟨rfl, -⟩ : c = d ∧ cs = after := by simpa using hsplit
        rfl
      | cons b before =>
        obtain ⟨rfl, -⟩ : c = b ∧ cs = before ++ d :: after := by simpa using hsplit
        rw [hfirst, Option.getD_some]

theorem scrollback_splice_reload :
    let S : ℕ → UInt8 := fun x => UInt8.ofNat x
    let r := spliceAll S (opened 6 (some 1) (some ([7, 8, 9], 10))) [(8, 4), (14, 3), (9, 6)]
    r.1.map (fun p => (p.offset, p.bytes)) = [(10, [10, 11]), (14, [14, 15, 16]), (15, [])] ∧
      r.2.dropped = 2 ∧ r.2.frontier = some 17 ∧ r.2.bytesOf = some [10, 11, 14, 15, 16] ∧
      Faithful S (some ([7, 8, 9], 10)) [(8, 4), (14, 3), (9, 6)] r.1 r.2 :=
  ⟨by decide, by decide, by decide, by decide, scrollback_splice _ 6 (some 1) _ _ (by decide)
    (by decide)⟩

theorem splice_beyond_exact :
    (newHistory defaultCap).splice (2 ^ 53) [7] =
      ([], { newHistory defaultCap with frontier := some (2 ^ 53) }) ∧
    ¬ Faithful (fun _ => 7) none [(2 ^ 53, 1)]
      (spliceAll (fun _ => 7) (newHistory defaultCap) [(2 ^ 53, 1)]).1
      (spliceAll (fun _ => 7) (newHistory defaultCap) [(2 ^ 53, 1)]).2 := by
  have hrun : (spliceAll (fun _ => 7) (newHistory defaultCap) [(2 ^ 53, 1)]).2.frontier =
      some (2 ^ 53) := by decide +kernel
  refine ⟨by decide +kernel, fun h => ?_⟩
  have hfrontier := h.frontier
  rw [hrun] at hfrontier
  revert hfrontier
  decide +kernel

end History
end SerialNexus
