import SerialNexus.Pattern

/-! # Literal patterns in the scan window

What a wait for literal patterns reports (`daemon/src/pattern.rs`).  The window forgets all but the
last `lookback` bytes after each scan that found nothing, and all of its bytes at a hole. -/

namespace SerialNexus

open List Occurrences

def minLookback (specs : List PatternSpec) : ℕ :=
  max ((((specs.filter fun s => s.kind = .literal).map fun s => s.bytes.length).max?).getD 1) 1

structure Matcher.LeftmostFirst (m : Matcher) (specs : List PatternSpec) : Prop where
  names : m.names = specs.map (·.name)
  found : ∀ {hay : Chunk} {hit : Hit}, m.earliest hay = some hit →
    Leftmost (needles specs) hay hit.index hit.start ∧
      hit.end_ = hit.start + ((needles specs).getD hit.index []).length
  missed : ∀ {hay : Chunk}, m.earliest hay = none → ¬ Occurs (needles specs) hay

variable {specs : List PatternSpec}

theorem Matcher.literals_leftmostFirst (hne : ∀ p ∈ needles specs, p ≠ []) :
    (Matcher.literals specs).LeftmostFirst specs where
  names := rfl
  found h := by
    obtain ⟨⟨k, i⟩, hki, rfl⟩ := Option.map_eq_some_iff.mp h
    exact ⟨leftmost_eq_some hne hki, rfl⟩
  missed h := leftmost_eq_none hne (Option.map_eq_none_iff.mp h)

theorem length_le_minLookback {s : PatternSpec} (hs : s ∈ specs) (hk : s.kind = .literal) :
    s.bytes.length ≤ minLookback specs := by
  have hmem : s.bytes.length ∈
      (specs.filter fun s => s.kind = .literal).map fun s => s.bytes.length :=
    mem_map_of_mem (mem_filter.mpr ⟨hs, by simpa using hk⟩)
  unfold minLookback
  cases hmax : ((specs.filter fun s => s.kind = .literal).map fun s => s.bytes.length).max? with
  | none =>
    rw [max?_eq_none_iff] at hmax
    rw [hmax] at hmem
    cases hmem
  | some n =>
    have hn := (max?_eq_some_iff.mp hmax).2 _ hmem
    rw [Option.getD_some]
    omega

namespace ScanWindow

def opened (s : ScanWindow) : Option (Chunk × ℕ × ℕ) → Option PatternMatch × ScanWindow
  | none => (none, s)
  | some (ring, base, excluded) => s.seed ring base excluded

def hear : Option PatternMatch × ScanWindow → Chunk × ℕ → Option PatternMatch × ScanWindow
  | (some hit, s), _ => (some hit, s)
  | (none, s), (chunk, gapBefore) => s.feed chunk gapBefore

def listened (s : ScanWindow) (seed : Option (Chunk × ℕ × ℕ)) (feeds : List (Chunk × ℕ)) :
    Option PatternMatch × ScanWindow :=
  feeds.foldl hear (s.opened seed)

def reported (s : ScanWindow) (seed : Option (Chunk × ℕ × ℕ)) (feeds : List (Chunk × ℕ)) :
    Option PatternMatch :=
  if feeds ≠ [] ∧ (s.listened seed feeds.dropLast).1.isSome then none
  else (s.listened seed feeds).1

end ScanWindow

/-- The bytes observed. -/
def heard (seed : Option (Chunk × ℕ × ℕ)) (feeds : List (Chunk × ℕ)) : Chunk :=
  (seed.elim [] (·.1)) ++ (feeds.map Prod.fst).flatten

def heardFrom (base : ℕ) (seed : Option (Chunk × ℕ × ℕ)) : ℕ := seed.elim base (·.2.1)

def heardHoles : ℕ → List (Chunk × ℕ) → List ℕ
  | _, [] => []
  | n, (chunk, gap) :: feeds => (if gap > 0 then [n] else []) ++ heardHoles (n + chunk.length) feeds

theorem heardHoles_concat (n : ℕ) (feeds : List (Chunk × ℕ)) (chunk : Chunk) (gap : ℕ) :
    heardHoles n (feeds ++ [(chunk, gap)]) =
      heardHoles n feeds ++ if gap > 0 then [n + (feeds.map Prod.fst).flatten.length] else [] := by
  induction feeds generalizing n with
  | nil => simp [heardHoles]
  | cons feed feeds ih =>
    obtain ⟨c, g⟩ := feed
    rw [cons_append, heardHoles, heardHoles, ih, append_assoc]
    simp [Nat.add_assoc]

namespace ScanWindow

structure Tracks (s : ScanWindow) (base : ℕ) (stream : Chunk) (hole d : ℕ) : Prop where
  buf : s.buf = stream.drop d
  le : d ≤ stream.length
  offset_zero : wrappingAdd s.base 0 = wrappingAdd base d
  behind : hole ≤ d
  kept : d = hole ∨ d + s.lookback ≤ stream.length

variable {s : ScanWindow} {base hole d : ℕ} {stream : Chunk}

theorem Tracks.offset (h : s.Tracks base stream hole d) (x : ℕ) :
    wrappingAdd s.base x = wrappingAdd base (d + x) := by
  rw [← wrappingAdd_wrappingAdd base d x, ← h.offset_zero, wrappingAdd_wrappingAdd, Nat.zero_add]

theorem Tracks.length (h : s.Tracks base stream hole d) : s.buf.length = stream.length - d := by
  rw [h.buf, length_drop]

theorem Tracks.trim (h : s.Tracks base stream hole d) :
    (∃ d', s.trim.Tracks base stream hole d') ∧ s.trim.buf.length ≤ s.lookback := by
  have hlen := h.length
  have hle := h.le
  unfold ScanWindow.trim
  by_cases hlong : s.buf.length > s.lookback
  · rw [if_pos hlong]
    refine ⟨⟨d + (s.buf.length - s.lookback), ⟨?_, by omega, ?_, ?_, .inr ?_⟩⟩, ?_⟩
    · dsimp only
      rw [← drop_drop, ← h.buf]
    · dsimp only
      rw [wrappingAdd_wrappingAdd, Nat.add_zero, h.offset]
    · exact Nat.le_add_right_of_le h.behind
    · dsimp only
      omega
    · dsimp only
      rw [length_drop]
      omega
  · rw [if_neg hlong]
    exact ⟨⟨d, h⟩, not_lt.mp hlong⟩

@[simp] theorem trim_matcher (s : ScanWindow) : s.trim.matcher = s.matcher := by
  unfold ScanWindow.trim
  split <;> rfl

@[simp] theorem trim_lookback (s : ScanWindow) : s.trim.lookback = s.lookback := by
  unfold ScanWindow.trim
  split <;> rfl

@[simp] theorem trim_context (s : ScanWindow) : s.trim.context = s.context := by
  unfold ScanWindow.trim
  split <;> rfl

theorem Tracks.fed (h : s.Tracks base stream hole d) (chunk : Chunk) (gap : ℕ) :
    (s.fed chunk gap).Tracks base (stream ++ chunk)
      (if gap > 0 then stream.length else hole) (if gap > 0 then stream.length else d) := by
  have hle := h.le
  have hlen := h.length
  unfold ScanWindow.fed
  by_cases hgap : gap > 0
  · simp only [if_pos hgap]
    refine ⟨by simp, by simp, ?_, le_rfl, .inl rfl⟩
    dsimp only [countGap]
    rw [wrappingAdd_wrappingAdd, h.offset, Nat.add_zero, hlen, Nat.add_sub_cancel' hle]
  · simp only [if_neg hgap]
    refine ⟨?_, ?_, h.offset_zero, h.behind, ?_⟩
    · dsimp only
      rw [h.buf, drop_append_of_le_length hle]
    · rw [length_append]
      omega
    · rw [length_append]
      exact h.kept.imp_right Nat.le_add_right_of_le

structure SetUp (s : ScanWindow) (m : Matcher) (lookback context : ℕ) : Prop where
  matcher : s.matcher = m
  lookback : s.lookback = lookback
  context : s.context = context

variable {specs : List PatternSpec} {m : Matcher} {lookback context : ℕ}

theorem SetUp.fed (h : s.SetUp m lookback context) (chunk : Chunk) (gap : ℕ) :
    (s.fed chunk gap).SetUp m lookback context := by
  unfold ScanWindow.fed
  by_cases hgap : gap > 0
  · simp only [if_pos hgap]
    exact ⟨h.matcher, h.lookback, h.context⟩
  · simp only [if_neg hgap]
    exact ⟨h.matcher, h.lookback, h.context⟩

theorem SetUp.trim (h : s.SetUp m lookback context) : s.trim.SetUp m lookback context :=
  ⟨by simpa using h.matcher, by simpa using h.lookback, by simpa using h.context⟩

structure Names (specs : List PatternSpec) (context base : ℕ) (stream : Chunk) (hole : ℕ)
    (pm : PatternMatch) : Prop where
  occurrence : ∃ k i, Leftmost (needles specs) (stream.drop hole) k i ∧
    pm.pattern = (specs.map (·.name)).getD k "" ∧
    pm.offset = wrappingAdd base (hole + i) ∧
    pm.endOffset = wrappingAdd base (hole + i + ((needles specs).getD k []).length)
  context : ∃ c, pm.contextOffset = wrappingAdd base c ∧ pm.context <+: stream.drop c ∧
    pm.context.length ≤ context

structure Silent (specs : List PatternSpec) (m : Matcher) (lookback context base : ℕ)
    (stream : Chunk) (hole : ℕ) (s : ScanWindow) : Prop where
  setUp : s.SetUp m lookback context
  tracks : ∃ d, s.Tracks base stream hole d
  silent : ¬ Occurs (needles specs) (stream.drop hole)
  short : s.buf.length ≤ lookback

def Settled (specs : List PatternSpec) (m : Matcher) (lookback context base : ℕ) (stream : Chunk)
    (hole : ℕ) : Option PatternMatch × ScanWindow → Prop
  | (some pm, _) => Names specs context base stream hole pm
  | (none, s) => Silent specs m lookback context base stream hole s

variable {answer : Option PatternMatch × ScanWindow}

theorem Settled.names {pm : PatternMatch}
    (h : Settled specs m lookback context base stream hole answer) (hpm : answer.1 = some pm) :
    Names specs context base stream hole pm := by
  obtain ⟨found, s⟩ := answer
  cases hpm
  exact h

theorem Settled.silent (h : Settled specs m lookback context base stream hole answer)
    (hnone : answer.1 = none) : Silent specs m lookback context base stream hole answer.2 := by
  obtain ⟨found, s⟩ := answer
  cases hnone
  exact h

theorem Tracks.scanTrim (h : s.Tracks base stream hole d) (hs : s.SetUp m lookback context)
    (hm : m.LeftmostFirst specs)
    (hge : ∀ k i, OccursAt (needles specs) (stream.drop hole) k i → d - hole ≤ i) :
    Settled specs m lookback context base stream hole s.scanTrim := by
  have hbehind := h.behind
  have hbuf : s.buf = (stream.drop hole).drop (d - hole) := by
    rw [h.buf, drop_drop, Nat.add_sub_cancel' hbehind]
  unfold ScanWindow.scanTrim
  cases hit : s.matcher.earliest s.buf with
  | none =>
    have hnone : s.scan = none := by rw [ScanWindow.scan, hit, Option.map_none]
    rw [hnone]
    obtain ⟨htracks, hshort⟩ := h.trim
    refine ⟨hs.trim, htracks, fun hocc => ?_, hs.lookback ▸ hshort⟩
    rw [← occurs_drop_iff hge, ← hbuf] at hocc
    exact hm.missed (hs.matcher ▸ hit) hocc
  | some hit' =>
    obtain ⟨hleft, hend⟩ := hm.found (hs.matcher ▸ hit)
    rw [ScanWindow.scan, hit, Option.map_some]
    have hplace (x : ℕ) : d + x = hole + (d - hole + x) := by omega
    refine ⟨⟨hit'.index, d - hole + hit'.start, (hbuf ▸ hleft).of_drop hge, ?_, ?_, ?_⟩,
      d + (hit'.start - s.context / 2), h.offset _, ?_, ?_⟩
    · dsimp only
      rw [hs.matcher, Matcher.name, hm.names]
    · dsimp only
      rw [h.offset, hplace]
    · dsimp only
      rw [h.offset, hend, ← Nat.add_assoc, hplace]
    · dsimp only
      rw [← drop_drop, ← h.buf, drop_take]
      exact (List.take_prefix _ _).trans (List.take_prefix _ _)
    · dsimp only
      rw [length_take, ← hs.context]
      omega

def Literals (specs : List PatternSpec) : Prop := ∀ s ∈ specs, s.kind = .literal ∧ s.bytes ≠ []

theorem Literals.needle (hlit : Literals specs) {p : Chunk} (hp : p ∈ needles specs) :
    p ≠ [] ∧ p.length ≤ minLookback specs := by
  obtain ⟨s, hs, rfl⟩ := mem_map.mp hp
  exact ⟨(hlit s hs).2, length_le_minLookback hs (hlit s hs).1⟩

theorem Silent.new (hlit : Literals specs) :
    Silent specs m lookback context base [] 0 (ScanWindow.new m lookback context base) where
  setUp := ⟨rfl, rfl, rfl⟩
  tracks := ⟨0, rfl, le_rfl, rfl, le_rfl, .inl rfl⟩
  silent := by
    rintro ⟨k, i, hocc⟩
    obtain ⟨p, -, -, hpos, hle⟩ := hocc.fits fun p hp => (hlit.needle hp).1
    rw [drop_nil, length_nil] at hle
    omega
  short := Nat.zero_le _

theorem settled_seed (hm : m.LeftmostFirst specs) (ring : Chunk) (start excluded : ℕ) :
    Settled specs m lookback context start ring 0
      ((ScanWindow.new m lookback context base).seed ring start excluded) := by
  unfold ScanWindow.seed
  refine Tracks.scanTrim (d := 0) ⟨rfl, Nat.zero_le _, rfl, le_rfl, .inl rfl⟩ ?_ hm
    fun _ _ _ => Nat.zero_le _
  by_cases hgap : excluded > 0
  · simp only [if_pos hgap]
    exact ⟨rfl, rfl, rfl⟩
  · simp only [if_neg hgap]
    exact ⟨rfl, rfl, rfl⟩

theorem Silent.feed (h : Silent specs m lookback context base stream hole s)
    (hlit : Literals specs) (hm : m.LeftmostFirst specs) (hlook : minLookback specs ≤ lookback)
    (chunk : Chunk) (gap : ℕ) :
    Settled specs m lookback context base (stream ++ chunk)
      (if gap > 0 then stream.length else hole) (s.feed chunk gap) := by
  obtain ⟨d, htracks⟩ := h.tracks
  rw [ScanWindow.feed]
  refine (htracks.fed chunk gap).scanTrim (h.setUp.fed chunk gap) hm fun k i hocc => ?_
  by_cases hgap : gap > 0
  · simp only [if_pos hgap, Nat.sub_self]
    exact Nat.zero_le _
  · simp only [if_neg hgap] at hocc ⊢
    have hle := htracks.le
    have hbehind := htracks.behind
    rw [drop_append_of_le_length (hbehind.trans hle)] at hocc
    refine hocc.ge (fun p hp => (hlit.needle hp).1) h.silent ?_
    rcases htracks.kept with rfl | hkept
    · exact .inl (Nat.sub_self _)
    · refine .inr fun p hp => ?_
      have hlen := (hlit.needle hp).2
      have hback := h.setUp.lookback
      rw [length_drop]
      omega

end ScanWindow

def lastHole (seed : Option (Chunk × ℕ × ℕ)) (feeds : List (Chunk × ℕ)) : ℕ :=
  (heardHoles (heard seed []).length feeds).getLast?.getD 0

theorem heard_concat (seed : Option (Chunk × ℕ × ℕ)) (feeds : List (Chunk × ℕ)) (chunk : Chunk)
    (gap : ℕ) : heard seed (feeds ++ [(chunk, gap)]) = heard seed feeds ++ chunk := by
  simp [heard]

theorem heardHoles_heard (seed : Option (Chunk × ℕ × ℕ)) (feeds : List (Chunk × ℕ))
    (chunk : Chunk) (gap : ℕ) :
    heardHoles (heard seed []).length (feeds ++ [(chunk, gap)]) =
      heardHoles (heard seed []).length feeds ++
        if gap > 0 then [(heard seed feeds).length] else [] := by
  rw [heardHoles_concat]
  simp [heard]

theorem lastHole_concat (seed : Option (Chunk × ℕ × ℕ)) (feeds : List (Chunk × ℕ)) (chunk : Chunk)
    (gap : ℕ) : lastHole seed (feeds ++ [(chunk, gap)]) =
      if gap > 0 then (heard seed feeds).length else lastHole seed feeds := by
  rw [lastHole, heardHoles_heard, lastHole]
  by_cases hgap : gap > 0
  · rw [if_pos hgap, if_pos hgap, getLast?_concat, Option.getD_some]
  · rw [if_neg hgap, if_neg hgap, append_nil]

theorem lastHole_eq_zero {seed : Option (Chunk × ℕ × ℕ)} {feeds : List (Chunk × ℕ)}
    (hgaps : ∀ feed ∈ feeds, feed.2 = 0) : lastHole seed feeds = 0 := by
  induction feeds using List.reverseRecOn with
  | nil => rfl
  | append_singleton feeds feed ih =>
    obtain ⟨chunk, gap⟩ := feed
    obtain rfl : gap = 0 := hgaps _ (mem_append_right _ (mem_singleton_self _))
    rw [lastHole_concat, if_neg (Nat.lt_irrefl _)]
    exact ih fun feed hfeed => hgaps feed (mem_append_left _ hfeed)

theorem heardHoles_le (seed : Option (Chunk × ℕ × ℕ)) (feeds : List (Chunk × ℕ)) :
    lastHole seed feeds ≤ (heard seed feeds).length ∧
      ∀ p ∈ heardHoles (heard seed []).length feeds, p ≤ lastHole seed feeds := by
  induction feeds using List.reverseRecOn with
  | nil => exact ⟨Nat.zero_le _, fun p hp => by cases hp⟩
  | append_singleton feeds feed ih =>
    obtain ⟨chunk, gap⟩ := feed
    obtain ⟨hle, hall⟩ := ih
    rw [lastHole_concat, heard_concat, heardHoles_heard, length_append]
    by_cases hgap : gap > 0
    · simp only [if_pos hgap, mem_append, mem_singleton]
      refine ⟨Nat.le_add_right _ _, ?_⟩
      rintro p (hp | rfl)
      · exact (hall p hp).trans hle
      · exact le_rfl
    · simp only [if_neg hgap, append_nil]
      exact ⟨Nat.le_add_right_of_le hle, hall⟩

namespace ScanWindow
section wait
variable {specs : List PatternSpec} {m : Matcher} {lookback context base : ℕ}
  {seed : Option (Chunk × ℕ × ℕ)} {feeds : List (Chunk × ℕ)}

theorem listened_concat (s : ScanWindow) (seed : Option (Chunk × ℕ × ℕ))
    (feeds : List (Chunk × ℕ)) (feed : Chunk × ℕ) :
    s.listened seed (feeds ++ [feed]) = hear (s.listened seed feeds) feed := by
  rw [listened, foldl_concat]
  rfl

theorem settled_opened (hlit : Literals specs) (hm : m.LeftmostFirst specs)
    (seed : Option (Chunk × ℕ × ℕ)) :
    Settled specs m lookback context (heardFrom base seed) (heard seed []) 0
      ((ScanWindow.new m lookback context base).opened seed) := by
  cases seed with
  | none => exact Silent.new hlit
  | some replayed =>
    obtain ⟨ring, start, excluded⟩ := replayed
    have hheard : heard (some (ring, start, excluded)) [] = ring := append_nil ring
    rw [hheard]
    exact settled_seed hm ring start excluded

theorem silent_listened (hlit : Literals specs) (hm : m.LeftmostFirst specs)
    (hlook : minLookback specs ≤ lookback)
    (hnone : ((ScanWindow.new m lookback context base).listened seed feeds).1 = none) :
    Silent specs m lookback context (heardFrom base seed) (heard seed feeds) (lastHole seed feeds)
      ((ScanWindow.new m lookback context base).listened seed feeds).2 := by
  induction feeds using List.reverseRecOn with
  | nil => exact (settled_opened hlit hm seed).silent hnone
  | append_singleton feeds feed ih =>
    obtain ⟨chunk, gap⟩ := feed
    rw [listened_concat] at hnone ⊢
    rw [heard_concat, lastHole_concat]
    cases hbefore : (ScanWindow.new m lookback context base).listened seed feeds with
    | mk answer before =>
      rw [hbefore] at hnone ih
      cases answer with
      | some pm => cases hnone
      | none => exact ((ih rfl).feed hlit hm hlook chunk gap).silent hnone

theorem settled_listened (hlit : Literals specs) (hm : m.LeftmostFirst specs)
    (hlook : minLookback specs ≤ lookback) (hbefore : feeds = [] ∨
      ((ScanWindow.new m lookback context base).listened seed feeds.dropLast).1 = none) :
    Settled specs m lookback context (heardFrom base seed) (heard seed feeds) (lastHole seed feeds)
      ((ScanWindow.new m lookback context base).listened seed feeds) := by
  rcases feeds.eq_nil_or_concat' with rfl | ⟨feeds, ⟨chunk, gap⟩, rfl⟩
  · exact settled_opened hlit hm seed
  · rw [dropLast_concat] at hbefore
    have hnone := hbefore.resolve_left (concat_ne_nil _ _)
    have hstep := (silent_listened hlit hm hlook hnone).feed hlit hm hlook chunk gap
    rw [listened_concat, heard_concat, lastHole_concat]
    cases hlast : (ScanWindow.new m lookback context base).listened seed feeds with
    | mk answer before =>
      rw [hlast] at hnone hstep
      cases hnone
      exact hstep

variable {pm : PatternMatch}

theorem Names.occurs {stream : Chunk} {hole : ℕ} (h : Names specs context base stream hole pm) :
    Occurs (needles specs) (stream.drop hole) := by
  obtain ⟨k, i, hleft, -⟩ := h.occurrence
  exact ⟨k, i, hleft.occurs⟩

theorem occurs_of_listened (hlit : Literals specs) (hm : m.LeftmostFirst specs)
    (hlook : minLookback specs ≤ lookback) (hgaps : ∀ feed ∈ feeds, feed.2 = 0)
    (hpm : ((ScanWindow.new m lookback context base).listened seed feeds).1 = some pm) :
    Occurs (needles specs) (heard seed feeds) := by
  induction feeds using List.reverseRecOn generalizing pm with
  | nil => exact ((settled_opened hlit hm seed).names hpm).occurs
  | append_singleton feeds feed ih =>
    cases hbefore : ((ScanWindow.new m lookback context base).listened seed feeds).1 with
    | none =>
      have hfirst : ((ScanWindow.new m lookback context base).listened seed
          (feeds ++ [feed]).dropLast).1 = none := by rwa [dropLast_concat]
      have hoccurs := ((settled_listened hlit hm hlook (.inr hfirst)).names hpm).occurs
      rwa [lastHole_eq_zero hgaps, drop_zero] at hoccurs
    | some first =>
      obtain ⟨chunk, gap⟩ := feed
      obtain ⟨k, i, hocc⟩ := ih (fun f hf => hgaps f (mem_append_left _ hf)) hbefore
      rw [heard_concat]
      exact ⟨k, i, hocc.append (fun p hp => (hlit.needle hp).1) chunk⟩

theorem listened_isSome (hlit : Literals specs) (hm : m.LeftmostFirst specs)
    (hlook : minLookback specs ≤ lookback) (hgaps : ∀ feed ∈ feeds, feed.2 = 0) :
    ((ScanWindow.new m lookback context base).listened seed feeds).1.isSome ↔
      Occurs (needles specs) (heard seed feeds) := by
  cases hanswer : ((ScanWindow.new m lookback context base).listened seed feeds).1 with
  | none =>
    have hsilent := (silent_listened hlit hm hlook hanswer).silent
    rw [lastHole_eq_zero hgaps, drop_zero] at hsilent
    simpa using hsilent
  | some pm => exact iff_of_true rfl (occurs_of_listened hlit hm hlook hgaps hanswer)

theorem reported_eq_some {s : ScanWindow} :
    s.reported seed feeds = some pm ↔
      (s.listened seed feeds).1 = some pm ∧
        (feeds = [] ∨ (s.listened seed feeds.dropLast).1 = none) := by
  unfold ScanWindow.reported
  by_cases hover : feeds ≠ [] ∧ (s.listened seed feeds.dropLast).1.isSome
  · rw [if_pos hover]
    refine iff_of_false (by simp) fun ⟨_, hbefore⟩ => ?_
    rcases hbefore with hnil | hnone
    · exact hover.1 hnil
    · rw [hnone] at hover
      cases hover.2
  · rw [if_neg hover]
    refine (and_iff_left ?_).symm
    rw [not_and_or, not_not, Option.not_isSome_iff_eq_none] at hover
    exact hover

end wait

theorem literal_scan_exact {specs : List PatternSpec} {m : Matcher} {lookback : ℕ}
    (hlit : ∀ s ∈ specs, s.kind = .literal ∧ s.bytes ≠ []) (hm : m.LeftmostFirst specs)
    (hlook : minLookback specs ≤ lookback) (context base : ℕ) (seed : Option (Chunk × ℕ × ℕ))
    (feeds : List (Chunk × ℕ)) :
    let s := ScanWindow.new m lookback context base
    let stream := heard seed feeds
    let start := heardFrom base seed
    -- without gaps a match is reported exactly when the first occurrence is complete
    ((∀ feed ∈ feeds, feed.2 = 0) →
      ((s.reported seed feeds).isSome ↔
        Occurs (needles specs) stream ∧
          (feeds = [] ∨ ¬ Occurs (needles specs) (heard seed feeds.dropLast))) ∧
      ∀ pm, s.reported seed feeds = some pm →
        ∃ k i, Leftmost (needles specs) stream k i ∧ pm.pattern = (specs.map (·.name)).getD k "" ∧
          pm.offset = wrappingAdd start i ∧
          pm.endOffset = wrappingAdd start (i + ((needles specs).getD k []).length)) ∧
    -- with or without gaps
    (∀ pm, s.reported seed feeds = some pm →
      (∃ c, pm.contextOffset = wrappingAdd start c ∧ pm.context <+: stream.drop c ∧
        pm.context.length ≤ context) ∧
      ∃ k i, OccursAt (needles specs) stream k i ∧ pm.pattern = (specs.map (·.name)).getD k "" ∧
        pm.offset = wrappingAdd start i ∧
        pm.endOffset = wrappingAdd start (i + ((needles specs).getD k []).length) ∧
        ∀ p ∈ heardHoles (heard seed []).length feeds, p ≤ i) ∧
    ((s.listened seed feeds).1 = none → (s.listened seed feeds).2.buf.length ≤ lookback) := by
  intro s stream start
  have hnames {pm : PatternMatch} (hpm : s.reported seed feeds = some pm) :
      Names specs context start stream (lastHole seed feeds) pm := by
    obtain ⟨hanswer, hbefore⟩ := reported_eq_some.mp hpm
    exact (settled_listened hlit hm hlook hbefore).names hanswer
  refine ⟨fun hgaps => ⟨?_, fun pm hpm => ?_⟩, fun pm hpm => ⟨(hnames hpm).context, ?_⟩,
    fun hnone => (silent_listened hlit hm hlook hnone).short⟩
  · have hgaps' : ∀ f ∈ feeds.dropLast, f.2 = 0 := fun f hf =>
      hgaps f (dropLast_subset _ hf)
    rw [← listened_isSome hlit hm hlook hgaps, ← listened_isSome hlit hm hlook hgaps',
      Option.not_isSome_iff_eq_none, Option.isSome_iff_exists, Option.isSome_iff_exists]
    simp only [reported_eq_some, exists_and_right]
    exact Iff.rfl
  · have hfound := (hnames hpm).occurrence
    rw [lastHole_eq_zero hgaps] at hfound
    simpa only [drop_zero, Nat.zero_add] using hfound
  · obtain ⟨k, i, hleft, hpattern, hoffset, hend⟩ := (hnames hpm).occurrence
    exact ⟨k, _, occursAt_drop.mp hleft.occurs, hpattern, hoffset, hend, fun p hp =>
      Nat.le_add_right_of_le ((heardHoles_le seed feeds).2 p hp)⟩

theorem literal_scan_exact_prompt :
    let specs : List PatternSpec :=
      [⟨"root", .literal, [35, 32]⟩, ⟨"login", .literal, [105, 110, 58]⟩]
    let s := ScanWindow.new (Matcher.literals specs) 3 8 40
    let feeds : List (Chunk × ℕ) := [([108, 111, 103], 0), ([105, 110], 0), ([58, 32], 0)]
    s.reported none feeds = some ⟨"login", 43, 46, [103, 105, 110, 58, 32], 42⟩ ∧
      Occurs (needles specs) (heard none feeds) := by
  intro specs s feeds
  have hpm : s.reported none feeds = some ⟨"login", 43, 46, [103, 105, 110, 58, 32], 42⟩ := by
    decide +kernel
  have hlit : ∀ s ∈ specs, s.kind = .literal ∧ s.bytes ≠ [] := by decide
  have hm : (Matcher.literals specs).LeftmostFirst specs :=
    Matcher.literals_leftmostFirst (by decide)
  have hexact := literal_scan_exact hlit hm (by decide : minLookback specs ≤ 3) 8 40 none feeds
  exact ⟨hpm, ((hexact.1 (by decide)).1.mp (by rw [hpm]; rfl)).1⟩

end ScanWindow

end SerialNexus
