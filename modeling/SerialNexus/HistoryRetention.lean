import SerialNexus.CircularBuffer
import SerialNexus.History
import SerialNexus.Runs

/-! # How much scrollback is retained

`trim` drops whole chunks, and cuts inside a chunk only if it is the last one.  So the log never has
more than `cap` bytes, but it can have fewer although more were accepted. -/

namespace SerialNexus

open List
namespace History

open CircularBuffer (newest)

structure Console where
  accepted : Chunk
  log : History

def openConsole (cap : ℕ) (epoch : Option ℕ) (start : Option (Chunk × ℕ)) : Console :=
  ⟨storedBytes start, opened cap epoch start⟩

def splices : Runs.Machine Console (ℕ × Chunk) where
  step s c := ⟨s.accepted ++ (s.log.splice c.1 c.2).1, (s.log.splice c.1 c.2).2⟩
  ok _ _ := True

def RetainsAll (s : Console) : Prop :=
  s.log.total = min s.log.cap s.accepted.length ∧
    s.log.bytesOf = some (newest (min s.log.cap s.accepted.length) s.accepted)

def CutsExactly (s : Console) (c : ℕ × Chunk) : Prop :=
  let fresh := (s.log.splice c.1 c.2).1
  s.log.total + fresh.length ≤ s.log.cap ∨ s.log.cap ≤ fresh.length ∨
    ∃ rest, rest <:+ s.log.chunks ++ [fresh] ∧ rest.flatten.length = s.log.cap

/-- `rest` is what is left of `cs` if oldest chunks are dropped until the others fit in `cap`, or one
is left. -/
structure Keeps (cap : ℕ) (cs rest : List Chunk) : Prop where
  suffix : rest <:+ cs
  nonempty : rest ≠ []
  fits : rest.flatten.length ≤ cap ∨ ∃ last, rest = [last]
  noMore : rest = cs ∨ ∃ c, c :: rest <:+ cs ∧ cap < (c :: rest).flatten.length

/-- The piece a splice accepts is kept with the newest chunks that fit, and only a piece that is
left alone is cut. -/
def KeepsNewest (s : Console) (c : ℕ × Chunk) : Prop :=
  ∃ fresh, (splices.step s c).accepted = s.accepted ++ fresh ∧
    ((fresh = [] ∧ (splices.step s c).log.total = s.log.total) ∨
      ∃ rest, Keeps s.log.cap (s.log.chunks ++ [fresh]) rest ∧
        (splices.step s c).log.total = min s.log.cap rest.flatten.length)

theorem dropOldest_keeps (cap : ℕ) {cs : List Chunk} (hne : cs ≠ []) :
    ∃ rest, dropOldest cap cs cs.flatten.length = (rest, rest.flatten.length) ∧
      Keeps cap cs rest := by
  match cs with
  | [] => exact absurd rfl hne
  | [c] => exact ⟨[c], rfl, suffix_rfl, by simp, .inr ⟨c, rfl⟩, .inl rfl⟩
  | c :: c' :: cs =>
    rw [dropOldest]
    split_ifs with hover
    · have hlen : (c :: c' :: cs).flatten.length - c.length = (c' :: cs).flatten.length := by
        rw [flatten_cons, length_append]
        omega
      obtain ⟨rest, hdrop, hkeeps⟩ := dropOldest_keeps cap (cons_ne_nil c' cs)
      have hstep := suffix_cons c (c' :: cs)
      rw [hlen]
      refine ⟨rest, hdrop, hkeeps.suffix.trans hstep, hkeeps.nonempty, hkeeps.fits, .inr ?_⟩
      rcases hkeeps.noMore with rfl | ⟨d, hd, hmore⟩
      · exact ⟨c, suffix_rfl, hover⟩
      · exact ⟨d, hd.trans hstep, hmore⟩
    · exact ⟨_, rfl, suffix_rfl, by simp, .inl (by omega), .inl rfl⟩

theorem length_flatten_le {cs ds : List Chunk} (h : cs <:+ ds) :
    cs.flatten.length ≤ ds.flatten.length := by
  obtain ⟨front, rfl⟩ := h
  simp

theorem trim_keeps {h : History} (hc : h.Counted) (hne : h.chunks ≠ []) :
    h.trim.cap = h.cap ∧
      ∃ rest, Keeps h.cap h.chunks rest ∧ h.trim.total = min h.cap rest.flatten.length := by
  obtain ⟨rest, hdrop, hkeeps⟩ := dropOldest_keeps h.cap hne
  have hstop := hkeeps.fits
  suffices htrim : h.trim.total = min h.cap rest.flatten.length ∧ h.trim.cap = h.cap from
    ⟨htrim.2, rest, hkeeps, htrim.1⟩
  have htotal : h.total = h.chunks.flatten.length := hc
  unfold trim
  rw [htotal, hdrop]
  split
  · next only total heq =>
    obtain ⟨rfl, rfl⟩ := Prod.mk.inj heq
    split_ifs with hover
    · refine ⟨?_, rfl⟩
      simp only [flatten_singleton, length_drop] at hover ⊢
      omega
    · exact ⟨by dsimp only; omega, rfl⟩
  · next chunks total hmany heq =>
    obtain ⟨rfl, rfl⟩ := Prod.mk.inj heq
    rcases hstop with hfits | ⟨last, rfl⟩
    · exact ⟨by dsimp only; omega, rfl⟩
    · exact absurd rfl (hmany last)

theorem trim_total {h : History} (hc : h.Counted) {front : List Chunk} {last : Chunk}
    (hchunks : h.chunks = front ++ [last]) :
    h.trim.total ≤ h.cap ∧ h.trim.cap = h.cap ∧
      (∃ rest, Keeps h.cap h.chunks rest ∧ h.trim.total = min h.cap rest.flatten.length) ∧
      (h.trim.total = min h.cap h.total ↔ h.total ≤ h.cap ∨ h.cap ≤ last.length ∨
        ∃ rest, rest <:+ h.chunks ∧ rest.flatten.length = h.cap) := by
  have hne : h.chunks ≠ [] := by simp [hchunks]
  obtain ⟨hcap, rest, hkeeps, htrim⟩ := trim_keeps hc hne
  obtain ⟨hsuffix, hrest, hstop, hwhy⟩ := id hkeeps
  have hlast : last.length ≤ rest.flatten.length := by
    rcases suffix_concat_iff.mp (hchunks ▸ hsuffix) with rfl | ⟨t, rfl, -⟩
    · exact absurd rfl hrest
    · simp
  have htotal : h.total = h.chunks.flatten.length := hc
  have hsmall := length_flatten_le hsuffix
  refine ⟨by omega, hcap, ⟨rest, hkeeps, htrim⟩, fun hall => ?_, ?_⟩
  · by_cases hroom : h.total ≤ h.cap
    · exact .inl hroom
    · rcases hstop with hfits | ⟨only, rfl⟩
      · exact .inr (.inr ⟨rest, hsuffix, by omega⟩)
      · obtain rfl : only = last := by
          rcases suffix_concat_iff.mp (hchunks ▸ hsuffix) with hnil | ⟨t, ht, -⟩
          · cases hnil
          · simpa using congrArg List.getLast? ht
        simp only [flatten_singleton] at htrim
        exact .inr (.inl (by omega))
  · rintro (hroom | hlong | ⟨q, hq, hexact⟩)
    · rcases hwhy with rfl | ⟨c, hcons, hmore⟩
      · omega
      · have := length_flatten_le hcons
        omega
    · omega
    · -- the loop goes on only while the chunks it keeps are too many
      rcases hwhy with rfl | ⟨c, hcons, hmore⟩
      · omega
      · rcases suffix_or_suffix_of_suffix hq hcons with hqc | hcq
        · rcases suffix_cons_iff.mp hqc with rfl | hqr
          · omega
          · have := length_flatten_le hqr
            omega
        · have := length_flatten_le hcq
          omega

/-! ### Runs -/

structure Console.Sound (s : Console) : Prop where
  counted : s.log.Counted
  suffix : s.log.retained <:+ s.accepted
  bounded : s.log.total ≤ s.log.cap

variable {s : Console}

theorem Console.Sound.bytesOf (h : s.Sound) :
    s.log.bytesOf = some (newest s.log.total s.accepted) := by
  rw [bytesOf_eq h.counted, newest, h.counted]
  exact congrArg some (suffix_iff_eq_drop.mp h.suffix)

theorem Console.Sound.retainsAll_iff (h : s.Sound) :
    RetainsAll s ↔ s.log.total = min s.log.cap s.accepted.length := by
  refine ⟨fun hall => hall.1, fun htotal => ⟨htotal, ?_⟩⟩
  rw [h.bytesOf, htotal]

theorem splice_cases (h : History) (offset : ℕ) (bytes : Chunk) :
    ((h.splice offset bytes).1 = [] ∧ ∃ frontier, (h.splice offset bytes).2 = { h with frontier }) ∨
      ∃ frontier dropped stop, (h.splice offset bytes).2 =
        { h with frontier, dropped }.append (h.splice offset bytes).1 stop := by
  unfold splice
  dsimp only
  split_ifs
  · exact .inl ⟨by simp, _, rfl⟩
  · exact .inr ⟨_, _, _, rfl⟩
  · exact .inr ⟨_, _, _, rfl⟩

variable {h : History}

theorem append_total (hc : h.Counted) (fresh : Chunk) (stop : ℕ) :
    (h.append fresh stop).total ≤ h.cap ∧ (h.append fresh stop).cap = h.cap ∧
      (∃ rest, Keeps h.cap (h.chunks ++ [fresh]) rest ∧
        (h.append fresh stop).total = min h.cap rest.flatten.length) ∧
      ((h.append fresh stop).total = min h.cap (h.total + fresh.length) ↔
        h.total + fresh.length ≤ h.cap ∨ h.cap ≤ fresh.length ∨
          ∃ rest, rest <:+ h.chunks ++ [fresh] ∧ rest.flatten.length = h.cap) := by
  have hcounted : Counted { h with
      chunks := h.chunks ++ [fresh], total := h.total + fresh.length, frontier := some stop } := by
    simp only [Counted, retained] at hc ⊢
    simp [hc]
  exact trim_total hcounted rfl

theorem splices_step (hs : s.Sound) (c : ℕ × Chunk) :
    (splices.step s c).Sound ∧ KeepsNewest s c ∧
      (RetainsAll s → (RetainsAll (splices.step s c) ↔ CutsExactly s c)) := by
  have hb := hs.bounded
  rcases splice_cases s.log c.1 c.2 with ⟨hfresh, frontier, hlog⟩ | ⟨frontier, dropped, stop, hlog⟩
  · have hstep : splices.step s c = ⟨s.accepted, { s.log with frontier }⟩ := by
      simp only [splices, hfresh, hlog, append_nil]
    unfold KeepsNewest
    rw [hstep]
    refine ⟨⟨hs.counted, hs.suffix, hs.bounded⟩, ⟨[], (append_nil _).symm, .inl ⟨rfl, rfl⟩⟩, fun hall => ⟨fun _ => .inl ?_, fun _ => hall⟩⟩
    simp [hfresh, hb]
  · have hstep : splices.step s c = ⟨s.accepted ++ (s.log.splice c.1 c.2).1,
        { s.log with frontier, dropped }.append (s.log.splice c.1 c.2).1 stop⟩ := by
      simp only [splices, ← hlog]
    unfold KeepsNewest CutsExactly
    rw [hstep]
    generalize (s.log.splice c.1 c.2).1 = fresh
    obtain ⟨hcounted, hsuffix, -, -⟩ :=
      append_spec (h := { s.log with frontier, dropped }) hs.counted fresh stop
    obtain ⟨hle, hcap, hkeeps, hiff⟩ :=
      append_total (h := { s.log with frontier, dropped }) hs.counted fresh stop
    have hsound : Console.Sound ⟨s.accepted ++ fresh,
        { s.log with frontier, dropped }.append fresh stop⟩ := by
      refine ⟨hcounted, hsuffix.trans ?_, hcap.symm ▸ hle⟩
      obtain ⟨lost, hlost⟩ := hs.suffix
      exact ⟨lost, by rw [← hlost, append_assoc]; rfl⟩
    refine ⟨hsound, ⟨fresh, rfl, .inr hkeeps⟩, fun hall => ?_⟩
    have htotal := hall.1
    rw [hsound.retainsAll_iff, ← hiff]
    simp only [hcap, length_append]
    constructor <;> intro h <;> omega

theorem sound_of_empty (hchunks : h.chunks = []) (htotal : h.total = 0) :
    Console.Sound ⟨[], h⟩ ∧ RetainsAll ⟨[], h⟩ := by
  have hsound : Console.Sound ⟨[], h⟩ := by
    refine ⟨?_, ?_, ?_⟩ <;> simp [Counted, retained, hchunks, htotal]
  exact ⟨hsound, hsound.retainsAll_iff.mpr (by simp [htotal])⟩

theorem sound_of_stored (hc : h.Counted) {bytes : Chunk} (hchunks : h.chunks = [bytes]) :
    Console.Sound ⟨bytes, h.trim⟩ ∧ RetainsAll ⟨bytes, h.trim⟩ := by
  have hretained : h.retained = bytes := by simp [retained, hchunks]
  obtain ⟨hcount, hsuffix, -, -⟩ := trim_spec hc
  have hlast : h.chunks = [] ++ [bytes] := hchunks
  obtain ⟨hle, hcap, -, hiff⟩ := trim_total hc hlast
  have hsound : Console.Sound ⟨bytes, h.trim⟩ := ⟨hcount, hretained ▸ hsuffix, hcap.symm ▸ hle⟩
  have htotal : h.total = bytes.length := hretained ▸ hc
  refine ⟨hsound, hsound.retainsAll_iff.mpr ?_⟩
  have hall := hiff.mpr (htotal ▸ (le_total _ _).imp_right .inl)
  simp only [hall, hcap, htotal]

theorem openConsole_sound (cap : ℕ) (epoch : Option ℕ) (start : Option (Chunk × ℕ)) :
    (openConsole cap epoch start).Sound ∧ RetainsAll (openConsole cap epoch start) := by
  match start with
  | none => exact sound_of_empty rfl rfl
  | some ([], endOffset) => exact sound_of_empty rfl rfl
  | some (b :: bytes, endOffset) =>
    have hcounted : Counted { newHistory cap with
        epoch, frontier := some endOffset, chunks := [b :: bytes], total := bytes.length + 1 } := by
      simp [Counted, retained]
    exact sound_of_stored hcounted rfl

theorem retention_exact_iff (cap : ℕ) (epoch : Option ℕ) (start : Option (Chunk × ℕ))
    (cs : List (ℕ × Chunk)) :
    let s := splices.run (openConsole cap epoch start) cs
    (s.log.total ≤ s.log.cap ∧ s.log.bytesOf = some (newest s.log.total s.accepted)) ∧
    RetainsAll (openConsole cap epoch start) ∧
    splices.Each KeepsNewest (openConsole cap epoch start) cs ∧
    (splices.Always RetainsAll (openConsole cap epoch start) cs ↔
      splices.Each CutsExactly (openConsole cap epoch start) cs) := by
  intro s
  obtain ⟨hopen, hall⟩ := openConsole_sound cap epoch start
  have hlegal : splices.Legal (openConsole cap epoch start) cs :=
    Runs.Machine.legal_of_forall (fun _ _ _ => trivial) _
  have hinv : ∀ s c, Console.Sound s → splices.ok s c → (splices.step s c).Sound :=
    fun s c hs _ => (splices_step hs c).1
  have hsound : s.Sound := Runs.Machine.invariant hinv hopen hlegal
  refine ⟨⟨hsound.bounded, hsound.bytesOf⟩, hall, ?_, ?_⟩
  · exact Runs.Machine.each_of_invariant hinv (fun s c hs _ => (splices_step hs c).2.1) hopen hlegal
  · exact Runs.Machine.always_iff_each hinv (fun s c hs _ => (splices_step hs c).2.2) hopen hall
      hlegal

theorem retention_exact_cut :
    splices.Always RetainsAll (openConsole 10 none none)
      [(0, [1, 2, 3, 4]), (4, [5, 6, 7, 8, 9, 10]), (10, [11, 12, 13, 14])] := by
  refine (retention_exact_iff 10 none none _).2.2.2.mpr ⟨.inl ?_, .inl ?_, .inr (.inr ?_), trivial⟩
  · decide
  · decide
  · exact ⟨[[5, 6, 7, 8, 9, 10], [11, 12, 13, 14]], ⟨[[1, 2, 3, 4]], by decide⟩, by decide⟩

theorem retention_below_cap :
    let s := splices.run (openConsole 10 none none)
      [(0, [1, 2, 3, 4, 5, 6]), (6, [7, 8, 9, 10, 11, 12])]
    s.accepted.length = 12 ∧ s.log.total = 6 ∧ s.log.bytesOf = some [7, 8, 9, 10, 11, 12] ∧
      ¬ RetainsAll s := by
  exact ⟨by decide, by decide, by decide, fun h => absurd h.1 (by decide)⟩

end History
end SerialNexus
