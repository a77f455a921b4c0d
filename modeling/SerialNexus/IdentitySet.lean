import SerialNexus.Envelope
import SerialNexus.Runs
import SerialNexus.Words

/-! # The bounded identity set

The channel identities a node heard of and is not configured for
(`daemon/src/nodes/identity_set.rs`): capped in number and in length, in order, the refused ones
counted. -/

namespace SerialNexus

open List

def maxIdentities : ℕ := 256

def maxIdentityLen : ℕ := 64

def truncationMarker : String := "…(truncated)"

def isCharBoundary (bytes : List UInt8) (i : ℕ) : Bool :=
  match bytes[i]? with
  | some b => b < 0x80 || 0xc0 ≤ b
  | none => i = bytes.length

def lastBoundary (bytes : List UInt8) : ℕ → ℕ
  | 0 => 0
  | fin + 1 => if isCharBoundary bytes (fin + 1) then fin + 1 else lastBoundary bytes fin

def truncateIdentity (id : String) : String :=
  let bytes := utf8 id
  if bytes.length ≤ maxIdentityLen then id
  else (fromUtf8 (bytes.take (lastBoundary bytes maxIdentityLen))).getD "" ++ truncationMarker

structure IdentitySet where
  order : List String
  seen : Finset String
  overflow : ℕ
deriving DecidableEq

namespace IdentitySet

def empty : IdentitySet := ⟨[], ∅, 0⟩

def insert (s : IdentitySet) (id : String) : Option String × IdentitySet :=
  let id := truncateIdentity id
  if id ∈ s.seen then (none, s)
  else if s.order.length ≥ maxIdentities then
    (none, { s with overflow := wrappingAdd s.overflow 1 })
  else (some id, { s with seen := Insert.insert id s.seen, order := s.order ++ [id] })

def clear (_ : IdentitySet) : IdentitySet := empty

end IdentitySet

theorem not_isCharBoundary_tail (c : Char) :
    ∀ b ∈ (String.utf8EncodeChar c).tail, 0x80 ≤ b ∧ b < 0xc0 := by
  unfold String.utf8EncodeChar
  intro b hb
  dsimp only at hb
  split_ifs at hb <;> simp only [tail_cons, mem_cons, not_mem_nil, or_false] at hb
  · obtain rfl := hb
    constructor <;> simp [UInt8.le_iff_toNat_le, UInt8.lt_iff_toNat_lt] <;> omega
  · rcases hb with rfl | rfl <;> constructor <;>
      simp [UInt8.le_iff_toNat_le, UInt8.lt_iff_toNat_lt] <;> omega
  · rcases hb with rfl | rfl | rfl <;> constructor <;>
      simp [UInt8.le_iff_toNat_le, UInt8.lt_iff_toNat_lt] <;> omega

theorem take_of_isCharBoundary (cs : List Char) {i : ℕ}
    (h : isCharBoundary (cs.flatMap String.utf8EncodeChar) i = true) :
    ∃ kept rest, cs = kept ++ rest ∧
      (cs.flatMap String.utf8EncodeChar).take i = kept.flatMap String.utf8EncodeChar := by
  induction cs generalizing i with
  | nil => exact ⟨[], [], rfl, by simp⟩
  | cons c cs ih =>
    rw [flatMap_cons] at h ⊢
    rcases Nat.eq_zero_or_pos i with rfl | hpos
    · exact ⟨[], c :: cs, rfl, by simp⟩
    · by_cases hin : i < (String.utf8EncodeChar c).length
      · -- inside the first character
        have hmem : (String.utf8EncodeChar c)[i] ∈ (String.utf8EncodeChar c).tail := by
          rw [← drop_one]
          exact mem_drop_iff_getElem.mpr ⟨i - 1, by omega, by congr 1; omega⟩
        have hcont := not_isCharBoundary_tail c _ hmem
        rw [isCharBoundary, List.getElem?_append_left hin, List.getElem?_eq_getElem hin] at h
        simp only [Bool.or_eq_true, decide_eq_true_eq] at h
        rcases h with h | h
        · exact absurd h (UInt8.not_lt.mpr hcont.1)
        · exact absurd hcont.2 (UInt8.not_lt.mpr h)
      · have hlater : isCharBoundary (cs.flatMap String.utf8EncodeChar)
            (i - (String.utf8EncodeChar c).length) = true := by
          unfold isCharBoundary at h ⊢
          rw [List.getElem?_append_right (by omega)] at h
          split at h
          · exact h
          · rw [decide_eq_true_eq, length_append] at h
            rw [decide_eq_true_eq]
            omega
        obtain ⟨kept, rest, rfl, htake⟩ := ih hlater
        refine ⟨c :: kept, rest, rfl, ?_⟩
        rw [take_append, take_of_length_le (by omega), htake, flatMap_cons]

theorem lastBoundary_spec (bytes : List UInt8) (fin : ℕ) :
    lastBoundary bytes fin ≤ fin ∧
      (lastBoundary bytes fin = 0 ∨ isCharBoundary bytes (lastBoundary bytes fin) = true) := by
  induction fin with
  | zero => exact ⟨le_rfl, .inl rfl⟩
  | succ fin ih =>
    rw [lastBoundary]
    split_ifs with hb
    · exact ⟨le_rfl, .inr hb⟩
    · exact ⟨ih.1.trans (Nat.le_succ fin), ih.2⟩

theorem truncateIdentity_long {id : String} (h : maxIdentityLen < (utf8 id).length) :
    ∃ kept rest, id = kept ++ rest ∧ truncateIdentity id = kept ++ truncationMarker ∧
      (utf8 kept).length ≤ maxIdentityLen := by
  obtain ⟨hle, hbound⟩ := lastBoundary_spec (utf8 id) maxIdentityLen
  have hchars : utf8 id = id.toList.flatMap String.utf8EncodeChar := by
    rw [← utf8_ofList, String.ofList_toList]
  obtain ⟨kept, rest, hid, htake⟩ : ∃ kept rest, id.toList = kept ++ rest ∧
      (utf8 id).take (lastBoundary (utf8 id) maxIdentityLen) = utf8 (.ofList kept) := by
    rcases hbound with hzero | hbound
    · exact ⟨[], id.toList, rfl, by rw [hzero]; rfl⟩
    · rw [hchars] at hbound ⊢
      obtain ⟨kept, rest, hsplit, htake⟩ := take_of_isCharBoundary id.toList hbound
      exact ⟨kept, rest, hsplit, htake.trans (utf8_ofList kept).symm⟩
  refine ⟨.ofList kept, .ofList rest, ?_, ?_, ?_⟩
  · rw [← String.ofList_append, ← hid, String.ofList_toList]
  · unfold truncateIdentity
    dsimp only
    rw [if_neg (by omega), htake, fromUtf8_utf8, Option.getD_some]
  · rw [← htake]
    exact (length_take_le _ _).trans hle

theorem length_truncateIdentity (id : String) :
    (utf8 (truncateIdentity id)).length ≤ maxIdentityLen + (utf8 truncationMarker).length := by
  by_cases h : (utf8 id).length ≤ maxIdentityLen
  · rw [truncateIdentity, if_pos h]
    omega
  · obtain ⟨kept, rest, -, hcut, hlen⟩ := truncateIdentity_long (not_le.mp h)
    rw [hcut, utf8_append, length_append]
    omega

namespace IdentitySet

def inserts : Runs.Machine IdentitySet String where
  step s id := (s.insert id).2
  ok _ _ := True

def refused (s : IdentitySet) (id : String) : List String :=
  if truncateIdentity id ∉ s.order ∧ s.order.length = maxIdentities then [id] else []

theorem insert_cases (s : IdentitySet) (id : String) :
    (truncateIdentity id ∈ s.seen ∧ s.insert id = (none, s)) ∨
      (truncateIdentity id ∉ s.seen ∧ maxIdentities ≤ s.order.length ∧
        s.insert id = (none, { s with overflow := wrappingAdd s.overflow 1 })) ∨
      (truncateIdentity id ∉ s.seen ∧ s.order.length < maxIdentities ∧
        s.insert id = (some (truncateIdentity id),
          { s with
            seen := Insert.insert (truncateIdentity id) s.seen
            order := s.order ++ [truncateIdentity id] })) := by
  unfold insert
  dsimp only
  split_ifs with hseen hfull
  · exact .inl ⟨hseen, rfl⟩
  · exact .inr (.inl ⟨hseen, hfull, rfl⟩)
  · exact .inr (.inr ⟨hseen, not_le.mp hfull, rfl⟩)

structure Heard (s : IdentitySet) (ids : List String) : Prop where
  nodup : s.order.Nodup
  bounded : s.order.length ≤ maxIdentities
  index : ∀ t, t ∈ s.seen ↔ t ∈ s.order
  recorded : ∀ t ∈ s.order, t ∈ ids.map truncateIdentity
  room : s.order.length < maxIdentities → ∀ t ∈ ids.map truncateIdentity, t ∈ s.order
  overflow : s.overflow = (inserts.outputs refused empty ids).length % u64Size

theorem heard (ids : List String) : Heard (inserts.run empty ids) ids := by
  induction ids using List.reverseRecOn with
  | nil => exact ⟨.nil, Nat.zero_le _, by simp [empty], by simp [empty], by simp, rfl⟩
  | append_singleton ids id ih =>
    have hout : (inserts.outputs refused empty (ids ++ [id])).length =
        (inserts.outputs refused empty ids).length + (refused (inserts.run empty ids) id).length := by
      rw [Runs.Machine.outputs_append, length_append]
      simp [Runs.Machine.outputs]
    have hnew : ∀ t, t ∈ (ids ++ [id]).map truncateIdentity ↔
        t ∈ ids.map truncateIdentity ∨ t = truncateIdentity id := by
      simp
    rw [Runs.Machine.run_append]
    change Heard (insert (inserts.run empty ids) id).2 _
    generalize inserts.run empty ids = s at ih hout ⊢
    have hkept : ∀ t ∈ s.order, t ∈ (ids ++ [id]).map truncateIdentity := fun t ht =>
      (hnew t).mpr (.inl (ih.recorded t ht))
    rcases insert_cases s id with ⟨hseen, hs⟩ | ⟨hseen, hfull, hs⟩ | ⟨hseen, hroom, hs⟩ <;> rw [hs] <;>
      rw [ih.index] at hseen
    · refine ⟨ih.nodup, ih.bounded, ih.index, hkept, fun hlt t ht => ?_, ?_⟩
      · rcases (hnew t).mp ht with ht | rfl
        · exact ih.room hlt t ht
        · exact hseen
      · rw [hout, refused, if_neg (fun h => h.1 hseen)]
        exact ih.overflow
    · refine ⟨ih.nodup, ih.bounded, ih.index, hkept, fun hlt => ?_, ?_⟩
      · exact absurd hlt (not_lt.mpr hfull)
      · rw [hout, refused, if_pos ⟨hseen, le_antisymm ih.bounded hfull⟩, ih.overflow]
        exact wrappingAdd_mod _ _
    · refine ⟨?_, ?_, fun t => ?_, fun t ht => ?_, fun _ t ht => ?_, ?_⟩
      · exact concat_eq_append ▸ ih.nodup.concat hseen
      · rw [length_append]
        exact hroom
      · simp [ih.index, or_comm]
      · rcases mem_append.mp ht with ht | ht
        · exact hkept t ht
        · exact (hnew t).mpr (.inr (mem_singleton.mp ht))
      · rcases (hnew t).mp ht with ht | rfl
        · exact mem_append_left _ (ih.room hroom t ht)
        · exact mem_append_right _ (mem_singleton_self _)
      · rw [hout, refused, if_neg (fun h => hroom.ne h.2)]
        exact ih.overflow

/-- A call on the set. -/
inductive Call where
  | insert (id : String)
  | clear

def calls : Runs.Machine IdentitySet Call where
  step
    | s, .insert id => (s.insert id).2
    | s, .clear => s.clear
  ok _ _ := True

def sinceClear (cs : List Call) : List String :=
  cs.foldl (fun ids c => match c with | .insert id => ids ++ [id] | .clear => []) []

theorem run_calls (cs : List Call) : calls.run empty cs = inserts.run empty (sinceClear cs) := by
  induction cs using List.reverseRecOn with
  | nil => rfl
  | append_singleton cs c ih =>
    rw [Runs.Machine.run_append, sinceClear, foldl_concat]
    cases c with
    | insert id =>
      rw [Runs.Machine.run_append, ← sinceClear, ← ih]
      rfl
    | clear => rfl

theorem identity_set_bounded (cs : List Call) (id : String) :
    let s := calls.run empty cs
    s.order.Nodup ∧ s.order.length ≤ maxIdentities ∧
      (∀ t ∈ s.order, (utf8 t).length ≤ maxIdentityLen + (utf8 truncationMarker).length) ∧
      (∀ t, t ∈ s.seen ↔ t ∈ s.order) ∧
      ((utf8 id).length ≤ maxIdentityLen ∧ truncateIdentity id = id ∨
        ∃ kept rest, id = kept ++ rest ∧ truncateIdentity id = kept ++ truncationMarker ∧
          (utf8 kept).length ≤ maxIdentityLen) ∧
      (s.insert id).1 =
        (if truncateIdentity id ∉ (sinceClear cs).map truncateIdentity ∧
            s.order.length < maxIdentities then some (truncateIdentity id) else none) ∧
      s.overflow = (inserts.outputs refused empty (sinceClear cs)).length % u64Size := by
  intro s
  have hs : Heard (calls.run empty cs) (sinceClear cs) := run_calls cs ▸ heard (sinceClear cs)
  refine ⟨hs.nodup, hs.bounded, fun t ht => ?_, hs.index, ?_, ?_, hs.overflow⟩
  · obtain ⟨id', -, rfl⟩ := mem_map.mp (hs.recorded t ht)
    exact length_truncateIdentity id'
  · by_cases hlen : (utf8 id).length ≤ maxIdentityLen
    · exact .inl ⟨hlen, if_pos hlen⟩
    · exact .inr (truncateIdentity_long (not_le.mp hlen))
  · rcases insert_cases s id with ⟨hseen, hi⟩ | ⟨-, hfull, hi⟩ | ⟨hseen, hroom, hi⟩ <;> rw [hi]
    · rw [if_neg fun h => h.1 (hs.recorded _ ((hs.index _).mp hseen))]
    · rw [if_neg fun h => absurd h.2 (not_lt.mpr hfull)]
    · rw [if_pos ⟨fun h => hseen ((hs.index _).mpr (hs.room hroom _ h)), hroom⟩]

end IdentitySet
end SerialNexus
