import Mathlib.Tactic

/-! # Occurrences of patterns in a list

A list of patterns, numbered by their places, and where they occur in a longer list.  `Leftmost` is
the occurrence that starts first, with ties broken by the order of the patterns. -/

namespace Occurrences

open List

variable {α : Type*}

def OccursAt (pats : List (List α)) (hay : List α) (k i : ℕ) : Prop :=
  ∃ p, pats[k]? = some p ∧ p <+: hay.drop i

def Occurs (pats : List (List α)) (hay : List α) : Prop := ∃ k i, OccursAt pats hay k i

structure Leftmost (pats : List (List α)) (hay : List α) (k i : ℕ) : Prop where
  occurs : OccursAt pats hay k i
  first : ∀ k' i', OccursAt pats hay k' i' → i < i' ∨ i = i' ∧ k ≤ k'

variable {pats : List (List α)} {hay more : List α} {k i d : ℕ}

theorem OccursAt.fits (h : OccursAt pats hay k i) (hne : ∀ p ∈ pats, p ≠ []) :
    ∃ p ∈ pats, pats[k]? = some p ∧ 0 < p.length ∧ i + p.length ≤ hay.length := by
  obtain ⟨p, hp, hpre⟩ := h
  have hmem : p ∈ pats := mem_of_getElem? hp
  have hpos := length_pos_iff.mpr (hne p hmem)
  have hle := hpre.length_le
  rw [length_drop] at hle
  exact ⟨p, hmem, hp, hpos, by omega⟩

theorem OccursAt.append (h : OccursAt pats hay k i) (hne : ∀ p ∈ pats, p ≠ []) (more : List α) :
    OccursAt pats (hay ++ more) k i := by
  obtain ⟨p', -, -, -, hle⟩ := h.fits hne
  obtain ⟨p, hp, hpre⟩ := h
  refine ⟨p, hp, ?_⟩
  rw [drop_append_of_le_length (by omega)]
  exact hpre.trans (prefix_append _ _)

theorem OccursAt.of_append {p : List α} (h : OccursAt pats (hay ++ more) k i)
    (hp : pats[k]? = some p) (hle : i + p.length ≤ hay.length) : OccursAt pats hay k i := by
  obtain ⟨q, hq, hpre⟩ := h
  obtain rfl : p = q := Option.some.inj (hp.symm.trans hq)
  refine ⟨p, hp, ?_⟩
  rw [drop_append_of_le_length (by omega)] at hpre
  exact prefix_of_prefix_length_le hpre (prefix_append _ _)
    (by rw [length_drop]; omega)

theorem occursAt_drop : OccursAt pats (hay.drop d) k i ↔ OccursAt pats hay k (d + i) := by
  unfold OccursAt
  rw [drop_drop]

theorem OccursAt.ge (h : OccursAt pats (hay ++ more) k i) (hne : ∀ p ∈ pats, p ≠ [])
    (hnone : ¬ Occurs pats hay) (hd : d = 0 ∨ ∀ p ∈ pats, d + p.length ≤ hay.length) : d ≤ i := by
  obtain ⟨p, hmem, hp, hpos, -⟩ := h.fits hne
  rcases hd with rfl | hd
  · exact Nat.zero_le _
  · by_contra hlt
    have hlen := hd p hmem
    exact hnone ⟨k, i, h.of_append hp (by omega)⟩

theorem occurs_drop_iff (hge : ∀ k i, OccursAt pats hay k i → d ≤ i) :
    Occurs pats (hay.drop d) ↔ Occurs pats hay := by
  constructor
  · rintro ⟨k, i, h⟩
    exact ⟨k, d + i, occursAt_drop.mp h⟩
  · rintro ⟨k, i, h⟩
    obtain ⟨j, rfl⟩ := Nat.exists_eq_add_of_le (hge k i h)
    exact ⟨k, j, occursAt_drop.mpr h⟩

theorem Leftmost.of_drop (h : Leftmost pats (hay.drop d) k i)
    (hge : ∀ k i, OccursAt pats hay k i → d ≤ i) : Leftmost pats hay k (d + i) := by
  refine ⟨occursAt_drop.mp h.occurs, fun k' i' h' => ?_⟩
  obtain ⟨j, rfl⟩ := Nat.exists_eq_add_of_le (hge k' i' h')
  have := h.first k' j (occursAt_drop.mpr h')
  omega

section search
variable [BEq α] [LawfulBEq α]

def atFront (pats : List (List α)) (hay : List α) : Option ℕ := pats.findIdx? (·.isPrefixOf hay)

def leftmost (pats : List (List α)) (hay : List α) : Option (ℕ × ℕ) :=
  (List.range hay.length).findSome? fun i => (atFront pats (hay.drop i)).map (·, i)

theorem atFront_eq_none : atFront pats hay = none ↔ ∀ k, ¬ OccursAt pats hay k 0 := by
  rw [atFront, findIdx?_eq_none_iff]
  constructor
  · rintro h k ⟨p, hp, hpre⟩
    have := h p (mem_of_getElem? hp)
    rw [drop_zero, ← isPrefixOf_iff_prefix, this] at hpre
    cases hpre
  · intro h p hp
    obtain ⟨k, hk⟩ := List.getElem?_of_mem hp
    by_contra hpre
    refine h k ⟨p, hk, ?_⟩
    rw [drop_zero, ← isPrefixOf_iff_prefix]
    simpa using hpre

theorem atFront_eq_some (h : atFront pats hay = some k) :
    OccursAt pats hay k 0 ∧ ∀ k', OccursAt pats hay k' 0 → k ≤ k' := by
  rw [atFront, findIdx?_eq_some_iff_getElem] at h
  obtain ⟨hk, hpre, hfirst⟩ := h
  refine ⟨⟨pats[k], List.getElem?_eq_getElem hk, ?_⟩, ?_⟩
  · rw [drop_zero, ← isPrefixOf_iff_prefix]
    exact hpre
  · rintro k' ⟨p, hp, hpre'⟩
    by_contra hlt
    obtain ⟨hk', rfl⟩ := List.getElem?_eq_some_iff.mp hp
    refine hfirst k' (by omega) ?_
    rwa [drop_zero, ← isPrefixOf_iff_prefix] at hpre'

theorem leftmost_eq_none (hne : ∀ p ∈ pats, p ≠ []) (h : leftmost pats hay = none) :
    ¬ Occurs pats hay := by
  rintro ⟨k, i, hki⟩
  obtain ⟨p, -, -, hpos, hle⟩ := hki.fits hne
  rw [leftmost, findSome?_eq_none_iff] at h
  have hi := h i (mem_range.mpr (by omega))
  rw [Option.map_eq_none_iff, atFront_eq_none] at hi
  exact hi k (occursAt_drop.mpr hki)

theorem leftmost_eq_some (hne : ∀ p ∈ pats, p ≠ []) (h : leftmost pats hay = some (k, i)) :
    Leftmost pats hay k i := by
  rw [leftmost, findSome?_eq_some_iff] at h
  obtain ⟨before, j, after, hrange, hj, hbefore⟩ := h
  obtain ⟨k₀, hk₀, heq⟩ := Option.map_eq_some_iff.mp hj
  obtain ⟨rfl, rfl⟩ : k₀ = k ∧ j = i := by simpa using heq
  obtain ⟨hocc, hfirst⟩ := atFront_eq_some hk₀
  refine ⟨occursAt_drop.mp hocc, fun k' i' h' => ?_⟩
  -- what stands before `j` in the range is smaller, and nothing occurs there
  obtain ⟨p, -, -, hpos, hle⟩ := h'.fits hne
  have hmem : i' ∈ List.range hay.length := mem_range.mpr (by omega)
  rw [hrange] at hmem
  have hsorted : (before ++ j :: after).Pairwise (· < ·) := hrange ▸ List.pairwise_lt_range
  rcases mem_append.mp hmem with hmem | hmem
  · have hnone := hbefore i' hmem
    rw [Option.map_eq_none_iff, atFront_eq_none] at hnone
    exact absurd (occursAt_drop.mpr h') (hnone k')
  · rcases mem_cons.mp hmem with rfl | hmem
    · exact .inr ⟨rfl, hfirst k' (occursAt_drop.mpr h')⟩
    · have := (List.pairwise_cons.mp (List.pairwise_append.mp hsorted).2.1).1 i' hmem
      exact .inl this

end search
end Occurrences
