import Mathlib.Tactic

/-! # Lists and maps by key

Lists whose elements have distinct keys, and finite maps filled from or emptied by a list: what is
found under a key afterwards. -/

namespace Keyed

open List
open Std (ExtTreeMap)

section lists

variable {α κ : Type*} [DecidableEq κ] (key : α → κ)

variable {xs : List α} {x : α}

theorem find?_eq_some_iff (hn : (xs.map key).Nodup) {k : κ} {a : α} :
    xs.find? (key · = k) = some a ↔ a ∈ xs ∧ key a = k := by
  constructor
  · intro h
    exact ⟨mem_of_find?_eq_some h, by simpa using find?_some h⟩
  · rintro ⟨hmem, rfl⟩
    obtain ⟨b, hb⟩ := Option.isSome_iff_exists.mp
      (find?_isSome.mpr ⟨a, hmem, by simp⟩ : (xs.find? (key · = key a)).isSome)
    have hkey : key b = key a := by simpa using find?_some hb
    rw [hb, inj_on_of_nodup_map hn (mem_of_find?_eq_some hb) hmem hkey]

theorem filter_ne_append_cons {ys : List α} (hn : ((xs ++ x :: ys).map key).Nodup) :
    (xs ++ x :: ys).filter (key · ≠ key x) = xs ++ ys := by
  have hkeep : ∀ zs : List α, (∀ z ∈ zs, key z ≠ key x) → zs.filter (key · ≠ key x) = zs :=
    fun zs h => filter_eq_self.mpr fun z hz => decide_eq_true (h z hz)
  rw [map_append, map_cons] at hn
  obtain ⟨-, hnd, hdisj⟩ := nodup_append.mp hn
  rw [filter_append, filter_cons_of_neg (by simp)]
  congr 1
  · exact hkeep xs fun z hz => hdisj _ (mem_map_of_mem hz) _ mem_cons_self
  · exact hkeep ys fun z hz heq =>
      (nodup_cons.mp hnd).1 (heq ▸ mem_map_of_mem hz)

theorem filter_ne_eq_eraseIdx {i : ℕ} (hn : (xs.map key).Nodup) (hi : xs[i]? = some x) :
    xs.filter (key · ≠ key x) = xs.eraseIdx i := by
  obtain ⟨hlt, rfl⟩ := List.getElem?_eq_some_iff.mp hi
  have hsplit : xs.take i ++ xs[i] :: xs.drop (i + 1) = xs := by
    rw [List.getElem_cons_drop, take_append_drop]
  have hfilter := filter_ne_append_cons key (hsplit.symm ▸ hn)
  rwa [hsplit, ← eraseIdx_eq_take_drop_succ] at hfilter

omit [DecidableEq κ] in
theorem filterMap_filter {f : α → Option κ} {p : κ → Bool} {q : α → Bool} {xs : List α}
    (h : ∀ x ∈ xs, ∀ y, f x = some y → q x = p y) :
    (xs.filter q).filterMap f = (xs.filterMap f).filter p := by
  induction xs with
  | nil => rfl
  | cons x xs ih =>
    have ih := ih fun z hz => h z (mem_cons_of_mem _ hz)
    cases hx : f x with
    | none =>
      rw [filterMap_cons_none hx, ← ih, filter_cons]
      split_ifs
      · rw [filterMap_cons_none hx]
      · rfl
    | some y =>
      have hq := h x mem_cons_self y hx
      rw [filterMap_cons_some hx, filter_cons, filter_cons, ← ih, hq]
      split_ifs
      · rw [filterMap_cons_some hx]
      · rfl

omit [DecidableEq κ] in
theorem seen_cons_iff (P : α → Prop) (seen : List κ) (x : α) (xs : List α) :
    ((P x ∧ key x ∉ seen) ∧
        ((∀ y ∈ xs, P y) ∧ (xs.map key).Nodup ∧ ∀ y ∈ xs, key y ∉ key x :: seen)) ↔
      (∀ y ∈ x :: xs, P y) ∧ ((x :: xs).map key).Nodup ∧ ∀ y ∈ x :: xs, key y ∉ seen := by
  simp only [map_cons, nodup_cons, mem_map, not_exists, not_and, mem_cons, not_or, forall_eq_or_imp]
  constructor
  · rintro ⟨⟨hx, hs⟩, hxs, hnd, hfresh⟩
    exact ⟨⟨hx, hxs⟩, ⟨fun y hy => (hfresh y hy).1, hnd⟩, hs, fun y hy => (hfresh y hy).2⟩
  · rintro ⟨⟨hx, hxs⟩, ⟨hne, hnd⟩, hs, hss⟩
    exact ⟨⟨hx, hs⟩, hxs, hnd, fun y hy => ⟨hne y hy, hss y hy⟩⟩

end lists

section maps

variable {α κ β : Type} [Ord κ] [Std.TransOrd κ] [Std.LawfulEqOrd κ]

theorem getElem?_insert_ne {m : ExtTreeMap κ β} {k k' : κ} (h : k ≠ k') (v : β) :
    (m.insert k v)[k']? = m[k']? := by
  rw [ExtTreeMap.getElem?_insert, if_neg (by rwa [Std.compare_eq_iff_eq])]

theorem getElem?_modify_ne {m : ExtTreeMap κ β} {k k' : κ} (h : k ≠ k') (g : β → β) :
    (m.modify k g)[k']? = m[k']? := by
  rw [ExtTreeMap.getElem?_modify, if_neg (by rwa [Std.compare_eq_iff_eq])]

theorem getElem?_erase_ne {m : ExtTreeMap κ β} {k k' : κ} (h : k ≠ k') :
    (m.erase k)[k']? = m[k']? := by
  rw [ExtTreeMap.getElem?_erase, if_neg (by rwa [Std.compare_eq_iff_eq])]

theorem insert_getElem? {m : ExtTreeMap κ β} {k : κ} {v : β} (h : m[k]? = some v) :
    m.insert k v = m := by
  refine ExtTreeMap.ext_getElem? fun k' => ?_
  rw [ExtTreeMap.getElem?_insert]
  split_ifs with hk
  · rw [← Std.compare_eq_iff_eq.mp hk, h]
  · rfl

theorem erase_of_none {m : ExtTreeMap κ β} {k : κ} (h : m[k]? = none) : m.erase k = m := by
  refine ExtTreeMap.ext_getElem? fun k' => ?_
  by_cases hk : k = k'
  · subst hk
    rw [ExtTreeMap.getElem?_erase_self, h]
  · exact getElem?_erase_ne hk

theorem erase_insert {m : ExtTreeMap κ β} {k : κ} (h : m[k]? = none) (v : β) :
    (m.insert k v).erase k = m := by
  refine ExtTreeMap.ext_getElem? fun k' => ?_
  by_cases hk : k = k'
  · subst hk
    rw [ExtTreeMap.getElem?_erase_self, h]
  · rw [getElem?_erase_ne hk, getElem?_insert_ne hk]

theorem modify_insert {m : ExtTreeMap κ β} {k : κ} {v : β} {g : β → β} (h : m[k]? = some (g v)) :
    (m.insert k v).modify k g = m := by
  refine ExtTreeMap.ext_getElem? fun k' => ?_
  by_cases hk : k = k'
  · subst hk
    rw [ExtTreeMap.getElem?_modify_self, ExtTreeMap.getElem?_insert_self, Option.map_some, h]
  · rw [getElem?_modify_ne hk, getElem?_insert_ne hk]

variable [DecidableEq κ]

theorem getElem?_foldl_insert (key : α → κ) (val : α → β) {xs : List α}
    (hn : (xs.map key).Nodup) (m : ExtTreeMap κ β) (k : κ) :
    (xs.foldl (fun m x => m.insert (key x) (val x)) m)[k]? =
      ((xs.find? (key · = k)).map val).or m[k]? := by
  induction xs generalizing m with
  | nil => simp
  | cons x xs ih =>
    obtain ⟨hx, hnd⟩ := nodup_cons.mp hn
    rw [foldl_cons, ih hnd, find?_cons]
    by_cases hk : key x = k
    · have hnone : xs.find? (key · = k) = none := by
        rw [find?_eq_none]
        intro z hz hz'
        exact hx (mem_map.mpr ⟨z, hz, (by simpa using hz' : key z = k).trans hk.symm⟩)
      simp [hk, hnone]
    · simp [hk, getElem?_insert_ne hk]

theorem getElem?_foldl_erase (ks : List κ) (m : ExtTreeMap κ β) (k : κ) :
    (ks.foldl (fun m k => m.erase k) m)[k]? = if k ∈ ks then none else m[k]? := by
  induction ks generalizing m with
  | nil => simp
  | cons k' ks ih =>
    rw [foldl_cons, ih]
    by_cases hk : k' = k
    · simp [hk]
    · simp [Ne.symm hk, getElem?_erase_ne hk]

end maps
end Keyed
