import Mathlib.Tactic

/-! # Streams with items taken out

`Thin p xs ys n`: `ys` is what is left of `xs` when `n` of its items, each of which satisfies `p`,
are taken out. -/

variable {α : Type*} {p : α → Prop}

inductive Thin (p : α → Prop) : List α → List α → ℕ → Prop
  | nil : Thin p [] [] 0
  | keep (x : α) {xs ys : List α} {n : ℕ} : Thin p xs ys n → Thin p (x :: xs) (x :: ys) n
  | drop {x : α} {xs ys : List α} {n : ℕ} : p x → Thin p xs ys n → Thin p (x :: xs) ys (n + 1)

namespace Thin

open List

theorem refl (xs : List α) : Thin p xs xs 0 := by
  induction xs with
  | nil => exact nil
  | cons x xs ih => exact ih.keep x

variable {xs ys xs' ys' zs : List α} {n : ℕ}

theorem all (h : ∀ x ∈ xs, p x) : Thin p xs [] xs.length := by
  induction xs with
  | nil => exact nil
  | cons x xs ih =>
    exact (ih fun y hy => h y (mem_cons_of_mem _ hy)).drop (h x mem_cons_self)

theorem append {n' : ℕ} (h : Thin p xs ys n) (h' : Thin p xs' ys' n') :
    Thin p (xs ++ xs') (ys ++ ys') (n + n') := by
  induction h with
  | nil => simpa using h'
  | keep x _ ih => exact ih.keep x
  | drop hx _ ih =>
    rw [Nat.add_right_comm]
    exact ih.drop hx

theorem trans {m : ℕ} (h : Thin p xs ys n) (h' : Thin p ys zs m) : Thin p xs zs (n + m) := by
  induction h generalizing zs m with
  | nil => simpa using h'
  | keep x _ ih =>
    cases h' with
    | keep _ h' => exact (ih h').keep x
    | drop hx h' => exact (ih h').drop hx
  | drop hx _ ih =>
    rw [Nat.add_right_comm]
    exact (ih h').drop hx

theorem erase (h : Thin p xs (ys ++ (zs ++ ys')) n) (hz : ∀ z ∈ zs, p z) :
    Thin p xs (ys ++ ys') (n + zs.length) := by
  have := (refl (p := p) ys).append ((all hz).append (refl ys'))
  simpa using h.trans this

theorem sublist (h : Thin p xs ys n) : ys.Sublist xs := by
  induction h with
  | nil => exact .slnil
  | keep x _ ih => exact ih.cons_cons x
  | drop hx _ ih => exact ih.cons _

theorem countP_eq (h : Thin p xs ys n) {q : α → Bool} (hq : ∀ x, p x → q x = false) :
    xs.countP q = ys.countP q := by
  induction h with
  | nil => rfl
  | keep x _ ih => rw [countP_cons, countP_cons, ih]
  | drop hx _ ih => rw [countP_cons_of_neg (by simp [hq _ hx]), ih]

theorem split (h : Thin p xs (ys ++ ys') n) :
    ∃ as bs k l, xs = as ++ bs ∧ Thin p as ys k ∧ Thin p bs ys' l ∧ n = k + l := by
  generalize hz : ys ++ ys' = zs at h
  induction h generalizing ys with
  | nil =>
    obtain ⟨rfl, rfl⟩ := append_eq_nil_iff.mp hz
    exact ⟨[], [], 0, 0, rfl, nil, nil, rfl⟩
  | @keep x xs zs n h ih =>
    cases ys with
    | nil =>
      subst hz
      exact ⟨[], x :: xs, 0, n, rfl, nil, h.keep x, by omega⟩
    | cons y ys =>
      obtain ⟨rfl, rfl⟩ := List.cons.inj hz
      obtain ⟨as, bs, k, l, rfl, ha, hb, rfl⟩ := ih rfl
      exact ⟨y :: as, bs, k, l, rfl, ha.keep y, hb, rfl⟩
  | @drop x xs zs n hx h ih =>
    obtain ⟨as, bs, k, l, rfl, ha, hb, rfl⟩ := ih hz
    exact ⟨x :: as, bs, k + 1, l, rfl, ha.drop hx, hb, by omega⟩

theorem split_at {c : α} (hc : ¬ p c) (h : Thin p (xs ++ c :: xs') zs n) :
    ∃ ys ys' k l, zs = ys ++ c :: ys' ∧ Thin p xs ys k ∧ Thin p xs' ys' l := by
  induction xs generalizing zs n with
  | nil =>
    cases h with
    | keep _ h => exact ⟨[], _, 0, _, rfl, nil, h⟩
    | drop hx _ => exact absurd hx hc
  | cons x xs ih =>
    cases h with
    | keep _ h =>
      obtain ⟨ys, ys', k, l, rfl, ha, hb⟩ := ih h
      exact ⟨x :: ys, ys', k, l, rfl, ha.keep x, hb⟩
    | drop hx h =>
      obtain ⟨ys, ys', k, l, rfl, ha, hb⟩ := ih h
      exact ⟨ys, ys', k + 1, l, rfl, ha.drop hx, hb⟩

end Thin
