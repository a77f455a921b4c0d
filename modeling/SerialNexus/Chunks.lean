import Mathlib.Tactic

/-! # Cutting a list into pieces

`chunks k xs` cuts `xs` into consecutive pieces of `k` items, the last one possibly shorter: no
piece is empty, none is longer than `k`, and laid end to end they are `xs` again. -/

namespace Chunks

open List

variable {α : Type*}

def chunksFuel (k : ℕ) : ℕ → List α → List (List α)
  | _, [] => []
  | 0, _ => []
  | fuel + 1, x :: xs => (x :: xs).take k :: chunksFuel k fuel ((x :: xs).drop k)

def chunks (k : ℕ) (xs : List α) : List (List α) := chunksFuel k xs.length xs

variable {k : ℕ} {xs : List α}

theorem chunksFuel_eq (hk : 0 < k) {fuel fuel' : ℕ} (h : xs.length ≤ fuel)
    (h' : xs.length ≤ fuel') : chunksFuel k fuel xs = chunksFuel k fuel' xs := by
  induction fuel generalizing fuel' xs with
  | zero =>
    obtain rfl : xs = [] := eq_nil_of_length_eq_zero (by omega)
    cases fuel' <;> rfl
  | succ fuel ih =>
    cases xs with
    | nil => cases fuel' <;> rfl
    | cons x xs =>
      cases fuel' with
      | zero => simp at h'
      | succ fuel' =>
        simp only [chunksFuel]
        rw [ih]
        · rw [length_drop, length_cons] at *; omega
        · rw [length_drop, length_cons] at *; omega

@[simp] theorem chunks_nil (k : ℕ) : chunks k ([] : List α) = [] := rfl

theorem chunks_of_ne_nil (hk : 0 < k) (hx : xs ≠ []) :
    chunks k xs = xs.take k :: chunks k (xs.drop k) := by
  cases xs with
  | nil => exact absurd rfl hx
  | cons x xs =>
    rw [chunks, length_cons, chunksFuel, chunks]
    congr 1
    exact chunksFuel_eq hk (by rw [length_drop, length_cons]; omega) le_rfl

theorem chunks_append (hk : 0 < k) {xs : List α} (hx : xs.length = k) (ys : List α) :
    chunks k (xs ++ ys) = xs :: chunks k ys := by
  have hne : xs ++ ys ≠ [] := ne_nil_of_length_pos (by rw [length_append]; omega)
  rw [chunks_of_ne_nil hk hne, ← hx, take_left, drop_left]

theorem chunks_of_length_le (hx : xs ≠ []) (hle : xs.length ≤ k) : chunks k xs = [xs] := by
  have hpos := length_pos_iff.mpr hx
  rw [chunks_of_ne_nil (by omega) hx, take_of_length_le hle, drop_eq_nil_of_le hle]
  rfl

theorem induction_on (hk : 0 < k) {motive : List α → Prop} (nil : motive [])
    (step : ∀ xs, xs ≠ [] → motive (xs.drop k) → motive xs) (xs : List α) : motive xs := by
  induction hn : xs.length using Nat.strong_induction_on generalizing xs with
  | _ n ih =>
    by_cases hx : xs = []
    · rw [hx]; exact nil
    · have hpos := length_pos_iff.mpr hx
      exact step xs hx (ih _ (by rw [length_drop]; omega) _ rfl)

theorem chunks_flatten (hk : 0 < k) (xs : List α) : (chunks k xs).flatten = xs := by
  induction xs using induction_on hk with
  | nil => rfl
  | step xs hx ih => rw [chunks_of_ne_nil hk hx, flatten_cons, ih, take_append_drop]

theorem length_le_of_mem_chunks (hk : 0 < k) {p : List α} (hp : p ∈ chunks k xs) :
    p.length ≤ k := by
  induction xs using induction_on hk with
  | nil => simp at hp
  | step xs hx ih =>
    rw [chunks_of_ne_nil hk hx, mem_cons] at hp
    rcases hp with rfl | hp
    · rw [length_take]
      exact min_le_left _ _
    · exact ih hp

theorem chunks_length_le (hk : 0 < k) {n : ℕ} (h : xs.length ≤ n * k) :
    (chunks k xs).length ≤ n := by
  induction xs using induction_on hk generalizing n with
  | nil => simp
  | step xs hx ih =>
    have hpos := length_pos_iff.mpr hx
    cases n with
    | zero => omega
    | succ n =>
      rw [chunks_of_ne_nil hk hx, length_cons]
      have := ih (n := n) (by rw [length_drop]; rw [Nat.add_mul, Nat.one_mul] at h; omega)
      omega

end Chunks
