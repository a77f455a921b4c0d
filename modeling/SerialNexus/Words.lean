import Mathlib.Tactic

/-! # 64-bit counters

Machine counters as naturals below `2 ^ 64`, with the three ways a program adds to them:
wrapping, saturating, and (where neither can matter) plainly. -/

def u64Size : ℕ := 2 ^ 64

def u32Size : ℕ := 2 ^ 32

def wrappingAdd (a b : ℕ) : ℕ := (a + b) % u64Size

def wrappingSub (a b : ℕ) : ℕ := (a + (u64Size - b % u64Size)) % u64Size

def saturatingAdd (a b : ℕ) : ℕ := min (a + b) (u64Size - 1)

def saturatingMul (a b : ℕ) : ℕ := min (a * b) (u64Size - 1)

theorem u64Size_pos : 0 < u64Size := by decide

theorem wrappingAdd_lt (a b : ℕ) : wrappingAdd a b < u64Size := Nat.mod_lt _ u64Size_pos

variable {a b : ℕ}

theorem wrappingAdd_of_lt (h : a + b < u64Size) : wrappingAdd a b = a + b := Nat.mod_eq_of_lt h

theorem wrappingAdd_mod (total n : ℕ) : wrappingAdd (total % u64Size) n = (total + n) % u64Size :=
  Nat.mod_add_mod _ _ _

theorem wrappingAdd_wrappingSub (ha : a < u64Size) : wrappingAdd b (wrappingSub a b) = a := by
  have hb : b % u64Size < u64Size := Nat.mod_lt _ u64Size_pos
  unfold wrappingAdd wrappingSub
  rw [Nat.add_mod_mod]
  have hsplit : b + (a + (u64Size - b % u64Size)) = a + u64Size * (b / u64Size + 1) := by
    have := Nat.div_add_mod b u64Size
    rw [Nat.mul_add, Nat.mul_one]
    omega
  rw [hsplit, Nat.add_mul_mod_self_left, Nat.mod_eq_of_lt ha]

theorem wrappingAdd_wrappingAdd (a b c : ℕ) :
    wrappingAdd (wrappingAdd a b) c = wrappingAdd a (b + c) := by
  unfold wrappingAdd
  rw [Nat.mod_add_mod, Nat.add_assoc]

theorem saturatingAdd_saturatingAdd (a b c : ℕ) :
    saturatingAdd (saturatingAdd a b) c = saturatingAdd a (b + c) := by
  unfold saturatingAdd
  omega

theorem saturatingAdd_zero (h : a < u64Size) : saturatingAdd a 0 = a := by
  unfold saturatingAdd
  omega

theorem saturatingAdd_lt (a b : ℕ) : saturatingAdd a b < u64Size := by
  have := u64Size_pos
  unfold saturatingAdd
  omega

theorem wrappingAdd_ne_self {b : ℕ} (hpos : 0 < b) (hlt : b < u64Size) (a : ℕ) :
    wrappingAdd a b ≠ a := by
  intro h
  have ha : a < u64Size := h ▸ wrappingAdd_lt a b
  unfold wrappingAdd at h
  by_cases hsum : a + b < u64Size
  · rw [Nat.mod_eq_of_lt hsum] at h
    omega
  · rw [Nat.mod_eq_sub_mod (by omega), Nat.mod_eq_of_lt (by omega)] at h
    omega
