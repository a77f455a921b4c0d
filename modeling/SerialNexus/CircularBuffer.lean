import Mathlib.Tactic

/-! # Circular buffers

A fixed-capacity buffer that keeps the newest items pushed into it.  `buf` is allocated on the first
push and then overwritten in place: `pos` is the slot of the next item and `len` the number of slots
in use.  The layout is a field, so a `CircularBuffer` is always readable. -/

structure CircularBuffer (α : Type*) where
  cap : ℕ
  buf : List α
  pos : ℕ
  len : ℕ
  layout : (buf = [] ∧ pos = 0 ∧ len = 0) ∨ (buf.length = cap ∧ pos < cap ∧ len ≤ cap)

namespace CircularBuffer

open List

variable {α : Type*}

def overwrite (buf : List α) (at_ : ℕ) (xs : List α) : List α :=
  buf.take at_ ++ xs ++ buf.drop (at_ + xs.length)

variable {buf xs : List α} {at_ cap : ℕ}

theorem overwrite_length (h : at_ + xs.length ≤ buf.length) :
    (overwrite buf at_ xs).length = buf.length := by
  simp only [overwrite, length_append, length_take, length_drop]
  omega

theorem overwrite_getElem? {at_ : ℕ} (h : at_ + xs.length ≤ buf.length) (i : ℕ) :
    (overwrite buf at_ xs)[i]? =
      if at_ ≤ i ∧ i < at_ + xs.length then xs[i - at_]? else buf[i]? := by
  have ht : (buf.take at_).length = at_ := by rw [length_take]; omega
  unfold overwrite
  split_ifs with hi
  · rw [List.getElem?_append_left (by rw [length_append, ht]; omega),
      List.getElem?_append_right (by omega), ht]
  · by_cases hlt : i < at_
    · rw [append_assoc, List.getElem?_append_left (by omega), List.getElem?_take, if_pos hlt]
    · rw [List.getElem?_append_right (by rw [length_append, ht]; omega), List.getElem?_drop,
        length_append, ht]
      congr 1
      omega

theorem mod_of_lt_two_mul {i : ℕ} (h : i < 2 * cap) : i % cap = if i < cap then i else i - cap := by
  split_ifs with hi
  · exact Nat.mod_eq_of_lt hi
  · rw [Nat.mod_eq_sub_mod (by omega), Nat.mod_eq_of_lt (by omega)]

def new (cap : ℕ) : CircularBuffer α := ⟨cap, [], 0, 0, .inl ⟨rfl, rfl, rfl⟩⟩

def newest (cap : ℕ) (xs : List α) : List α := xs.drop (xs.length - cap)

theorem newest_length (cap : ℕ) (xs : List α) : (newest cap xs).length = min xs.length cap := by
  rw [newest, length_drop]
  omega

theorem newest_of_le (h : xs.length ≤ cap) : newest cap xs = xs := by
  rw [newest, Nat.sub_eq_zero_of_le h, drop_zero]

theorem newest_append_newest (cap : ℕ) (xs ys : List α) :
    newest cap (newest cap xs ++ ys) = newest cap (xs ++ ys) := by
  have h : newest cap xs ++ ys = (xs ++ ys).drop (xs.length - cap) := by
    rw [newest, drop_append_of_le_length (by omega)]
  rw [h]
  simp only [newest, length_drop, length_append, drop_drop]
  congr 1
  omega

theorem newest_newest {n : ℕ} (h : n ≤ (newest cap xs).length) :
    newest n (newest cap xs) = newest n xs := by
  rw [newest_length] at h
  simp only [newest, length_drop, drop_drop]
  congr 1
  omega

theorem newest_append_newest_right (cap : ℕ) (xs ys : List α) :
    newest cap (xs ++ newest cap ys) = newest cap (xs ++ ys) := by
  by_cases h : ys.length ≤ cap
  · rw [newest_of_le h]
  · have hl : (newest cap ys).length = cap := by rw [newest_length]; omega
    have h1 : newest cap (xs ++ newest cap ys) = newest cap ys := by
      conv_lhs => rw [newest, length_append, hl, Nat.add_sub_cancel, drop_left]
    have h2 : newest cap (xs ++ ys) = newest cap ys := by
      simp only [newest, length_append]
      rw [drop_append]
      have hx : xs.drop (xs.length + ys.length - cap) = [] := drop_of_length_le (by omega)
      rw [hx, nil_append]
      congr 1
      omega
    rw [h1, h2]

variable (r : CircularBuffer α)

def snapshot : List α :=
  if r.len = 0 then [] else
    let start := (r.pos + r.cap - r.len) % r.cap
    let first := min (r.cap - start) r.len
    (r.buf.drop start).take first ++ if r.len > first then r.buf.take (r.len - first) else []

def copyIn (buf : List α) (cap pos : ℕ) (xs : List α) : List α :=
  let n := xs.length
  let first := min (cap - pos) n
  let buf := overwrite buf pos (xs.take first)
  if n > first then overwrite buf 0 (xs.drop first) else buf

theorem copyIn_length {buf : List α} {cap pos : ℕ} {xs : List α} (hb : buf.length = cap)
    (hp : pos < cap) (hn : xs.length ≤ cap) : (copyIn buf cap pos xs).length = cap := by
  have h1 : (overwrite buf pos (xs.take (min (cap - pos) xs.length))).length = cap := by
    rw [overwrite_length (by rw [length_take]; omega), hb]
  unfold copyIn
  dsimp only
  split_ifs
  · rw [overwrite_length (by rw [length_drop, h1]; omega), h1]
  · exact h1

def push [Inhabited α] (xs : List α) : CircularBuffer α :=
  if hc : r.cap = 0 then r else
    let ys := if xs.length > r.cap then xs.drop (xs.length - r.cap) else xs
    if ys = [] then r else
      let buf := if r.buf = [] then List.replicate r.cap default else r.buf
      ⟨r.cap, copyIn buf r.cap r.pos ys, (r.pos + ys.length) % r.cap, min (r.len + ys.length) r.cap, by
        right
        have hpos : r.pos < r.cap := by rcases r.layout with h | h <;> omega
        have hbuf : buf.length = r.cap := by
          rcases r.layout with h | h
          · simp [buf, h.1]
          · have : r.buf ≠ [] := by
              intro he
              rw [he] at h
              exact hc h.1.symm
            simp [buf, this, h.1]
        have hys : ys.length ≤ r.cap := by
          simp only [ys]
          split_ifs
          · rw [length_drop]; omega
          · omega
        exact ⟨copyIn_length hbuf hpos hys, Nat.mod_lt _ (by omega), by omega⟩⟩

variable {r}

theorem snapshot_getElem? (hl : r.buf.length = r.cap) (hp : r.pos < r.cap) (hn : r.len ≤ r.cap)
    {i : ℕ} (hi : i < r.len) : r.snapshot[i]? = r.buf[(r.pos + r.cap - r.len + i) % r.cap]? := by
  have hlt : r.pos + r.cap - r.len < 2 * r.cap := by omega
  unfold snapshot
  rw [if_neg (by omega)]
  simp only [mod_of_lt_two_mul hlt]
  set start := if r.pos + r.cap - r.len < r.cap then r.pos + r.cap - r.len
    else r.pos + r.cap - r.len - r.cap with hs
  have hstart : start < r.cap := by rw [hs]; split_ifs <;> omega
  have hfirst : ((r.buf.drop start).take (min (r.cap - start) r.len)).length =
      min (r.cap - start) r.len := by
    rw [length_take, length_drop]; omega
  have hmod : (r.pos + r.cap - r.len + i) % r.cap =
      if start + i < r.cap then start + i else start + i - r.cap := by
    rw [← mod_of_lt_two_mul (by omega), hs]
    split_ifs with h
    · rfl
    · rw [show r.pos + r.cap - r.len + i = r.pos + r.cap - r.len - r.cap + i + r.cap by omega,
        Nat.add_mod_right]
  rw [hmod]
  by_cases hseam : i < min (r.cap - start) r.len
  · rw [List.getElem?_append_left (by omega), List.getElem?_take, if_pos hseam, List.getElem?_drop,
      if_pos (by omega)]
  · rw [List.getElem?_append_right (by omega), hfirst, if_pos (by omega), if_neg (by omega),
      List.getElem?_take, if_pos (by omega)]
    congr 1
    omega

theorem copyIn_getElem? {buf : List α} {cap pos : ℕ} {xs : List α} (hb : buf.length = cap)
    (hp : pos < cap) (hn : xs.length ≤ cap) (k : ℕ) (hk : k < cap) :
    (copyIn buf cap pos xs)[(pos + k) % cap]? =
      if k < xs.length then xs[k]? else buf[(pos + k) % cap]? := by
  have h1 : (overwrite buf pos (xs.take (min (cap - pos) xs.length))).length = cap := by
    rw [overwrite_length (by rw [length_take]; omega), hb]
  have ht : (xs.take (min (cap - pos) xs.length)).length = min (cap - pos) xs.length := by
    rw [length_take]; omega
  have h2 : ∀ j, (overwrite buf pos (xs.take (min (cap - pos) xs.length)))[j]? =
      if pos ≤ j ∧ j < pos + min (cap - pos) xs.length then xs[j - pos]? else buf[j]? := by
    intro j
    rw [overwrite_getElem? (by omega), ht]
    split_ifs with hj
    · rw [List.getElem?_take, if_pos (by omega)]
    · rfl
  rw [mod_of_lt_two_mul (by omega)]
  unfold copyIn
  dsimp only
  by_cases hw : xs.length > min (cap - pos) xs.length
  · rw [if_pos hw, overwrite_getElem? (by rw [length_drop, h1]; omega), length_drop, h2]
    by_cases hc : pos + k < cap
    · rw [if_pos hc, if_neg (by omega), if_pos (by omega), if_pos (by omega)]
      congr 1
      omega
    · rw [if_neg hc]
      by_cases hk' : k < xs.length
      · rw [if_pos (by omega), if_pos hk', List.getElem?_drop]
        congr 1
        omega
      · rw [if_neg (by omega), if_neg (by omega), if_neg hk']
  · rw [if_neg hw, h2]
    by_cases hk' : k < xs.length
    · have hc : pos + k < cap := by omega
      rw [if_pos hk', if_pos hc, if_pos (by omega)]
      congr 1
      omega
    · rw [if_neg hk', if_neg (by split_ifs <;> omega)]

theorem snapshot_length (r : CircularBuffer α) : r.snapshot.length = r.len := by
  unfold snapshot
  rcases r.layout with h | ⟨hl, hp, hn⟩
  · rw [if_pos h.2.2, h.2.2, length_nil]
  · by_cases h0 : r.len = 0
    · rw [if_pos h0, h0, length_nil]
    · rw [if_neg h0]
      have hlt : (r.pos + r.cap - r.len) % r.cap < r.cap := Nat.mod_lt _ (by omega)
      dsimp only
      rw [length_append, length_take, length_drop]
      split_ifs
      · rw [length_take]; omega
      · rw [length_nil]; omega

theorem len_le_cap (r : CircularBuffer α) : r.len ≤ r.cap := by
  rcases r.layout with h | h <;> omega

theorem snapshot_copyIn {r' : CircularBuffer α} {buf ys : List α} (hb : buf.length = r.cap)
    (hp : r.pos < r.cap) (hn : r.len ≤ r.cap)
    (hold : ∀ j, j < r.len → r.snapshot[j]? = buf[(r.pos + r.cap - r.len + j) % r.cap]?)
    (hys : ys.length ≤ r.cap) (hcap : r'.cap = r.cap) (hbuf : r'.buf = copyIn buf r.cap r.pos ys)
    (hpos : r'.pos = (r.pos + ys.length) % r.cap) (hlen : r'.len = min (r.len + ys.length) r.cap) :
    r'.snapshot = newest r.cap (r.snapshot ++ ys) := by
  have hcl : (copyIn buf r.cap r.pos ys).length = r.cap := copyIn_length hb hp hys
  have hpos' : (r.pos + ys.length) % r.cap < r.cap := Nat.mod_lt _ (by omega)
  apply ext_getElem?
  intro i
  by_cases hi : i < r'.len
  · rw [snapshot_getElem? (by rw [hbuf, hcl, hcap]) (by rw [hpos, hcap]; exact hpos')
      (by rw [hlen, hcap]; omega) hi, hbuf, hcap, hpos, newest, List.getElem?_drop,
      length_append, snapshot_length]
    -- the cell read is `k` cells after the old write position
    have hcell : ∀ k, r.pos + ys.length + r.cap - r'.len + i = r.pos + k ∨
        r.pos + ys.length + r.cap - r'.len + i = r.pos + k + r.cap →
        ((r.pos + ys.length) % r.cap + r.cap - r'.len + i) % r.cap = (r.pos + k) % r.cap := by
      intro k hk
      have hx : ((r.pos + ys.length) % r.cap + r.cap - r'.len + i) % r.cap =
          (r.pos + ys.length + r.cap - r'.len + i) % r.cap := by
        rw [show (r.pos + ys.length) % r.cap + r.cap - r'.len + i =
            (r.pos + ys.length) % r.cap + (r.cap - r'.len + i) by omega,
          show r.pos + ys.length + r.cap - r'.len + i =
            (r.pos + ys.length) + (r.cap - r'.len + i) by omega, Nat.mod_add_mod]
      rw [hx]
      rcases hk with hk | hk
      · rw [hk]
      · rw [hk, Nat.add_mod_right]
    by_cases hnew : r'.len - ys.length ≤ i
    · rw [hcell (ys.length + i - r'.len) (by omega), copyIn_getElem? hb hp hys _ (by omega),
        if_pos (by omega), List.getElem?_append_right (by rw [snapshot_length]; omega),
        snapshot_length]
      congr 1
      omega
    · rw [hcell (r.cap + ys.length + i - r'.len) (by omega),
        copyIn_getElem? hb hp hys _ (by omega), if_neg (by omega),
        List.getElem?_append_left (by rw [snapshot_length]; omega), hold _ (by omega)]
      congr 2
      omega
  · rw [List.getElem?_eq_none (by rw [snapshot_length]; omega), List.getElem?_eq_none]
    rw [newest_length, length_append, snapshot_length]
    omega

theorem snapshot_push [Inhabited α] (r : CircularBuffer α) (xs : List α) :
    (r.push xs).snapshot = newest r.cap (r.snapshot ++ xs) := by
  have hle := r.len_le_cap
  by_cases hc : r.cap = 0
  · have hlen : (newest r.cap (r.snapshot ++ xs)).length = 0 := by rw [newest_length]; omega
    rw [eq_nil_of_length_eq_zero hlen]
    refine eq_nil_of_length_eq_zero ?_
    rw [snapshot_length]
    simp only [push, hc, dite_true]
    omega
  set ys := newest r.cap xs with hys
  have hcut : (if xs.length > r.cap then xs.drop (xs.length - r.cap) else xs) = ys := by
    split_ifs with h
    · rfl
    · exact (newest_of_le (by omega)).symm
  rw [← newest_append_newest_right]
  unfold push
  simp only [hc, dite_false, hcut]
  have hys_le : ys.length ≤ r.cap := by rw [hys, newest_length]; omega
  by_cases hnil : ys = []
  · simp only [hnil, if_true]
    rw [← hys, hnil, append_nil, newest_of_le (by rw [snapshot_length]; exact hle)]
  simp only [hnil, if_false]
  rcases r.layout with ⟨hb, hp, hl⟩ | ⟨hb, hp, hl⟩
  · exact snapshot_copyIn (by rw [if_pos hb, length_replicate]) (by omega) hle
      (fun j hj => by omega) hys_le rfl rfl rfl rfl
  · have hne : r.buf ≠ [] := by
      intro he
      rw [he] at hb
      exact hc hb.symm
    refine snapshot_copyIn (by rw [if_neg hne, hb]) hp hle ?_ hys_le rfl rfl rfl rfl
    intro j hj
    rw [if_neg hne]
    exact snapshot_getElem? hb hp hl hj

@[simp] theorem push_cap [Inhabited α] (r : CircularBuffer α) (xs : List α) :
    (r.push xs).cap = r.cap := by
  unfold push
  by_cases hc : r.cap = 0
  · rw [dif_pos hc]
  · rw [dif_neg hc]
    dsimp only
    by_cases hy : (if xs.length > r.cap then xs.drop (xs.length - r.cap) else xs) = []
    · rw [if_pos hy]
    · rw [if_neg hy]

end CircularBuffer
