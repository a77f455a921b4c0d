import SerialNexus.Envelope
import SerialNexus.Rpc

/-! # Base64

The transport of console bytes (`rpc/src/lib.rs`). -/

namespace SerialNexus

open List
namespace Rpc

def isAsciiWhitespace (c : UInt8) : Bool := [0x20, 0x09, 0x0a, 0x0c, 0x0d].contains c

def base64Val (c : UInt8) : Option ℕ :=
  if 0x41 ≤ c ∧ c ≤ 0x5a then some (c.toNat - 0x41)
  else if 0x61 ≤ c ∧ c ≤ 0x7a then some (c.toNat - 0x61 + 26)
  else if 0x30 ≤ c ∧ c ≤ 0x39 then some (c.toNat - 0x30 + 52)
  else if c = 0x2b then some 62
  else if c = 0x2f then some 63
  else none

def base64Scan : List ℕ → ℕ → List UInt8 → Option (List ℕ × ℕ)
  | symbols, pad, [] => some (symbols, pad)
  | symbols, pad, c :: rest =>
    if isAsciiWhitespace c then base64Scan symbols pad rest
    else if c = 0x3d then base64Scan symbols (pad + 1) rest
    else if 0 < pad then none -- data after padding
    else
      match base64Val c with
      | none => none
      | some v => base64Scan (symbols ++ [v]) pad rest

def base64Ungroup (group : List ℕ) : Chunk :=
  let n := group.foldl (fun acc s => (acc <<< 6) ||| s) 0 <<< ((4 - group.length) * 6)
  UInt8.ofNat (n >>> 16 &&& 0xff) ::
    ((if 3 ≤ group.length then [UInt8.ofNat (n >>> 8 &&& 0xff)] else []) ++
      (if 4 ≤ group.length then [UInt8.ofNat (n &&& 0xff)] else []))

def base64Decode (input : String) : Option Chunk :=
  match base64Scan [] 0 (utf8 input) with
  | none => none
  | some (symbols, pad) =>
    if (symbols.length + pad) % 4 ≠ 0 ∨ pad > 2 then none
    else some ((Chunks.chunks 4 symbols).flatMap base64Ungroup)

/-! ### Symbols -/

theorem base64Val_char : ∀ n < 64, (base64Char n).toNat < 128 ∧
    isAsciiWhitespace (UInt8.ofNat (base64Char n).toNat) = false ∧
    UInt8.ofNat (base64Char n).toNat ≠ 0x3d ∧
    base64Val (UInt8.ofNat (base64Char n).toNat) = some n := by
  decide +kernel

theorem base64Char_mod (n : ℕ) : base64Char n = base64Char (n % 64) := by
  have hmask : ∀ n, n &&& 0x3f = n % 64 := fun n => Nat.and_two_pow_sub_one_eq_mod n 6
  rw [base64Char, base64Char, hmask, hmask, Nat.mod_mod]

theorem append_symbol (acc n : ℕ) : (acc <<< 6) ||| (n % 64) = acc * 64 + n % 64 := by
  rw [← Nat.shiftLeft_add_eq_or_of_lt (Nat.mod_lt n (by decide)), Nat.shiftLeft_eq]

theorem bytes_number (b0 b1 b2 : UInt8) :
    (b0.toNat <<< 16) ||| (b1.toNat <<< 8) ||| b2.toNat =
      b0.toNat * 65536 + b1.toNat * 256 + b2.toNat := by
  have h1 := b1.toNat_lt
  have h2 := b2.toNat_lt
  have hlow : (b1.toNat <<< 8) ||| b2.toNat = b1.toNat * 256 + b2.toNat := by
    rw [← Nat.shiftLeft_add_eq_or_of_lt h2, Nat.shiftLeft_eq]
  rw [Nat.or_assoc, hlow, ← Nat.shiftLeft_add_eq_or_of_lt (by omega), Nat.shiftLeft_eq]
  omega

def sextets (n : ℕ) : List ℕ := [n / 262144 % 64, n / 4096 % 64, n / 64 % 64, n % 64]

variable {length n : ℕ} {symbols : List ℕ} {c : Char} {x : Chunk}

theorem base64Group_eq (b0 b1 b2 : UInt8) (hpos : 1 ≤ length) (hle : length ≤ 3) :
    base64Group b0 b1 b2 length =
      ((sextets (b0.toNat * 65536 + b1.toNat * 256 + b2.toNat)).take (length + 1)).map base64Char ++
        List.replicate (3 - length) '=' := by
  have hchar : ∀ n k, base64Char (n >>> k) = base64Char (n / 2 ^ k % 64) := fun n k => by
    rw [base64Char_mod, Nat.shiftRight_eq_div_pow]
  unfold base64Group
  simp only [bytes_number, hchar]
  rw [base64Char_mod (_ + _)]
  obtain rfl | rfl | rfl : length = 1 ∨ length = 2 ∨ length = 3 := by omega
  · rfl
  · rfl
  · rfl

theorem ofNat_mask (n : ℕ) : UInt8.ofNat (n &&& 0xff) = UInt8.ofNat n := by
  have hmask : n &&& 0xff = n % 256 := Nat.and_two_pow_sub_one_eq_mod n 8
  apply UInt8.toNat_inj.mp
  rw [hmask, UInt8.toNat_ofNat', UInt8.toNat_ofNat', Nat.mod_mod]

theorem base64Ungroup_sextets (hn : n < 16777216) (hpos : 1 ≤ length) (hle : length ≤ 3)
    (hzero : n % 256 ^ (3 - length) = 0) :
    base64Ungroup ((sextets n).take (length + 1)) =
      [UInt8.ofNat (n / 65536), UInt8.ofNat (n / 256), UInt8.ofNat n].take length := by
  have hsum : (((sextets n).take (length + 1)).foldl (fun acc s => (acc <<< 6) ||| s) 0) <<<
      ((4 - ((sextets n).take (length + 1)).length) * 6) = n := by
    obtain rfl | rfl | rfl : length = 1 ∨ length = 2 ∨ length = 3 := by omega
    all_goals
      simp only [sextets, List.take, List.foldl, List.length, append_symbol]
      rw [Nat.shiftLeft_eq]
      omega
  unfold base64Ungroup
  dsimp only
  rw [hsum]
  simp only [ofNat_mask, Nat.shiftRight_eq_div_pow]
  obtain rfl | rfl | rfl : length = 1 ∨ length = 2 ∨ length = 3 := by omega
  · rfl
  · rfl
  · rfl

theorem base64Ungroup_group (b0 b1 b2 : UInt8) (hpos : 1 ≤ length) (hle : length ≤ 3)
    (hzero : (b0.toNat * 65536 + b1.toNat * 256 + b2.toNat) % 256 ^ (3 - length) = 0) :
    base64Ungroup ((sextets (b0.toNat * 65536 + b1.toNat * 256 + b2.toNat)).take (length + 1)) =
      [b0, b1, b2].take length := by
  have h0 := b0.toNat_lt
  have h1 := b1.toNat_lt
  have h2 := b2.toNat_lt
  have hbyte : ∀ (b : UInt8) n, n % 256 = b.toNat → UInt8.ofNat n = b := fun b n h => by
    apply UInt8.toNat_inj.mp
    rw [UInt8.toNat_ofNat']
    exact h
  rw [base64Ungroup_sextets (by omega) hpos hle hzero, hbyte b0 _ (by omega),
    hbyte b1 _ (by omega), hbyte b2 _ (by omega)]

structure Spells (symbols : List ℕ) (pad : ℕ) (x : Chunk) : Prop where
  small : ∀ s ∈ symbols, s < 64
  whole : (symbols.length + pad) % 4 = 0
  padding : pad ≤ 2
  bytes : (Chunks.chunks 4 symbols).flatMap base64Ungroup = x

theorem mem_sextets {k s : ℕ} (h : s ∈ (sextets n).take k) : s < 64 := by
  have hs := mem_of_mem_take h
  simp only [sextets, mem_cons, not_mem_nil, or_false] at hs
  omega

theorem spells_last (b0 b1 : UInt8) (hpos : 1 ≤ length) (hle : length ≤ 2)
    (hzero : (b0.toNat * 65536 + b1.toNat * 256 + (0 : UInt8).toNat) % 256 ^ (3 - length) = 0) :
    Spells ((sextets (b0.toNat * 65536 + b1.toNat * 256 + (0 : UInt8).toNat)).take (length + 1))
      (3 - length) ([b0, b1, 0].take length) := by
  refine ⟨fun s => mem_sextets, ?_, by omega, ?_⟩
  · simp only [sextets, length_take, length_cons, length_nil]
    omega
  · rw [Chunks.chunks_of_length_le (by simp [sextets])
      (by simp [sextets, length_take]), flatMap_singleton,
      base64Ungroup_group b0 b1 0 hpos (by omega) hzero]

theorem base64Chars_split (x : Chunk) : ∃ symbols pad,
    base64Chars x = symbols.map base64Char ++ List.replicate pad '=' ∧ Spells symbols pad x := by
  induction x using base64Chars.induct with
  | case1 => exact ⟨[], 0, rfl, by simp, rfl, by omega, rfl⟩
  | case2 b0 =>
    exact ⟨_, 2, base64Group_eq b0 0 0 le_rfl (by omega), spells_last b0 0 le_rfl (by omega)
      (by simp)⟩
  | case3 b0 b1 =>
    exact ⟨_, 1, base64Group_eq b0 b1 0 (by omega) (by omega), spells_last b0 b1 (by omega) le_rfl
      (by simp; omega)⟩
  | case4 b0 b1 b2 rest ih =>
    obtain ⟨symbols, pad, hchars, hspells⟩ := ih
    refine ⟨sextets (b0.toNat * 65536 + b1.toNat * 256 + b2.toNat) ++ symbols, pad, ?_, ?_, ?_,
      hspells.padding, ?_⟩
    · rw [base64Chars, base64Group_eq b0 b1 b2 (by omega) le_rfl, hchars, map_append, append_assoc]
      rfl
    · intro s hs
      rcases mem_append.mp hs with hs | hs
      · exact mem_sextets (k := 4) hs
      · exact hspells.small s hs
    · have hwhole := hspells.whole
      simp only [sextets, length_append, length_cons, length_nil]
      omega
    · have hfour : (sextets (b0.toNat * 65536 + b1.toNat * 256 + b2.toNat)).length = 4 := rfl
      rw [Chunks.chunks_append (by decide) hfour, flatMap_cons, hspells.bytes]
      exact congrArg (· ++ rest) (base64Ungroup_group b0 b1 b2 (by omega) le_rfl (Nat.mod_one _))

/-! ### The scan -/

theorem base64Scan_filter (symbols : List ℕ) (pad : ℕ) (bytes : List UInt8) :
    base64Scan symbols pad bytes =
      base64Scan symbols pad (bytes.filter (!isAsciiWhitespace ·)) := by
  induction bytes generalizing symbols pad with
  | nil => rfl
  | cons c bytes ih =>
    cases hc : isAsciiWhitespace c with
    | true => rw [base64Scan, if_pos hc, filter_cons_of_neg (by simp [hc]), ih]
    | false =>
      rw [filter_cons_of_pos (by simp [hc]), base64Scan, base64Scan]
      simp only [ih]

theorem base64Scan_padding (symbols : List ℕ) (pad k : ℕ) :
    base64Scan symbols pad (List.replicate k 0x3d) = some (symbols, pad + k) := by
  induction k generalizing pad with
  | zero => rfl
  | succ k ih =>
    rw [replicate_succ, base64Scan, if_neg (by decide), if_pos rfl, ih]
    congr 2
    omega

theorem base64Scan_symbols {symbols : List ℕ} (h : ∀ s ∈ symbols, s < 64) (before : List ℕ) (k : ℕ) :
    base64Scan before 0 (symbols.map (fun s => UInt8.ofNat (base64Char s).toNat) ++
      List.replicate k 0x3d) = some (before ++ symbols, k) := by
  induction symbols generalizing before with
  | nil => simp [base64Scan_padding]
  | cons s symbols ih =>
    obtain ⟨-, hspace, hpad, hval⟩ := base64Val_char s (h s mem_cons_self)
    rw [map_cons, cons_append, base64Scan, if_neg (by simp [hspace]), if_neg hpad,
      if_neg (lt_irrefl 0), hval]
    dsimp only
    rw [ih fun s hs => h s (mem_cons_of_mem _ hs), append_assoc]
    rfl

theorem base64Scan_length {pad : ℕ} {bytes : List UInt8} {found : List ℕ × ℕ}
    (h : base64Scan symbols pad bytes = some found) :
    found.1.length = symbols.length + bytes.countP (fun c => !isAsciiWhitespace c && c != 0x3d) := by
  induction bytes generalizing symbols pad with
  | nil =>
    cases h
    rfl
  | cons c bytes ih =>
    rw [base64Scan] at h
    rw [countP_cons]
    split_ifs at h with hspace hpad hdata
    · rw [ih h]
      simp [hspace]
    · rw [ih h]
      simp [hpad]
    · split at h
      · cases h
      · rw [ih h]
        simp [hspace, hpad]
        omega

def isAsciiSpace (c : Char) : Bool := [' ', '\t', '\n', '\x0c', '\r'].contains c

def symbolCount (s : String) : ℕ := (utf8 s).countP fun c => !isAsciiWhitespace c && c != 0x3d

theorem utf8_of_ascii {cs : List Char} (h : ∀ c ∈ cs, c.toNat < 128) :
    utf8 (.ofList cs) = cs.map fun c => UInt8.ofNat c.toNat := by
  rw [utf8_ofList]
  induction cs with
  | nil => rfl
  | cons c cs ih =>
    have hc : c.val.toNat ≤ 0x7f := Nat.le_of_lt_succ (h c mem_cons_self)
    have hone : String.utf8EncodeChar c = [UInt8.ofNat c.toNat] := if_pos hc
    rw [flatMap_cons, hone, ih fun c hc => h c (mem_cons_of_mem _ hc)]
    rfl

theorem isAsciiSpace_spec (h : isAsciiSpace c = true) :
    c.toNat < 128 ∧ isAsciiWhitespace (UInt8.ofNat c.toNat) = true := by
  simp only [isAsciiSpace, contains_eq_mem, decide_eq_true_eq, mem_cons, not_mem_nil, or_false] at h
  rcases h with rfl | rfl | rfl | rfl | rfl <;> decide

theorem base64Chars_plain (hc : c ∈ base64Chars x) :
    c.toNat < 128 ∧ isAsciiWhitespace (UInt8.ofNat c.toNat) = false := by
  obtain ⟨symbols, pad, hchars, hspells⟩ := base64Chars_split x
  rw [hchars] at hc
  rcases mem_append.mp hc with hc | hc
  · obtain ⟨n, hn, rfl⟩ := mem_map.mp hc
    obtain ⟨hlt, hspace, -⟩ := base64Val_char n (hspells.small n hn)
    exact ⟨hlt, hspace⟩
  · rw [eq_of_mem_replicate hc]
    decide

theorem base64Decode_spaced {s : String} (h : s.toList.filter (!isAsciiSpace ·) = base64Chars x) :
    base64Decode s = some x := by
  obtain ⟨symbols, pad, hchars, hspells⟩ := base64Chars_split x
  have hall : ∀ c ∈ s.toList, c.toNat < 128 ∧
      isAsciiWhitespace (UInt8.ofNat c.toNat) = isAsciiSpace c := by
    intro c hc
    cases hspace : isAsciiSpace c with
    | true => exact isAsciiSpace_spec hspace
    | false => exact base64Chars_plain (h ▸ mem_filter.mpr ⟨hc, by simp [hspace]⟩)
  have hbytes : (utf8 s).filter (!isAsciiWhitespace ·) =
      symbols.map (fun n => UInt8.ofNat (base64Char n).toNat) ++ List.replicate pad 0x3d := by
    rw [← String.ofList_toList (s := s), utf8_of_ascii fun c hc => (hall c hc).1, filter_map,
      filter_congr (q := (!isAsciiSpace ·)) fun c hc => by simp [(hall c hc).2], h, hchars]
    simp [Function.comp_def]
  rw [base64Decode, base64Scan_filter, hbytes, base64Scan_symbols hspells.small [] pad]
  dsimp only
  rw [if_neg (by have := hspells.whole; have := hspells.padding; simp; omega), nil_append,
    hspells.bytes]

theorem base64Decode_encode (x : Chunk) : base64Decode (base64Encode x) = some x := by
  refine base64Decode_spaced ?_
  rw [base64Encode, String.toList_ofList, filter_eq_self]
  intro c hc
  cases hspace : isAsciiSpace c with
  | true =>
    have hclash := (base64Chars_plain hc).2.symm.trans (isAsciiSpace_spec hspace).2
    cases hclash
  | false => rfl

theorem length_base64Chars (x : Chunk) : (base64Chars x).length = 4 * ((x.length + 2) / 3) := by
  induction x using base64Chars.induct with
  | case1 => rfl
  | case2 | case3 => simp [base64Chars, base64Group]
  | case4 b0 b1 b2 rest ih =>
    rw [base64Chars, length_append, ih]
    simp only [base64Group, length_cons, length_nil]
    omega

theorem length_ungroup (h : symbols.length % 4 ≠ 1) :
    ((Chunks.chunks 4 symbols).flatMap base64Ungroup).length = 3 * symbols.length / 4 := by
  have hgroup : ∀ g, (base64Ungroup g).length =
      1 + ((if 3 ≤ g.length then 1 else 0) + (if 4 ≤ g.length then 1 else 0)) := by
    intro g
    unfold base64Ungroup
    split_ifs <;> simp
  induction symbols using Chunks.induction_on (k := 4) (by decide) with
  | nil => rfl
  | step symbols hne ih =>
    have hpos := length_pos_iff.mpr hne
    rw [length_drop] at ih
    rw [Chunks.chunks_of_ne_nil (by decide) hne, flatMap_cons, length_append, ih (by omega),
      hgroup, length_take]
    rcases le_total 4 symbols.length with h4 | h4
    · rw [min_eq_left h4, if_pos (by decide), if_pos le_rfl]
      omega
    · obtain hlen | hlen | hlen : symbols.length = 2 ∨ symbols.length = 3 ∨ symbols.length = 4 := by
        omega
      all_goals rw [hlen]; rfl

theorem base64_lossless :
    (∀ x s, s.toList.filter (!isAsciiSpace ·) = (base64Encode x).toList → base64Decode s = some x) ∧
      Function.Injective base64Encode ∧
      (∀ x, (base64Encode x).length = 4 * ((x.length + 2) / 3)) ∧
      ∀ s y, base64Decode s = some y → base64Decode (base64Encode y) = some y ∧
        y.length = 3 * symbolCount s / 4 ∧ symbolCount s % 4 ≠ 1 := by
  refine ⟨fun x s h => base64Decode_spaced (h.trans (String.toList_ofList)), fun x y h => ?_,
    fun x => ?_, fun s y h => ?_⟩
  · have hx := base64Decode_encode x
    rw [h, base64Decode_encode] at hx
    exact (Option.some.inj hx).symm
  · rw [base64Encode, String.length_ofList, length_base64Chars]
  · refine ⟨base64Decode_encode y, ?_⟩
    unfold base64Decode at h
    split at h
    · cases h
    · next symbols pad hscan =>
      have hcount := base64Scan_length hscan
      split_ifs at h with hbad
      cases h
      have hmod : symbols.length % 4 ≠ 1 := by omega
      rw [length_ungroup hmod, symbolCount, ← Nat.zero_add (List.countP _ _)]
      exact ⟨congrArg (3 * · / 4) hcount, hcount ▸ hmod⟩

theorem base64_lossless_spaced : base64Decode "TW Fu\nTQ= =\r" = some [77, 97, 110, 77] :=
  base64_lossless.1 [77, 97, 110, 77] _ (by decide +kernel)

end Rpc
end SerialNexus
