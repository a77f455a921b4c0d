import Mathlib.Tactic
import SerialNexus.PrefixCode

/-! # Names in browser storage

The scrollback of a console is kept in a file of the origin's private directory.  `fileName`
(`web/src/assets/opfs.mjs`) escapes the key of the console, and `pruneForeign` removes the records
of other origins and boots.  A text is a list of UTF-16 code units. -/

namespace SerialNexus.Opfs

open List

abbrev Text := List UInt16

def ascii (s : String) : Text := s.toList.map fun c => .ofNat c.toNat

def isPlain (c : UInt16) : Bool :=
  (0x41 ≤ c && c ≤ 0x5a) || (0x61 ≤ c && c ≤ 0x7a) || (0x30 ≤ c && c ≤ 0x39) || c = 0x2e || c = 0x2d

def hexBody (c : UInt16) : Text :=
  ((Nat.toDigits 16 c.toNat).leftpad 4 '0').map fun d => .ofNat d.toNat

def encodeUnit (c : UInt16) : Text := if isPlain c then [c] else 0x25 :: hexBody c

def encodeKey (key : Text) : Text := key.flatMap encodeUnit

def fileName (key : Text) : Text := ascii "hist_" ++ encodeKey key ++ ascii ".bin"

structure Directory where
  names : List Text
  enumerable : Bool
  held : Text → Bool

def Directory.removeEntry (dir : Directory) (name : Text) : Option Directory :=
  if dir.held name then none else some { dir with names := dir.names.filter (· ≠ name) }

def isForeign (pre keepInstance name : Text) : Bool :=
  let head := ascii "hist_" ++ encodeKey pre
  let tail := encodeKey (ascii "::" ++ keepInstance) ++ ascii ".bin"
  (ascii "hist_").isPrefixOf name && (ascii ".bin").isSuffixOf name &&
    !(head.isPrefixOf name && tail.isSuffixOf name)

def removeAll (doomed : List Text) (removed : ℕ) (dir : Directory) : ℕ × Directory :=
  match doomed with
  | [] => (removed, dir)
  | name :: doomed =>
    match dir.removeEntry name with
    | some dir => removeAll doomed (removed + 1) dir
    | none => removeAll doomed removed dir

def pruneForeign (pre keepInstance : Text) (dir : Directory) : ℕ × Directory :=
  if dir.enumerable then removeAll (dir.names.filter (isForeign pre keepInstance)) 0 dir else (0, dir)

def hexUnit (d : ℕ) : UInt16 := .ofNat (Nat.digitChar d).toNat

theorem hexUnit_inj {a b : ℕ} (ha : a < 16) (hb : b < 16) (h : hexUnit a = hexUnit b) : a = b := by
  have : ∀ a < 16, ∀ b < 16, hexUnit a = hexUnit b → a = b := by decide
  exact this a ha b hb h

theorem hexUnit_ne_mark {d : ℕ} (hd : d < 16) : hexUnit d ≠ 0x25 := by
  have : ∀ d < 16, hexUnit d ≠ 0x25 := by decide
  exact this d hd

theorem leftpad_toDigits (k n : ℕ) :
    (Nat.toDigits 16 n).leftpad (k + 2) '0' =
      (Nat.toDigits 16 (n / 16)).leftpad (k + 1) '0' ++ [Nat.digitChar (n % 16)] := by
  by_cases hn : n < 16
  · rw [Nat.toDigits_of_lt_base hn, Nat.div_eq_of_lt hn, Nat.mod_eq_of_lt hn]
    simp [List.leftpad, replicate_succ']
  · rw [Nat.toDigits_of_base_le (by decide) (not_lt.mp hn)]
    simp [List.leftpad]

theorem hexBody_eq (c : UInt16) :
    hexBody c = [hexUnit (c.toNat / 16 / 16 / 16), hexUnit (c.toNat / 16 / 16 % 16),
      hexUnit (c.toNat / 16 % 16), hexUnit (c.toNat % 16)] := by
  have hc : c.toNat / 16 / 16 / 16 < 16 := by
    have := c.toNat_lt
    omega
  rw [hexBody, leftpad_toDigits, leftpad_toDigits, leftpad_toDigits, Nat.toDigits_of_lt_base hc]
  rfl

theorem encodeUnit_free : PrefixCode.Free encodeUnit where
  ne_nil c := by
    unfold encodeUnit
    split_ifs <;> simp
  eq {a b} h := by
    unfold encodeUnit at h
    split_ifs at h with ha hb hb
    · simpa using h
    · obtain rfl : a = 0x25 := by simpa using h
      exact absurd ha (by decide)
    · simp [hexBody_eq] at h
    · rw [hexBody_eq, hexBody_eq] at h
      have hdigits := List.cons.inj (h.eq_of_length rfl)
      simp only [List.cons.injEq, and_true, true_and] at hdigits
      have := a.toNat_lt
      have := b.toNat_lt
      have h₃ := hexUnit_inj (by omega) (by omega) hdigits.1
      have h₂ := hexUnit_inj (by omega) (by omega) hdigits.2.1
      have h₁ := hexUnit_inj (by omega) (by omega) hdigits.2.2.1
      have h₀ := hexUnit_inj (by omega) (by omega) hdigits.2.2.2
      exact UInt16.toNat.inj (by omega)

theorem mark_notMem_tail (c : UInt16) : 0x25 ∉ (encodeUnit c).tail := by
  unfold encodeUnit
  split_ifs
  · simp
  · have hc := c.toNat_lt
    rw [hexBody_eq, tail_cons]
    simp only [mem_cons, not_mem_nil, or_false, not_or]
    refine ⟨?_, ?_, ?_, ?_⟩ <;> exact (hexUnit_ne_mark (by omega)).symm

theorem fileName_injective : Function.Injective fileName := fun _ _ h =>
  encodeUnit_free.injective (append_cancel_left (append_cancel_right h))

theorem head_isPrefix_iff {pre key : Text} :
    ascii "hist_" ++ encodeKey pre <+: fileName key ↔
      pre <+: key ∨ ∃ rest, rest ≠ [] ∧ rest <+: ascii ".bin" ∧ pre = key ++ rest := by
  have hplain : ascii ".bin" = encodeKey (ascii ".bin") := by decide
  have hrest : ∀ rest, encodeKey rest <+: ascii ".bin" ↔ rest <+: ascii ".bin" := fun rest => by
    nth_rewrite 1 [hplain]
    exact encodeUnit_free.isPrefix_iff
  rw [fileName, append_assoc, prefix_append_right_inj, encodeKey, encodeKey,
    encodeUnit_free.isPrefix_append_iff]
  constructor
  · rintro (h | ⟨rest, rfl, h⟩)
    · exact .inl h
    · by_cases hnil : rest = []
      · exact .inl (by simp [hnil])
      · exact .inr ⟨rest, hnil, (hrest rest).mp h, rfl⟩
  · rintro (h | ⟨rest, -, h, rfl⟩)
    · exact .inl h
    · exact .inr ⟨rest, rfl, (hrest rest).mpr h⟩

theorem tail_isSuffix_iff {keepInstance key : Text} :
    encodeKey (ascii "::" ++ keepInstance) ++ ascii ".bin" <:+ fileName key ↔
      ascii "::" ++ keepInstance <:+ key := by
  have hcolon : (encodeKey (ascii "::" ++ keepInstance)).head? = some 0x25 := by
    simp [encodeKey, ascii, encodeUnit, isPlain]
  obtain ⟨u, hu⟩ := head?_eq_some_iff.mp hcolon
  rw [← encodeUnit_free.isSuffix_iff mark_notMem_tail hcolon, ← encodeKey, ← encodeKey, fileName, hu,
    ← PrefixCode.cons_isSuffix_append_iff (p := ascii "hist_") (by decide)]
  exact suffix_append_self_iff

def Ours (pre keepInstance key : Text) : Prop := pre <+: key ∧ ascii "::" ++ keepInstance <:+ key

def RunsOver (pre keepInstance key : Text) : Prop :=
  ascii "::" ++ keepInstance <:+ key ∧ ∃ rest, rest ≠ [] ∧ rest <+: ascii ".bin" ∧ pre = key ++ rest

variable {pre keepInstance key name : Text} {dir : Directory}

theorem isForeign_fileName :
    isForeign pre keepInstance (fileName key) = true ↔
      ¬ (Ours pre keepInstance key ∨ RunsOver pre keepInstance key) := by
  have hhist : ascii "hist_" <+: fileName key := ⟨encodeKey key ++ ascii ".bin", by simp [fileName]⟩
  have hbin : ascii ".bin" <:+ fileName key := suffix_append _ _
  simp only [isForeign, Bool.and_eq_true, Bool.not_eq_true', ← Bool.not_eq_true,
    isPrefixOf_iff_prefix, isSuffixOf_iff_suffix, hhist, hbin, head_isPrefix_iff,
    tail_isSuffix_iff, true_and]
  rw [not_iff_not, or_and_right]
  exact or_congr_right and_comm

theorem mem_removeAll {doomed : List Text} {removed : ℕ} :
    name ∈ (removeAll doomed removed dir).2.names ↔
      name ∈ dir.names ∧ (name ∈ doomed → dir.held name = true) := by
  induction doomed generalizing removed dir with
  | nil => simp [removeAll]
  | cons next doomed ih =>
    unfold removeAll Directory.removeEntry
    split_ifs with hheld
    · rw [ih, mem_cons]
      by_cases hname : name = next
      · simp [hname, hheld]
      · simp [hname]
    · rw [ih, mem_cons]
      by_cases hname : name = next
      · simp [hname, hheld]
      · simp [hname]

theorem mem_pruneForeign (h : dir.enumerable = true) :
    name ∈ (pruneForeign pre keepInstance dir).2.names ↔
      name ∈ dir.names ∧ (dir.held name = true ∨ ¬ isForeign pre keepInstance name = true) := by
  rw [pruneForeign, if_pos h, mem_removeAll, mem_filter]
  tauto

theorem not_runsOver (host : Text) : ¬ RunsOver (host ++ ascii "::") keepInstance key := by
  rintro ⟨-, rest, hne, hbin, heq⟩
  have hlast : rest.getLast? = some 0x3a := by
    rw [← getLast?_append_of_ne_nil key hne, ← heq]
    simp [ascii]
  have hmem : (0x3a : UInt16) ∈ ascii ".bin" := hbin.subset (mem_of_getLast? hlast)
  exact absurd hmem (by decide)

theorem storage_names :
    Function.Injective fileName ∧
      ∀ (pre keepInstance : Text) (dir : Directory), dir.enumerable = true → ∀ key,
        (fileName key ∈ (pruneForeign pre keepInstance dir).2.names ↔
          fileName key ∈ dir.names ∧ (dir.held (fileName key) = true ∨
            Ours pre keepInstance key ∨ RunsOver pre keepInstance key)) ∧
        ∀ host, pre = host ++ ascii "::" → ¬ RunsOver pre keepInstance key := by
  refine ⟨fileName_injective, fun pre keepInstance dir h key => ⟨?_, ?_⟩⟩
  · rw [mem_pruneForeign h, isForeign_fileName, not_not]
  · rintro host rfl
    exact not_runsOver host

def twoBoots : Directory where
  names := [fileName (ascii "h:1::mux/console::7"), fileName (ascii "h:1::mux/console::6"),
    ascii "settings"]
  enumerable := true
  held _ := false

theorem storage_names_twoBoots :
    fileName (ascii "h:1::mux/console::7") ∈
        (pruneForeign (ascii "h:1::") (ascii "7") twoBoots).2.names ∧
      (pruneForeign (ascii "h:1::") (ascii "7") twoBoots).1 = 1 := by
  refine ⟨((storage_names.2 _ _ twoBoots rfl _).1).mpr ⟨mem_cons_self, .inr (.inl ?_)⟩,
    by decide +kernel⟩
  exact ⟨by decide +kernel, by decide +kernel⟩

theorem extension_taken_for_key :
    let dir : Directory := ⟨[fileName (ascii "::7")], true, fun _ => false⟩
    fileName (ascii "::7") ∈ (pruneForeign (ascii "::7.b") (ascii "7") dir).2.names ∧
      ¬ ascii "::7.b" <+: ascii "::7" := by
  decide +kernel

end SerialNexus.Opfs
