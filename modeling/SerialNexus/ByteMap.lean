import SerialNexus.Config

/-! # Byte maps

The character mappings of the map node (`core/src/map.rs`): the first rule that matches a byte says
what to write for it.  `compile` makes a table of the rules, and `apply` looks each byte up. -/

namespace SerialNexus

def hexd : List UInt8 :=
  [0x30, 0x31, 0x32, 0x33, 0x34, 0x35, 0x36, 0x37, 0x38, 0x39, 0x61, 0x62, 0x63, 0x64, 0x65, 0x66]

namespace Mapping

def maxExpansion : ℕ := 4

def name (m : Mapping) : String :=
  ((vocabulary.find? fun entry => entry.2 = m).map Prod.fst).getD ""

def «matches» (m : Mapping) (b : UInt8) : Bool :=
  match m with
  | crlf | crcrlf | igncr | crhex => b = 0x0d
  | lfcr | lfcrlf | ignlf | lfhex => b = 0x0a
  | bsdel => b = 0x08
  | delbs => b = 0x7f
  | spchex => b = 0x7f ∨ b < 0x20 ∧ b ≠ 0x09 ∧ b ≠ 0x0a ∧ b ≠ 0x0d
  | tabhex => b = 0x09
  | eightBitHex => 0x80 ≤ b
  | nrmHex => 0x20 ≤ b ∧ b ≤ 0x7e

def output (m : Mapping) (b : UInt8) : List UInt8 × ℕ :=
  match m with
  | crlf => ([0x0a, 0, 0, 0], 1)
  | lfcr => ([0x0d, 0, 0, 0], 1)
  | crcrlf | lfcrlf => ([0x0d, 0x0a, 0, 0], 2)
  | igncr | ignlf => ([0, 0, 0, 0], 0)
  | bsdel => ([0x7f, 0, 0, 0], 1)
  | delbs => ([0x08, 0, 0, 0], 1)
  | spchex | tabhex | crhex | lfhex | eightBitHex | nrmHex =>
    ([0x5b, hexd.getD (b >>> 4).toNat 0, hexd.getD (b &&& 0x0f).toNat 0, 0x5d], 4)

def expansion : Mapping → ℕ
  | igncr | ignlf => 0
  | crlf | lfcr | bsdel | delbs => 1
  | crcrlf | lfcrlf => 2
  | spchex | tabhex | crhex | lfhex | eightBitHex | nrmHex => 4

def substitution (m : Mapping) (b : UInt8) : List UInt8 := (m.output b).1.take (m.output b).2

theorem output_buffer (m : Mapping) (b : UInt8) :
    (m.output b).1.length = maxExpansion ∧ (m.output b).2 = m.expansion ∧
      m.expansion ≤ maxExpansion := by
  cases m <;> exact ⟨rfl, rfl, by decide⟩

theorem substitution_length (m : Mapping) (b : UInt8) : (m.substitution b).length = m.expansion := by
  obtain ⟨hbuf, hlen, hle⟩ := m.output_buffer b
  rw [substitution, List.length_take, hbuf, hlen, Nat.min_eq_left hle]

end Mapping

inductive Slot where
  | pass
  | sub (rule : ℕ) (out : List UInt8) (len : ℕ)
deriving DecidableEq, Repr

structure MapDirection where
  rules : List Mapping
  table : Vector Slot 256
  maxExpansion : ℕ

namespace MapDirection

def slotOf (rules : List Mapping) (b : UInt8) : Slot :=
  match rules.zipIdx.find? fun entry => entry.1.matches b with
  | none => .pass
  | some (m, rule) => .sub rule (m.output b).1 (m.output b).2

def compile (rules : List Mapping) : MapDirection where
  rules := rules
  table := Vector.ofFn fun byte => slotOf rules (UInt8.ofNat byte)
  maxExpansion := max ((rules.map Mapping.expansion).max?.getD 1) 1

def parse (names : List String) : Except String MapDirection :=
  (names.mapM fun name =>
    match Mapping.fromName name with
    | some m => Except.ok m
    | none => Except.error name).map compile

def applyByte (d : MapDirection) (acc : List UInt8 × List ℕ) (b : UInt8) : List UInt8 × List ℕ :=
  match d.table.get ⟨b.toNat, b.toNat_lt⟩ with
  | .pass => (acc.1 ++ [b], acc.2)
  | .sub rule out len => (acc.1 ++ out.take len, acc.2 ++ [rule])

def apply (d : MapDirection) (input out : List UInt8) : List UInt8 × List ℕ :=
  input.foldl d.applyByte (out, [])

def firstRule (rules : List Mapping) (b : UInt8) : Option ℕ := rules.findIdx? (·.matches b)

def rewriteByte (rules : List Mapping) (b : UInt8) : List UInt8 :=
  match rules.find? (·.matches b) with
  | some m => m.substitution b
  | none => [b]

theorem compile_slot (rules : List Mapping) (b : UInt8) :
    (compile rules).table.get ⟨b.toNat, b.toNat_lt⟩ = slotOf rules b := by
  have hb : b.toNat < 256 := b.toNat_lt
  change (Vector.ofFn fun byte : Fin 256 => slotOf rules (UInt8.ofNat byte))[b.toNat] = _
  rw [Vector.getElem_ofFn, UInt8.ofNat_toNat]

theorem find?_zipIdx (rules : List Mapping) (b : UInt8) :
    (rules.zipIdx.find? fun entry => entry.1.matches b).map Prod.fst = rules.find? (·.matches b) ∧
      (rules.zipIdx.find? fun entry => entry.1.matches b).map Prod.snd = firstRule rules b := by
  refine ⟨?_, ?_⟩
  · rw [← List.zipIdx_map_fst 0 rules, List.find?_map]
    simp
  · rw [firstRule, List.findIdx?_eq_fst_find?_zipIdx]

theorem applyByte_eq (rules : List Mapping) (acc : List UInt8 × List ℕ) (b : UInt8) :
    (compile rules).applyByte acc b =
      (acc.1 ++ rewriteByte rules b, acc.2 ++ (firstRule rules b).toList) := by
  obtain ⟨hrule, hplace⟩ := find?_zipIdx rules b
  rw [applyByte, compile_slot, slotOf, rewriteByte, ← hrule, ← hplace]
  cases rules.zipIdx.find? fun entry => entry.1.matches b with
  | none => simp
  | some entry => rfl

theorem foldl_applyByte (rules : List Mapping) (input : List UInt8) (acc : List UInt8 × List ℕ) :
    input.foldl (compile rules).applyByte acc =
      (acc.1 ++ input.flatMap (rewriteByte rules), acc.2 ++ input.filterMap (firstRule rules)) := by
  induction input generalizing acc with
  | nil => simp
  | cons b input ih =>
    rw [List.foldl_cons, ih, applyByte_eq, List.flatMap_cons, List.append_assoc]
    cases h : firstRule rules b with
    | none | some => simp [h]

theorem apply_eq (rules : List Mapping) (input out : List UInt8) :
    (compile rules).apply input out =
      (out ++ input.flatMap (rewriteByte rules), input.filterMap (firstRule rules)) :=
  foldl_applyByte rules input (out, [])

theorem expansion_le {rules : List Mapping} {m : Mapping} (h : m ∈ rules) :
    m.expansion ≤ (compile rules).maxExpansion := by
  have hmem : m.expansion ∈ rules.map Mapping.expansion := List.mem_map_of_mem h
  cases hmax : (rules.map Mapping.expansion).max? with
  | none =>
    rw [List.max?_eq_none_iff] at hmax
    rw [hmax] at hmem
    cases hmem
  | some k =>
    have hk := (List.max?_eq_some_iff.mp hmax).2 _ hmem
    simp only [compile, hmax, Option.getD_some]
    omega

theorem rewriteByte_length (rules : List Mapping) (b : UInt8) :
    (rewriteByte rules b).length ≤ (compile rules).maxExpansion := by
  rw [rewriteByte]
  cases h : rules.find? (·.matches b) with
  | none => exact Nat.le_max_right _ 1
  | some m =>
    rw [Mapping.substitution_length]
    exact expansion_le (List.mem_of_find?_eq_some h)

theorem flatMap_rewriteByte_length (rules : List Mapping) (input : List UInt8) :
    (input.flatMap (rewriteByte rules)).length ≤ (compile rules).maxExpansion * input.length := by
  induction input with
  | nil => simp
  | cons b input ih =>
    have hb := rewriteByte_length rules b
    rw [List.flatMap_cons, List.length_append, List.length_cons, Nat.mul_succ]
    omega

theorem count_filterMap_firstRule (rules : List Mapping) (input : List UInt8) (i : ℕ) :
    (input.filterMap (firstRule rules)).count i =
      input.countP fun b => firstRule rules b = some i := by
  induction input with
  | nil => rfl
  | cons b input ih =>
    rw [List.filterMap_cons, List.countP_cons, ← ih]
    cases h : firstRule rules b with
    | none => simp
    | some j => simp [List.count_cons]

theorem compiled_map_exact (rules : List Mapping) :
    let d := compile rules
    (∀ input out : List UInt8, (d.apply input out).1 = out ++ input.flatMap (rewriteByte rules) ∧
      (d.apply input out).2 = input.filterMap (firstRule rules) ∧
      ∀ i, (d.apply input out).2.count i = input.countP fun b => firstRule rules b = some i) ∧
    (∀ input : List UInt8, (d.apply input []).1.length ≤ d.maxExpansion * input.length) ∧
    ∀ parts : List (List UInt8),
      (d.apply parts.flatten []).1 = (parts.map fun p => (d.apply p []).1).flatten ∧
      ∀ i, (d.apply parts.flatten []).2.count i =
        (parts.map fun p => (d.apply p []).2.count i).sum := by
  refine ⟨fun input out => ?_, fun input => ?_, fun parts => ?_⟩
  · rw [apply_eq]
    exact ⟨rfl, rfl, count_filterMap_firstRule rules input⟩
  · rw [apply_eq]
    exact flatMap_rewriteByte_length rules input
  · simp only [apply_eq, List.nil_append]
    refine ⟨?_, fun i => ?_⟩
    · simp [List.flatMap_def, List.map_flatten, List.flatten_flatten, Function.comp_def]
    · rw [List.filterMap_flatten, List.count_flatten, List.map_map]
      rfl

end MapDirection
end SerialNexus
