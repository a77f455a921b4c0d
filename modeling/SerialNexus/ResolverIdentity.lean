import SerialNexus.Resolver

/-! # Identities as texts

What the resolver relies on when it stores an identity and reads it back: an identity that it makes
is not changed by trimming, is told by its scheme, and has its four fields. -/

namespace SerialNexus

open List PathText

structure Trimmed (s : PathText) : Prop where
  head : ∀ c, s.head? = some c → isWhiteSpace c = false
  last : ∀ c, s.getLast? = some c → isWhiteSpace c = false

variable {s : PathText} {c : Char}

theorem Trimmed.trim_eq (h : Trimmed s) : trim s = s := by
  cases s with
  | nil => rfl
  | cons c s =>
    unfold trim
    rw [dropWhile_cons_of_neg (by simp [h.head c rfl]), rdropWhile_eq_self_iff]
    intro hne
    rw [Bool.not_eq_true]
    exact h.last _ (getLast?_eq_getLast_of_ne_nil hne)

theorem trimmed_trim (s : PathText) : Trimmed (trim s) := by
  have hlast : ∀ c, (trim s).getLast? = some c → isWhiteSpace c = false := by
    intro c hc
    have hne : trim s ≠ [] := by
      rintro hs
      simp [hs] at hc
    have hend := rdropWhile_last_not isWhiteSpace (s.dropWhile isWhiteSpace) hne
    rw [getLast?_eq_getLast_of_ne_nil hne] at hc
    cases hc
    exact Bool.not_eq_true _ ▸ hend
  refine ⟨fun c hc => ?_, hlast⟩
  have hpre : trim s <+: s.dropWhile isWhiteSpace := rdropWhile_prefix _ _
  obtain ⟨rest, hrest⟩ := hpre
  have hstart : (s.dropWhile isWhiteSpace).head? = some c := by
    rw [← hrest, head?_append, hc]
    rfl
  have hnot := head?_dropWhile_not isWhiteSpace s
  rw [hstart] at hnot
  exact hnot

theorem trimmed_iff : Trimmed s ↔ trim s = s := ⟨Trimmed.trim_eq, fun h => h ▸ trimmed_trim s⟩

theorem Trimmed.append {a b : PathText} (ha : a ≠ []) (hb : b ≠ [])
    (hhead : ∀ c, a.head? = some c → isWhiteSpace c = false)
    (hlast : ∀ c, b.getLast? = some c → isWhiteSpace c = false) : Trimmed (a ++ b) where
  head c hc := by
    rw [head?_append_of_ne_nil _ ha] at hc
    exact hhead c hc
  last c hc := by
    rw [getLast?_append_of_ne_nil _ hb] at hc
    exact hlast c hc

/-! ### Schemes -/

theorem stripScheme_append (scheme rest : PathText) :
    stripScheme scheme (scheme ++ rest) = some rest := by
  rw [stripScheme, if_pos (by simp), drop_left]

theorem stripScheme_of_head {scheme : PathText} (hc : scheme.head? = some c)
    (hs : s.head? ≠ some c) : stripScheme scheme s = none := by
  unfold stripScheme
  rw [if_neg]
  intro h
  obtain ⟨rest, rfl⟩ := isPrefixOf_iff_prefix.mp h
  apply hs
  rw [head?_append, hc]
  rfl

theorem head_usbScheme (rest : PathText) : (usbScheme ++ rest).head? = some 'u' := rfl

theorem head_byPathScheme (rest : PathText) : (byPathScheme ++ rest).head? = some 'b' := rfl

theorem head_rawScheme (rest : PathText) : (rawScheme ++ rest).head? = some 'r' := rfl

theorem stripScheme_usb_byPath (rest : PathText) :
    stripScheme usbScheme (byPathScheme ++ rest) = none :=
  stripScheme_of_head (head_usbScheme []) (by rw [head_byPathScheme]; decide)

theorem stripScheme_usb_raw (rest : PathText) : stripScheme usbScheme (rawScheme ++ rest) = none :=
  stripScheme_of_head (head_usbScheme []) (by rw [head_rawScheme]; decide)

theorem stripScheme_byPath_raw (rest : PathText) :
    stripScheme byPathScheme (rawScheme ++ rest) = none :=
  stripScheme_of_head (head_byPathScheme []) (by rw [head_rawScheme]; decide)

theorem ne_nil_of_head (h : s.head? = some c) : s ≠ [] := by
  rintro rfl
  cases h

/-! ### Fields -/

structure IsField (f : PathText) : Prop where
  nonempty : f ≠ []
  trimmed : Trimmed f
  noColon : ':' ∉ f

theorem trimmed_usbIdentity (vid pid serial : PathText) {iface : PathText} (hiface : IsField iface) :
    Trimmed (usbIdentity vid pid serial iface) := by
  have hshape : usbIdentity vid pid serial iface =
      (usbScheme ++ vid ++ ':' :: pid ++ ':' :: serial ++ [':']) ++ iface := by
    simp [usbIdentity, List.intercalate, List.intersperse]
  rw [hshape]
  refine .append (by simp) hiface.nonempty ?_ hiface.trimmed.last
  intro c hc
  cases hc
  rfl

section fields
variable {vid pid serial iface : PathText} (hvid : IsField vid) (hpid : IsField pid)
  (hserial : IsField serial) (hiface : IsField iface)
include hvid hpid hserial hiface

theorem splitOn_usbIdentity : (([':'] : PathText).intercalate [vid, pid, serial, iface]).splitOn ':' =
    [vid, pid, serial, iface] := by
  refine splitOn_intercalate ':' ?_ (by simp)
  intro f hf
  simp only [mem_cons, not_mem_nil, or_false] at hf
  rcases hf with rfl | rfl | rfl | rfl
  · exact hvid.noColon
  · exact hpid.noColon
  · exact hserial.noColon
  · exact hiface.noColon

end fields

def IsUsbIdentity (identity : PathText) : Prop :=
  ∃ vid pid serial iface, IsField vid ∧ IsField pid ∧ IsField serial ∧ IsField iface ∧
    identity = usbIdentity vid pid serial iface

theorem isField_absentMark : IsField absentMark where
  nonempty := by simp [absentMark]
  trimmed := trimmed_iff.mpr (by decide)
  noColon := by decide

variable {fs : FileSystem} {cur : List PathText} {interface : Option PathText} {info : UsbInfo}

/-! ### Sysfs -/

theorem readField_spec {name : String} {f : PathText} (h : readField fs cur name = some f) :
    f ≠ [] ∧ Trimmed f := by
  unfold readField readTrimmed at h
  obtain ⟨hread, hne⟩ := Option.filter_eq_some_iff.mp h
  obtain ⟨content, -, rfl⟩ := Option.map_eq_some_iff.mp hread
  exact ⟨by simpa using hne, trimmed_trim content⟩

theorem usbInfoAt_spec (hi : ∀ f, interface = some f → f ≠ [] ∧ Trimmed f)
    (h : usbInfoAt fs cur interface = some info) : IsUsbIdentity info.identity := by
  have hmark : absentMark ≠ [] ∧ Trimmed absentMark :=
    ⟨isField_absentMark.nonempty, isField_absentMark.trimmed⟩
  have hgetD : ∀ o : Option PathText, (∀ f, o = some f → f ≠ [] ∧ Trimmed f) →
      o.getD absentMark ≠ [] ∧ Trimmed (o.getD absentMark) := by
    intro o ho
    cases o with
    | none => exact hmark
    | some f => exact ho f rfl
  unfold usbInfoAt at h
  split at h
  · next vid pid hvid hpid =>
    dsimp only at h
    split at h
    · cases h
    · next hcolon =>
      cases h
      simp only [any_cons, any_nil, contains_eq_mem, Bool.or_false,
        Bool.or_eq_true, decide_eq_true_eq, not_or] at hcolon
      have hs := hgetD (readField fs cur "serial") fun f => readField_spec
      have hif := hgetD interface hi
      exact ⟨vid, pid, _, _, ⟨(readField_spec hvid).1, (readField_spec hvid).2, hcolon.1⟩,
        ⟨(readField_spec hpid).1, (readField_spec hpid).2, hcolon.2.1⟩,
        ⟨hs.1, hs.2, hcolon.2.2.1⟩, ⟨hif.1, hif.2, hcolon.2.2.2⟩, rfl⟩
  · cases h

theorem sysfsWalk_spec {guard : List Component} {steps : ℕ}
    (hi : ∀ f, interface = some f → f ≠ [] ∧ Trimmed f)
    (h : sysfsWalk fs guard steps cur interface = some info) : IsUsbIdentity info.identity := by
  induction steps generalizing cur interface with
  | zero => cases h
  | succ steps ih =>
    unfold sysfsWalk at h
    have hnext : ∀ f, (if interface.isNone then readField fs cur "bInterfaceNumber"
        else interface) = some f → f ≠ [] ∧ Trimmed f := by
      intro f hf
      split at hf
      · exact readField_spec hf
      · exact hi f hf
    dsimp only at h
    split at h
    · exact usbInfoAt_spec hnext h
    · split at h
      · exact ih hnext h
      · cases h

theorem Resolver.sysfsLookup_spec {r : Resolver} {devName : PathText}
    (h : r.sysfsLookup fs devName = some info) :
    (∃ start, fs.canonicalize (join (join r.ttyDir devName) "device".toList) = some start) ∧
      IsUsbIdentity info.identity := by
  unfold Resolver.sysfsLookup at h
  split at h
  · cases h
  · next start hstart => exact ⟨⟨start, hstart⟩, sysfsWalk_spec (fun f hf => by cases hf) h⟩

end SerialNexus
