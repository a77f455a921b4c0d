import SerialNexus.ConfigValid

/-! # Where a leg's address leads

The configuration accepts a TCP address without `insecure_bind` if `is_loopback_addr`
(`core/src/config.rs`) finds its host to be loopback.  The leg gives the same text to
`TcpListener::bind` or `TcpStream::connect`, which read it by rules of their own (`dial`). -/

namespace SerialNexus

open List

def isOctet (s : List Char) : Bool :=
  s ≠ [] && s.all Char.isDigit && s.length ≤ 3 && (s.length = 1 || s.head? ≠ some '0') &&
    Nat.ofDigitChars 10 s 0 < 256

def v4Octets (s : List Char) : Option (List ℕ) :=
  let parts := s.splitOn '.'
  if parts.length = 4 ∧ parts.all isOctet then some (parts.map (Nat.ofDigitChars 10 · 0)) else none

def hexDigit (c : Char) : Option ℕ :=
  if c.isDigit then some (c.toNat - '0'.toNat)
  else if 'a' ≤ c ∧ c ≤ 'f' then some (c.toNat - 'a'.toNat + 10)
  else if 'A' ≤ c ∧ c ≤ 'F' then some (c.toNat - 'A'.toNat + 10)
  else none

def isGroup (s : List Char) : Bool := s ≠ [] && s.length ≤ 4 && s.all fun c => (hexDigit c).isSome

def groupValue (s : List Char) : ℕ := s.foldl (fun n c => 16 * n + (hexDigit c).getD 0) 0

def groups (atEnd : Bool) (s : List Char) : Option (List ℕ) :=
  let parts := s.splitOn ':'
  if s = [] then some []
  else if parts.all isGroup then some (parts.map groupValue)
  else match atEnd, v4Octets (parts.getLast?.getD []) with
    | true, some [a, b, c, d] =>
      if parts.dropLast.all isGroup then
        some (parts.dropLast.map groupValue ++ [256 * a + b, 256 * c + d])
      else none
    | _, _ => none

def v6Groups (s : List Char) : Option (List ℕ) :=
  match splitOnceAt "::".toList s with
  | none => (groups true s).filter (·.length = 8)
  | some (head, tail) =>
    match groups false head, groups true tail with
    | some hs, some ts =>
      if hs.length + ts.length < 8 then
        some (hs ++ List.replicate (8 - hs.length - ts.length) 0 ++ ts)
      else none
    | _, _ => none

def v6Loopback : List ℕ := [0, 0, 0, 0, 0, 0, 0, 1]

def ipLoopback (s : String) : Option Bool :=
  match v6Groups s.toList with
  | some gs => some (gs = v6Loopback)
  | none => (v4Octets s.toList).map fun octets => octets.head? = some 127

def isDecimal (size : ℕ) (s : List Char) : Bool :=
  s ≠ [] && s.all Char.isDigit && Nat.ofDigitChars 10 s 0 < size

def socketAddr (s : String) : Option Bool :=
  match s.toList with
  | '[' :: rest =>
    match splitOnce ']' (.ofList rest) with
    | none => none
    | some (inner, tail) =>
      let (ip, scopeOk) := match splitOnce '%' inner with
        | some (ip, scope) => (ip, isDecimal (2 ^ 32) scope.toList)
        | none => (inner, true)
      if tail.toList.head? = some ':' ∧ isDecimal (2 ^ 16) tail.toList.tail ∧ scopeOk then
        (v6Groups ip.toList).map (· = v6Loopback)
      else none
  | _ =>
    match rsplitOnce ':' s with
    | none => none
    | some (host, port) =>
      if isDecimal (2 ^ 16) port.toList then
        (v4Octets host.toList).map fun octets => octets.head? = some 127
      else none

inductive Dialled where
  | ip (loopback : Bool)
  | host (name : String) (port : ℕ)
  | invalid
deriving DecidableEq

def dial (address : String) : Dialled :=
  match socketAddr address with
  | some loopback => .ip loopback
  | none =>
    match rsplitOnce ':' address with
    | none => .invalid
    | some (host, port) =>
      match parseU16 port with
      | some n => .host host n
      | none => .invalid

def Dialled.Local : Dialled → Prop
  | .ip loopback => loopback = true
  | .host name _ => ipLoopback name = some true ∨ eqIgnoreAsciiCase name "localhost" = true
  | .invalid => True

instance : DecidablePred Dialled.Local
  | .ip loopback => inferInstanceAs (Decidable (loopback = true))
  | .host _ _ => inferInstanceAs (Decidable (_ ∨ _))
  | .invalid => .isTrue trivial

variable {sep s x y part rest : List Char} {c : Char} {atEnd : Bool} {gs : List ℕ}
  {address host : String}

theorem exists_mem_splitOn {sep : Char} (hc : c ≠ sep) (h : c ∈ s) :
    ∃ part ∈ s.splitOn sep, c ∈ part := by
  induction s with
  | nil => cases h
  | cons d s ih =>
    obtain ⟨head, tail, hs⟩ := exists_cons_of_ne_nil (splitOn_ne_nil sep s)
    rw [splitOn_cons_eq_if_modifyHead]
    rw [hs] at ih ⊢
    rcases mem_cons.mp h with rfl | h
    · exact ⟨c :: head, by simp [hc], mem_cons_self⟩
    · obtain ⟨part, hpart, hcp⟩ := ih h
      split_ifs
      · exact ⟨part, mem_cons_of_mem _ hpart, hcp⟩
      · rcases mem_cons.mp hpart with rfl | hpart
        · exact ⟨d :: part, mem_cons_self, mem_cons_of_mem _ hcp⟩
        · exact ⟨part, mem_cons_of_mem _ hpart, hcp⟩

theorem length_splitOn (sep : Char) (s : List Char) : (s.splitOn sep).length = s.count sep + 1 := by
  induction s with
  | nil => simp
  | cons c s ih =>
    rw [splitOn_cons_eq_if_modifyHead, count_cons]
    split_ifs <;> simp [ih]

theorem splitOnceAt_eq_some (h : splitOnceAt sep s = some (x, y)) : s = x ++ sep ++ y := by
  induction s generalizing x with
  | nil => cases h
  | cons c s ih =>
    rw [splitOnceAt] at h
    split_ifs at h with hp
    · obtain ⟨rest, hrest⟩ := isPrefixOf_iff_prefix.mp hp
      rw [← hrest] at h ⊢
      cases h
      simp
    · obtain ⟨⟨x', y'⟩, hs, he⟩ := Option.map_eq_some_iff.mp h
      cases he
      rw [ih hs]
      rfl

def isIpChar (c : Char) : Bool := (hexDigit c).isSome || c = ':' || c = '.'

theorem mem_of_v4Octets {octets : List ℕ} (h : v4Octets s = some octets) (hc : c ∈ s) :
    c.isDigit = true ∨ c = '.' := by
  unfold v4Octets at h
  dsimp only at h
  split_ifs at h with hparts
  by_cases hdot : c = '.'
  · exact .inr hdot
  · obtain ⟨part, hpart, hcp⟩ := exists_mem_splitOn hdot hc
    have hall := all_eq_true.mp hparts.2 part hpart
    simp only [isOctet, Bool.and_eq_true, all_eq_true] at hall
    exact .inl (hall.1.1.1.2 c hcp)

theorem isIpChar_of_octets {octets : List ℕ} (h : v4Octets s = some octets) (hc : c ∈ s) :
    isIpChar c = true := by
  rcases mem_of_v4Octets h hc with hd | rfl
  · simp [isIpChar, hexDigit, hd]
  · decide

theorem v4Octets_of_colon (h : ':' ∈ s) : v4Octets s = none := by
  by_contra hne
  obtain ⟨octets, ho⟩ := Option.ne_none_iff_exists'.mp hne
  rcases mem_of_v4Octets ho h with hd | hd <;> exact absurd hd (by decide)

theorem isIpChar_of_isGroup {parts : List (List Char)} (h : parts.all isGroup = true)
    (hpart : part ∈ parts) (hc : c ∈ part) : isIpChar c = true := by
  have hall := all_eq_true.mp h part hpart
  simp only [isGroup, Bool.and_eq_true, all_eq_true] at hall
  simp [isIpChar, hall.2 c hc]

theorem groups_eq_some (h : groups atEnd s = some gs) :
    s = [] ∧ gs = [] ∨ (s.splitOn ':').all isGroup = true ∧ gs = (s.splitOn ':').map groupValue ∨
      ∃ octets a b, v4Octets ((s.splitOn ':').getLast (splitOn_ne_nil _ _)) = some octets ∧
        (s.splitOn ':').dropLast.all isGroup = true ∧
        gs = (s.splitOn ':').dropLast.map groupValue ++ [a, b] := by
  unfold groups at h
  dsimp only at h
  rw [getLast?_eq_some_getLast (splitOn_ne_nil _ _), Option.getD_some] at h
  split_ifs at h with hnil hall hinit
  · exact .inl ⟨hnil, (Option.some.inj h).symm⟩
  · exact .inr (.inl ⟨hall, (Option.some.inj h).symm⟩)
  · split at h
    · next ho => exact .inr (.inr ⟨_, _, _, ho, hinit, (Option.some.inj h).symm⟩)
    · cases h
  · split at h <;> cases h

theorem isIpChar_of_groups (h : groups atEnd s = some gs) (hc : c ∈ s) : isIpChar c = true := by
  by_cases hcolon : c = ':'
  · simp [isIpChar, hcolon]
  obtain ⟨part, hpart, hcp⟩ := exists_mem_splitOn hcolon hc
  rcases groups_eq_some h with ⟨rfl, -⟩ | ⟨hall, -⟩ | ⟨octets, _, _, ho, hinit, -⟩
  · cases hc
  · exact isIpChar_of_isGroup hall hpart hcp
  · rw [← dropLast_append_getLast (splitOn_ne_nil ':' s), mem_append, mem_singleton] at hpart
    rcases hpart with hpart | rfl
    · exact isIpChar_of_isGroup hinit hpart hcp
    · exact isIpChar_of_octets ho hcp

theorem isIpChar_of_v6Groups (h : v6Groups s = some gs) (hc : c ∈ s) : isIpChar c = true := by
  unfold v6Groups at h
  split at h
  · exact isIpChar_of_groups (Option.filter_eq_some_iff.mp h).1 hc
  · next head tail hsplit =>
    split at h
    · next hs ts hhead htail =>
      rw [splitOnceAt_eq_some hsplit, mem_append, mem_append] at hc
      rcases hc with (hc | hc) | hc
      · exact isIpChar_of_groups hhead hc
      · obtain rfl : c = ':' := by simpa using hc
        decide
      · exact isIpChar_of_groups htail hc
    · cases h

theorem isIpChar_of_ipLoopback {s : String} {b : Bool} (h : ipLoopback s = some b)
    (hc : c ∈ s.toList) : isIpChar c = true := by
  unfold ipLoopback at h
  split at h
  · next gs hgs => exact isIpChar_of_v6Groups hgs hc
  · obtain ⟨octets, ho, -⟩ := Option.map_eq_some_iff.mp h
    exact isIpChar_of_octets ho hc

theorem v6Groups_eq_none (h : s.count ':' ≤ 1) : v6Groups s = none := by
  have hsplit : splitOnceAt "::".toList s = none := by
    by_contra hne
    obtain ⟨⟨x, y⟩, he⟩ := Option.ne_none_iff_exists'.mp hne
    rw [splitOnceAt_eq_some he, count_append, count_append,
      show "::".toList.count ':' = 2 from rfl] at h
    omega
  have hlen := length_splitOn ':' s
  rw [v6Groups, hsplit]
  refine Option.filter_eq_none_iff.mpr fun gs hgs => ?_
  rcases groups_eq_some hgs with ⟨-, rfl⟩ | ⟨-, rfl⟩ | ⟨_, _, _, -, -, rfl⟩
  · simp
  · simp only [length_map, decide_eq_true_eq]
    omega
  · simp only [length_append, length_map, length_dropLast, length_cons,
      length_nil, decide_eq_true_eq]
    omega

theorem ipLoopback_of_colon {s : String} (h : ':' ∈ s.toList) :
    ipLoopback s = (v6Groups s.toList).map fun gs => decide (gs = v6Loopback) := by
  rw [ipLoopback, v4Octets_of_colon h]
  cases v6Groups s.toList <;> rfl

theorem ipLoopback_of_no_colon {s : String} (h : ':' ∉ s.toList) :
    ipLoopback s = (v4Octets s.toList).map fun octets => decide (octets.head? = some 127) := by
  rw [ipLoopback, v6Groups_eq_none (by rw [count_eq_zero_of_not_mem h]; exact zero_le_one)]

theorem splitOnceAt_append {sep s x y : List Char} (h : splitOnceAt sep s = some (x, y))
    (rest : List Char) : splitOnceAt sep (s ++ rest) = some (x, y ++ rest) := by
  induction s generalizing x with
  | nil => cases h
  | cons c s ih =>
    have hlen : sep.length ≤ (c :: s).length := by
      rw [splitOnceAt_eq_some h]
      simp only [length_append]
      omega
    have hiff : sep.isPrefixOf (c :: (s ++ rest)) = sep.isPrefixOf (c :: s) := by
      rw [Bool.eq_iff_iff, isPrefixOf_iff_prefix, isPrefixOf_iff_prefix]
      exact ⟨fun hp => prefix_of_prefix_length_le hp ⟨rest, rfl⟩ hlen,
        fun hp => hp.trans ⟨rest, rfl⟩⟩
    rw [splitOnceAt] at h
    rw [cons_append, splitOnceAt, hiff]
    split_ifs at h ⊢ with hp
    · cases h
      rw [← cons_append, drop_append_of_le_length hlen]
    · obtain ⟨⟨x', y'⟩, hs, he⟩ := Option.map_eq_some_iff.mp h
      cases he
      rw [ih hs]
      rfl

theorem splitOnceAt_eq_none (h : splitOnceAt "::".toList s = none) (hs : s.getLast? ≠ some ':')
    (hpart : ':' ∉ part) : splitOnceAt "::".toList (s ++ ':' :: part) = none := by
  have hnone : splitOnceAt "::".toList part = none := by
    by_contra hne
    obtain ⟨⟨x, y⟩, he⟩ := Option.ne_none_iff_exists'.mp hne
    exact hpart (splitOnceAt_eq_some he ▸ by simp)
  induction s with
  | nil =>
    have hp : ¬ "::".toList.isPrefixOf (':' :: part) = true := fun hp => by
      obtain ⟨rest, hrest⟩ := isPrefixOf_iff_prefix.mp hp
      exact hpart ((List.cons.inj hrest).2 ▸ mem_cons_self)
    rw [nil_append, splitOnceAt, if_neg hp, hnone]
    rfl
  | cons c s ih =>
    rw [splitOnceAt] at h
    split_ifs at h with hp
    have htail := Option.map_eq_none_iff.mp h
    cases s with
    | nil =>
      have hc : c ≠ ':' := fun hc => hs (by simp [hc])
      have hp' : ¬ "::".toList.isPrefixOf (c :: ':' :: part) = true := fun hp' => by
        obtain ⟨rest, hrest⟩ := isPrefixOf_iff_prefix.mp hp'
        exact hc (List.cons.inj hrest).1.symm
      rw [cons_append, splitOnceAt, nil_append, if_neg hp']
      exact Option.map_eq_none_iff.mpr (ih htail (by simp))
    | cons d s =>
      rw [getLast?_cons_cons] at hs
      have hp' : ¬ "::".toList.isPrefixOf (c :: (d :: s ++ ':' :: part)) = true := by
        simpa using hp
      rw [cons_append, splitOnceAt, if_neg hp']
      exact Option.map_eq_none_iff.mpr (ih htail hs)

theorem groups_of_isGroup (h : (s.splitOn ':').all isGroup = true) (atEnd : Bool) :
    groups atEnd s = some ((s.splitOn ':').map groupValue) := by
  have hne : s ≠ [] := by
    rintro rfl
    simp [isGroup] at h
  unfold groups
  dsimp only
  rw [if_neg hne, if_pos h]

theorem groups_append (hdigits : part.all Char.isDigit = true)
    (h : groups atEnd (s ++ ':' :: part) = some gs) :
    (s.splitOn ':').all isGroup = true ∧ isGroup part = true ∧
      gs = (s.splitOn ':').map groupValue ++ [groupValue part] := by
  have hcolon : ':' ∉ part := fun hc => absurd (all_eq_true.mp hdigits _ hc) (by decide)
  have hdot : '.' ∉ part := fun hc => absurd (all_eq_true.mp hdigits _ hc) (by decide)
  have hsplit : (s ++ ':' :: part).splitOn ':' = s.splitOn ':' ++ [part] := by
    rw [splitOn_append_cons_self, splitOn_eq_singleton hcolon]
  rcases groups_eq_some h with ⟨hnil, -⟩ | ⟨hall, rfl⟩ | ⟨octets, _, _, ho, -, -⟩
  · simp at hnil
  · rw [hsplit, all_append, Bool.and_eq_true] at hall
    exact ⟨hall.1, by simpa using hall.2, by rw [hsplit, map_append]; rfl⟩
  · simp only [hsplit, getLast_append_singleton] at ho
    simp [v4Octets, splitOn_eq_singleton hdot] at ho

theorem v6Loopback_before_last (hdigits : part.all Char.isDigit = true)
    (h : v6Groups (s ++ ':' :: part) = some v6Loopback) : v6Groups s ≠ some v6Loopback := by
  intro hs
  have hcolon : ':' ∉ part := fun hc => absurd (all_eq_true.mp hdigits _ hc) (by decide)
  unfold v6Groups at hs
  split at hs
  · -- no `::` before the last group: one group too many
    next hnone =>
      obtain ⟨hgs, hlen⟩ := Option.filter_eq_some_iff.mp hs
      have hlast : s.getLast? ≠ some ':' := fun hl => by
        obtain ⟨init, rfl⟩ := getLast?_eq_some_iff.mp hl
        simpa [isGroup] using (groups_append rfl hgs).2.1
      rw [v6Groups, splitOnceAt_eq_none hnone hlast hcolon] at h
      obtain ⟨hall, -, hval⟩ := groups_append hdigits (Option.filter_eq_some_iff.mp h).1
      rw [groups_of_isGroup hall, Option.some.injEq] at hgs
      have hlen := congrArg List.length hval
      rw [hgs, length_append] at hlen
      simp at hlen
  · next x y hsplit =>
    rw [v6Groups, splitOnceAt_append hsplit] at h
    dsimp only at h
    split at h
    · next gx gy hx hy =>
      obtain ⟨hall, -, rfl⟩ := groups_append hdigits hy
      rw [hx, groups_of_isGroup hall] at hs
      dsimp only at hs
      split_ifs at h hs
      -- the last group before the cut is 1 by one literal and 0 by the other
      have hne : (y.splitOn ':').map groupValue ≠ [] := by simp [splitOn_ne_nil]
      rw [← dropLast_append_getLast hne] at h hs
      have hone := congrArg (·.getLast?) (Option.some.inj hs)
      have hzero := congrArg (·.dropLast.getLast?) (Option.some.inj h)
      simp only [← append_assoc, getLast?_concat, dropLast_concat] at hone hzero
      exact absurd (hone.symm.trans hzero) (by decide)
    · cases h

/-! ### The gate -/

def NamesLoopback (host : String) : Prop :=
  ipLoopback host = some true ∨ ipLoopback host = none ∧ eqIgnoreAsciiCase host "localhost" = true

theorem namesLoopback_iff :
    (match ipLoopback host with
      | some loopback => loopback
      | none => eqIgnoreAsciiCase host "localhost") = true ↔ NamesLoopback host := by
  unfold NamesLoopback
  cases ipLoopback host <;> simp

theorem isLoopbackAddr_bracketed
    (h : address.toList = '[' :: rest) (hloop : isLoopbackAddr ipLoopback address = true)
    {inner tail : String} (hsplit : splitOnce ']' (.ofList rest) = some (inner, tail)) :
    NamesLoopback inner := by
  simp only [isLoopbackAddr, h, hsplit] at hloop
  exact namesLoopback_iff.mp hloop

theorem isLoopbackAddr_plain (h : ∀ rest, address.toList ≠ '[' :: rest)
    (hloop : isLoopbackAddr ipLoopback address = true) :
    ipLoopback address = some true ∨ ipLoopback address = none ∧
      NamesLoopback (((rsplitOnce ':' address).map Prod.fst).getD address) := by
  unfold isLoopbackAddr at hloop
  split at hloop
  · next rest hrest => exact absurd hrest (h rest)
  cases hip : ipLoopback address with
  | some loopback => exact .inl (by simpa [hip] using hloop)
  | none =>
    simp only [hip] at hloop
    exact .inr ⟨rfl, namesLoopback_iff.mp hloop⟩

theorem toLower_mem_of_localhost (h : eqIgnoreAsciiCase host "localhost" = true)
    (hc : c ∈ host.toList) : c.toLower ∈ "localhost".toList := by
  have hmap : host.toList.map Char.toLower = "localhost".toList := of_decide_eq_true h
  exact hmap ▸ mem_map_of_mem hc

theorem not_localhost_of_isIpChar (h : ∀ c ∈ host.toList, isIpChar c = true) :
    ¬ eqIgnoreAsciiCase host "localhost" = true := by
  intro hl
  have hmap : host.toList.map Char.toLower = "localhost".toList := of_decide_eq_true hl
  obtain ⟨c, hc, hlow⟩ := mem_map.mp (hmap ▸ (by decide : 'l' ∈ "localhost".toList))
  have hip := h c hc
  have hcase : c = 'l' ∨ c = 'L' := by
    unfold Char.toLower at hlow
    split at hlow
    · next hup =>
      refine .inr (Char.ext (UInt32.toNat.inj ?_))
      have hval : (c.val + 32).toNat = 108 := congrArg (fun d : Char => d.val.toNat) hlow
      have hhigh : c.val.toNat ≤ 90 := hup.2
      rw [UInt32.toNat_add, Nat.mod_eq_of_lt (by change _ + 32 < 2 ^ 32; omega)] at hval
      change c.val.toNat + 32 = 108 at hval
      change c.val.toNat = 76
      omega
    · exact .inl hlow
  rcases hcase with rfl | rfl <;> exact absurd hip (by decide)

theorem socketAddr_loopback {loopback : Bool} (hloop : isLoopbackAddr ipLoopback address = true)
    (h : socketAddr address = some loopback) : loopback = true := by
  unfold socketAddr at h
  split at h
  · next rest hrest =>
    split at h
    · cases h
    · next inner tail hsplit =>
      have hnames := isLoopbackAddr_bracketed hrest hloop hsplit
      have hscope : splitOnce '%' inner = none := by
        refine splitOnce_eq_none.mpr fun hmem => ?_
        rcases hnames with hip | ⟨-, hl⟩
        · exact absurd (isIpChar_of_ipLoopback hip hmem) (by decide)
        · exact absurd (toLower_mem_of_localhost hl hmem) (by decide)
      simp only [hscope] at h
      split_ifs at h
      obtain ⟨gs, hgs, rfl⟩ := Option.map_eq_some_iff.mp h
      simpa [NamesLoopback, ipLoopback, hgs] using hnames
  · next hplain =>
    split at h
    · cases h
    · next host port hsplit =>
      split_ifs at h
      obtain ⟨octets, ho, rfl⟩ := Option.map_eq_some_iff.mp h
      have hcolon : ':' ∉ host.toList := fun hc => by simp [v4Octets_of_colon hc] at ho
      obtain ⟨heq, hport⟩ := rsplitOnce_eq_some.mp hsplit
      have hone : address.toList.count ':' = 1 := by
        rw [heq, count_append, count_cons_self, count_eq_zero_of_not_mem hcolon,
          count_eq_zero_of_not_mem hport]
      rcases isLoopbackAddr_plain hplain hloop with hip | ⟨-, hnames⟩
      · -- an address with a single colon is no IP literal
        rw [ipLoopback_of_colon (by simp [heq]), v6Groups_eq_none hone.le] at hip
        cases hip
      · rw [hsplit] at hnames
        simpa [NamesLoopback, ipLoopback_of_no_colon hcolon, ho] using hnames

theorem not_local_before_last {port : String} {n : ℕ} (hip : ipLoopback address = some true)
    (hsplit : rsplitOnce ':' address = some (host, port)) (hport : parseU16 port = some n) :
    ¬ (Dialled.host host n).Local := by
  obtain ⟨heq, hcolon⟩ := rsplitOnce_eq_some.mp hsplit
  have hchar : ∀ c ∈ address.toList, isIpChar c = true := fun c hc => isIpChar_of_ipLoopback hip hc
  have hdigits : port.toList.all Char.isDigit = true := by
    have hplus : port.toList.head? ≠ some '+' := fun h =>
      absurd (hchar '+' (by simp [heq, mem_of_mem_head? h])) (by decide)
    unfold parseU16 at hport
    rw [if_neg hplus] at hport
    dsimp only at hport
    split_ifs at hport with hd
    exact hd.2.1
  have hv6 : v6Groups address.toList = some v6Loopback := by
    simpa [ipLoopback_of_colon (s := address) (by simp [heq])] using hip
  rintro (hhost | hlocal)
  · by_cases hmem : ':' ∈ host.toList
    · exact v6Loopback_before_last hdigits (heq ▸ hv6) (by
        simpa [ipLoopback_of_colon hmem] using hhost)
    · rw [v6Groups_eq_none (by rw [heq, count_append, count_cons_self,
        count_eq_zero_of_not_mem hmem, count_eq_zero_of_not_mem hcolon])] at hv6
      cases hv6
  · exact not_localhost_of_isIpChar (fun c hc => hchar c (by simp [heq, hc])) hlocal

theorem not_local_bracketed (h : host.toList = '[' :: rest) (n : ℕ) :
    ¬ (Dialled.host host n).Local := by
  have hmem : '[' ∈ host.toList := by simp [h]
  rintro (hip | hlocal)
  · exact absurd (isIpChar_of_ipLoopback hip hmem) (by decide)
  · exact absurd (toLower_mem_of_localhost hlocal hmem) (by decide)

def ReadAlike (address : String) : Prop :=
  (socketAddr address).isSome = true ∨
    (∀ host port, rsplitOnce ':' address = some (host, port) → parseU16 port = none) ∨
    address.toList.head? ≠ some '[' ∧ ipLoopback address = none

theorem dial_local_iff (hloop : isLoopbackAddr ipLoopback address = true) :
    (dial address).Local ↔ ReadAlike address := by
  cases hs : socketAddr address with
  | some loopback =>
    rw [dial, hs, ReadAlike, hs]
    exact iff_of_true (socketAddr_loopback hloop hs) (.inl rfl)
  | none =>
    cases hsplit : rsplitOnce ':' address with
    | none =>
      rw [dial, hs, hsplit, ReadAlike, hsplit]
      exact iff_of_true trivial (.inr (.inl nofun))
    | some parts =>
      obtain ⟨host, port⟩ := parts
      cases hport : parseU16 port with
      | none =>
        have hdial : dial address = .invalid := by rw [dial, hs, hsplit]; simp only [hport]
        rw [hdial]
        refine iff_of_true trivial (.inr (.inl fun h p he => ?_))
        cases hsplit.symm.trans he
        exact hport
      | some n =>
        have hdial : dial address = .host host n := by rw [dial, hs, hsplit]; simp only [hport]
        have hread : ReadAlike address ↔
            address.toList.head? ≠ some '[' ∧ ipLoopback address = none := by
          refine ⟨fun h => ?_, fun h => .inr (.inr h)⟩
          rcases h with h | h | h
          · simp [hs] at h
          · simp [h host port hsplit] at hport
          · exact h
        rw [hdial, hread]
        by_cases hb : ∃ rest, address.toList = '[' :: rest
        · obtain ⟨rest, hrest⟩ := hb
          obtain ⟨t, ht⟩ : ∃ t, host.toList = '[' :: t := by
            have heq := (rsplitOnce_eq_some.mp hsplit).1
            rw [hrest] at heq
            cases hh : host.toList with
            | nil => simp [hh] at heq
            | cons c t => exact ⟨t, by rw [hh] at heq; rw [(List.cons.inj heq).1]⟩
          exact iff_of_false (not_local_bracketed ht n) fun h => h.1 (by rw [hrest]; rfl)
        · push Not at hb
          rcases isLoopbackAddr_plain hb hloop with hip | ⟨hip, hnames⟩
          · exact iff_of_false (not_local_before_last hip hsplit hport) fun h => by
              simp [hip] at h
          · rw [hsplit] at hnames
            refine iff_of_true (hnames.imp id And.right) ⟨fun h => ?_, hip⟩
            obtain ⟨t, ht⟩ := head?_eq_some_iff.mp h
            exact hb t ht

theorem loopback_gate_iff {c : GraphConfig} (hc : c.validate ipLoopback = []) {l : LegConfig}
    (hl : NodeConfig.leg l ∈ c.nodes) (htcp : l.transport = .tcp) (hbind : l.insecureBind = false) :
    (dial l.address).Local ↔ ReadAlike l.address := by
  have herrors := ((GraphConfig.validate_eq_nil_iff ipLoopback).mp hc).fields _ hl
  refine dial_local_iff ?_
  by_contra hloop
  simp [NodeConfig.errors, htcp, hbind, hloop] at herrors

def loneLeg (address : String) : GraphConfig where
  nodes := [.leg { name := "uplink", faces := .target, address, channels := ["console"] }]
  edges := []

theorem loopback_gate_localhost : (dial "LocalHost:7000").Local ↔ ReadAlike "LocalHost:7000" :=
  loopback_gate_iff (show (loneLeg "LocalHost:7000").validate ipLoopback = [] by decide +kernel)
    mem_cons_self rfl rfl

theorem loopback_literal_binds_wildcard :
    (loneLeg "::0:1").validate ipLoopback = [] ∧ dial "::0:1" = .host "::0" 1 ∧
      ipLoopback "::0" = some false ∧ ¬ (dial "::0:1").Local := by
  decide +kernel

end SerialNexus
