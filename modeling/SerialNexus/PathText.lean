import Mathlib.Tactic

/-! # Path texts

A path is a text.  The system reads it as the parts between slashes (`parts`); a program reads it as
its `components`, in which empty parts and `.` leave no trace.  `join` appends one path to another,
and an absolute one replaces it. -/

abbrev PathText := List Char

namespace PathText

open List

def isAbsolute (p : PathText) : Bool := p.head? = some '/'

def join (p q : PathText) : PathText :=
  if isAbsolute q then q
  else if p = [] ∨ p.getLast? = some '/' then p ++ q
  else p ++ '/' :: q

def parts (p : PathText) : List PathText := p.splitOn '/'

def isStay (part : PathText) : Bool := part = [] ∨ part = ['.']

inductive Component where
  | root
  | current
  | parent
  | normal (name : PathText)
deriving DecidableEq

namespace Component

def ofPart (part : PathText) : Option Component :=
  if isStay part then none else if part = ['.', '.'] then some .parent else some (.normal part)

def text : Component → PathText
  | .root => []
  | .current => ['.']
  | .parent => ['.', '.']
  | .normal name => name

end Component

open Component

def components (p : PathText) : List Component :=
  (if isAbsolute p then [.root] else if (parts p).head? = some ['.'] then [.current] else []) ++
    (parts p).filterMap ofPart

def fileName (p : PathText) : Option PathText :=
  match (components p).getLast? with
  | some (.normal name) => some name
  | _ => none

def isFileName (name : PathText) : Bool := name ≠ [] ∧ name ≠ ['.'] ∧ name ≠ ['.', '.'] ∧ '/' ∉ name

def absolute (names : List PathText) : PathText := '/' :: ['/'].intercalate names

theorem parts_ne_nil (p : PathText) : parts p ≠ [] := splitOn_ne_nil _ _

theorem parts_append_slash (p q : PathText) : parts (p ++ '/' :: q) = parts p ++ parts q :=
  splitOn_append_cons_self _ _

variable {p q part : PathText} {c : Component}

theorem parts_of_not_mem (h : '/' ∉ p) : parts p = [p] := splitOn_eq_singleton h

theorem join_of_slash (hq : isAbsolute q = false) (hp : p = [] ∨ p.getLast? = some '/') :
    join p q = p ++ q := by
  rw [join, if_neg (by simp [hq]), if_pos hp]

theorem join_of_name (hq : isAbsolute q = false) (hp : p ≠ []) (hlast : p.getLast? ≠ some '/') :
    join p q = p ++ '/' :: q := by
  rw [join, if_neg (by simp [hq]), if_neg (by simp [hp, hlast])]

theorem parts_join (hp : p ≠ []) (hq : isAbsolute q = false) :
    parts (join p q) = parts p ++ parts q ∨
      ∃ A, A ≠ [] ∧ parts p = A ++ [[]] ∧ parts (join p q) = A ++ parts q := by
  by_cases hlast : p.getLast? = some '/'
  · obtain ⟨p', rfl⟩ := getLast?_eq_some_iff.mp hlast
    rw [join_of_slash hq (.inr hlast), append_assoc, singleton_append]
    exact .inr ⟨parts p', parts_ne_nil p', parts_append_slash p' [], parts_append_slash p' q⟩
  · rw [join_of_name hq hp hlast]
    exact .inl (parts_append_slash p q)

theorem isAbsolute_append {p : PathText} (hp : p ≠ []) (q : PathText) :
    isAbsolute (p ++ q) = isAbsolute p := by
  rw [isAbsolute, isAbsolute, head?_append_of_ne_nil _ hp]

theorem isAbsolute_join (hp : p ≠ []) (hq : isAbsolute q = false) :
    isAbsolute (join p q) = isAbsolute p := by
  by_cases hlast : p.getLast? = some '/'
  · rw [join_of_slash hq (.inr hlast), isAbsolute_append hp]
  · rw [join_of_name hq hp hlast, isAbsolute_append hp]

theorem join_ne_nil {p : PathText} (hp : p ≠ []) (q : PathText) : join p q ≠ [] := by
  unfold join
  split
  · next hq =>
    rintro rfl
    cases hq
  · split <;> simp [hp]

theorem join_join {a b : PathText} (ha : a ≠ []) (hrel : isAbsolute a = false)
    (hlast : a.getLast? ≠ some '/') (hb : isAbsolute b = false) :
    join (join p a) b = join p (a ++ '/' :: b) := by
  have hab : isAbsolute (a ++ '/' :: b) = false := (isAbsolute_append ha _).trans hrel
  have hend : ∀ x : PathText, (x ++ a).getLast? ≠ some '/' := fun x => by
    rwa [getLast?_append_of_ne_nil _ ha]
  by_cases hp : p = [] ∨ p.getLast? = some '/'
  · rw [join_of_slash hrel hp, join_of_slash hab hp, join_of_name hb (by simp [ha]) (hend p),
      append_assoc]
  · obtain ⟨hp, hslash⟩ := not_or.mp hp
    have hstep : p ++ '/' :: a = (p ++ ['/']) ++ a := by simp
    rw [join_of_name hrel hp hslash, join_of_name hab hp hslash,
      join_of_name hb (by simp) (hstep ▸ hend (p ++ ['/'])), append_assoc, cons_append]

theorem components_join (hp : p ≠ []) (hq : isAbsolute q = false) :
    components (join p q) = components p ++ (parts q).filterMap ofPart := by
  unfold components
  rw [isAbsolute_join hp hq]
  rcases parts_join hp hq with h | ⟨A, hA, hp', h⟩
  · rw [h, head?_append_of_ne_nil _ (parts_ne_nil p), filterMap_append, append_assoc]
  · rw [h, hp', head?_append_of_ne_nil _ hA, head?_append_of_ne_nil _ hA,
      filterMap_append, filterMap_append, append_assoc]
    simp [ofPart, isStay]

def Component.isInner : Component → Bool
  | .root | .current => false
  | .parent | .normal _ => true

theorem isInner_of_ofPart (h : ofPart part = some c) : c.isInner = true := by
  unfold ofPart at h
  split at h
  · cases h
  · split at h <;> cases h <;> rfl

theorem components_congr (h : components p = components q) :
    isAbsolute p = isAbsolute q ∧
      (parts p).filterMap ofPart = (parts q).filterMap ofPart := by
  have hinner : ∀ x : PathText, ∀ c ∈ (parts x).filterMap ofPart, c.isInner = true := by
    intro x c hc
    obtain ⟨part, -, hpart⟩ := mem_filterMap.mp hc
    exact isInner_of_ofPart hpart
  have hroot : ∀ x : PathText, isAbsolute x = decide (Component.root ∈ components x) := by
    intro x
    have hno : Component.root ∉ (parts x).filterMap ofPart := fun hm => by
      cases hinner x _ hm
    unfold components
    cases isAbsolute x with
    | true => simp
    | false => split <;> simp_all
  have hrest : ∀ x : PathText,
      (parts x).filterMap ofPart = (components x).filter isInner := by
    intro x
    unfold components
    rw [filter_append, filter_eq_self.mpr (hinner x)]
    split
    · rfl
    · split <;> rfl
  rw [hroot, hroot, hrest, hrest, h]
  exact ⟨rfl, rfl⟩

theorem text_of_ofPart (h : ofPart part = some c) : isStay part = false ∧ c.text = part := by
  unfold ofPart at h
  split at h
  · cases h
  · next hstay =>
    refine ⟨Bool.not_eq_true _ ▸ hstay, ?_⟩
    split at h
    · next hparent =>
      cases h
      exact hparent.symm
    · cases h
      rfl

theorem filter_parts_congr {L M : List PathText} (h : L.filterMap ofPart = M.filterMap ofPart) :
    L.filter (!isStay ·) = M.filter (!isStay ·) := by
  have htext : ∀ L : List PathText,
      L.filter (!isStay ·) = (L.filterMap ofPart).map Component.text := by
    intro L
    induction L with
    | nil => rfl
    | cons part L ih =>
      by_cases hstay : isStay part = true
      · have hnone : ofPart part = none := if_pos hstay
        rw [filter_cons_of_neg (by simp [hstay]), filterMap_cons_none hnone, ih]
      · obtain ⟨c, hc⟩ : ∃ c, ofPart part = some c := by
          rw [ofPart, if_neg hstay]
          split <;> exact ⟨_, rfl⟩
        rw [filter_cons_of_pos (by simp [hstay]), filterMap_cons_some hc, map_cons,
          (text_of_ofPart hc).2, ih]
  rw [htext, htext, h]

section names
variable {name : PathText} (hn : isFileName name = true)
include hn

theorem isFileName_ne_nil : name ≠ [] := by
  simp only [isFileName, decide_eq_true_eq] at hn
  exact hn.1

theorem parts_fileName : parts name = [name] := by
  simp only [isFileName, decide_eq_true_eq] at hn
  exact parts_of_not_mem hn.2.2.2

theorem isStay_fileName : isStay name = false := by
  simp only [isFileName, decide_eq_true_eq] at hn
  simp [isStay, hn.1, hn.2.1]

theorem ofPart_fileName : ofPart name = some (.normal name) := by
  have hstay := isStay_fileName hn
  simp only [isFileName, decide_eq_true_eq] at hn
  simp [ofPart, hstay, hn.2.2.1]

theorem isAbsolute_fileName : isAbsolute name = false := by
  simp only [isFileName, decide_eq_true_eq] at hn
  cases name with
  | nil => rfl
  | cons c name =>
    have hc : c ≠ '/' := fun h => hn.2.2.2 (h ▸ mem_cons_self)
    simp [isAbsolute, hc]

theorem components_join_fileName {p : PathText} (hp : p ≠ []) :
    components (join p name) = components p ++ [.normal name] := by
  rw [components_join hp (isAbsolute_fileName hn), parts_fileName hn]
  simp [ofPart_fileName hn]

theorem fileName_join {p : PathText} (hp : p ≠ []) : fileName (join p name) = some name := by
  unfold fileName
  rw [components_join_fileName hn hp, getLast?_concat]

end names

variable {p part name w : PathText} {names : List PathText}

theorem not_mem_of_mem_parts (h : part ∈ parts p) : '/' ∉ part := by
  unfold parts at h
  induction p generalizing part with
  | nil =>
    rw [splitOn_nil, mem_singleton] at h
    simp [h]
  | cons c p ih =>
    rw [splitOn_cons_eq_if_modifyHead] at h
    split at h
    · rcases mem_cons.mp h with rfl | h
      · simp
      · exact ih h
    · next hc =>
      obtain ⟨head, tail, hp⟩ := exists_cons_of_ne_nil (splitOn_ne_nil '/' p)
      rw [hp] at h ih
      rcases mem_cons.mp h with rfl | h
      · have hhead := ih mem_cons_self
        have hne : '/' ≠ c := fun h => hc (beq_iff_eq.mpr h.symm)
        simp [hne, hhead]
      · exact ih (mem_cons_of_mem _ h)

theorem isFileName_of_ofPart (hpart : part ∈ parts p)
    (h : ofPart part = some (.normal name)) : isFileName name = true := by
  unfold ofPart at h
  split at h
  · cases h
  · next hstay =>
    split at h
    · cases h
    · next hparent =>
      obtain rfl : part = name := by simpa using h
      simp only [isStay, Bool.decide_or, Bool.or_eq_true, decide_eq_true_eq, not_or] at hstay
      simp only [isFileName, decide_eq_true_eq]
      exact ⟨hstay.1, hstay.2, hparent, not_mem_of_mem_parts hpart⟩

theorem isFileName_fileName (h : fileName p = some name) : isFileName name = true := by
  unfold fileName at h
  split at h
  · next last hlast =>
    cases h
    have hmem := mem_of_getLast? hlast
    rcases mem_append.mp hmem with hlead | hpart
    · split at hlead
      · simp at hlead
      · split at hlead <;> simp at hlead
    · obtain ⟨part, hpart, hof⟩ := mem_filterMap.mp hpart
      exact isFileName_of_ofPart hpart hof
  · cases h

/-! ### Spellings -/

theorem isAbsolute_dropWhile (p : PathText) : isAbsolute (p.dropWhile (· = '/')) = false := by
  have hnot := head?_dropWhile_not (fun c : Char => decide (c = '/')) p
  unfold isAbsolute
  cases hhead : (p.dropWhile (· = '/')).head? with
  | none => rfl
  | some c =>
    rw [hhead] at hnot
    simpa using hnot

theorem dropWhile_of_relative (h : isAbsolute p = false) : p.dropWhile (· = '/') = p := by
  cases p with
  | nil => rfl
  | cons c p =>
    have hc : c ≠ '/' := by simpa [isAbsolute] using h
    exact dropWhile_cons_of_neg (by simp [hc])

theorem parts_cons_slash (p : PathText) : parts ('/' :: p) = [] :: parts p := by
  have hnil : parts [] = [[]] := parts_of_not_mem (not_mem_nil)
  have happ : parts ('/' :: p) = parts [] ++ parts p := parts_append_slash [] p
  rw [happ, hnil, singleton_append]

theorem inner_dropWhile (p : PathText) :
    (parts (p.dropWhile (· = '/'))).filterMap ofPart =
      (parts p).filterMap ofPart := by
  induction p with
  | nil => rfl
  | cons c p ih =>
    by_cases hc : c = '/'
    · subst hc
      rw [dropWhile_cons_of_pos (by simp), ih, parts_cons_slash]
      exact (filterMap_cons_none rfl).symm
    · rw [dropWhile_cons_of_neg (by simp [hc])]

theorem parts_intercalate (hne : names ≠ []) (h : ∀ name ∈ names, isFileName name = true) :
    parts (['/'].intercalate names) = names := by
  refine splitOn_intercalate _ (fun name hn => ?_) hne
  have hname := h name hn
  simp only [isFileName, decide_eq_true_eq] at hname
  exact hname.2.2.2

theorem isAbsolute_intercalate (hne : names ≠ []) (h : ∀ name ∈ names, isFileName name = true) :
    isAbsolute (['/'].intercalate names) = false := by
  have hparts := parts_intercalate hne h
  cases htext : (['/'] : PathText).intercalate names with
  | nil => rfl
  | cons c p =>
    have hc : c ≠ '/' := by
      rintro rfl
      rw [htext, parts_cons_slash] at hparts
      exact isFileName_ne_nil (h [] (hparts ▸ mem_cons_self)) rfl
    simp [isAbsolute, hc]

theorem components_absolute (hne : names ≠ []) (h : ∀ name ∈ names, isFileName name = true) :
    components (absolute names) = .root :: names.map .normal := by
  have hinner : names.filterMap ofPart = names.map .normal :=
    filterMap_eq_map_iff_forall_eq_some.mpr fun name hn => ofPart_fileName (h name hn)
  have habs : isAbsolute (absolute names) = true := rfl
  rw [components, habs, absolute, parts_cons_slash, parts_intercalate hne h,
    filterMap_cons_none rfl, hinner]
  rfl

theorem parts_append_of_not_mem (p : PathText) {w : PathText} (hw : '/' ∉ w) :
    ∃ A l, parts p = A ++ [l] ∧ parts (p ++ w) = A ++ [l ++ w] := by
  unfold parts
  induction p with
  | nil => exact ⟨[], [], splitOn_nil _, parts_of_not_mem hw⟩
  | cons c p ih =>
    obtain ⟨A, l, hp, hpw⟩ := ih
    rw [cons_append, splitOn_cons_eq_if_modifyHead, splitOn_cons_eq_if_modifyHead, hp, hpw]
    split
    · exact ⟨[] :: A, l, rfl, rfl⟩
    · cases A with
      | nil => exact ⟨[], c :: l, rfl, rfl⟩
      | cons a A => exact ⟨(c :: a) :: A, l, rfl, rfl⟩

theorem eq_nil_of_inner_append (hw : ∀ c ∈ w, c ≠ '/' ∧ c ≠ '.')
    (h : (parts (p ++ w)).filterMap ofPart = (parts p).filterMap ofPart) : w = [] := by
  obtain ⟨A, l, hp, hpw⟩ := parts_append_of_not_mem p (w := w) fun hm => (hw _ hm).1 rfl
  by_contra hne
  obtain ⟨c, w', rfl⟩ := exists_cons_of_ne_nil hne
  have hdot : ∀ part : PathText, (∀ d ∈ part, d = '.') → l ++ c :: w' ≠ part := by
    rintro part hpart rfl
    exact (hw c mem_cons_self).2 (hpart c (by simp))
  have hnew : ofPart (l ++ c :: w') = some (.normal (l ++ c :: w')) := by
    simp [ofPart, isStay, hdot ['.'] (by simp), hdot ['.', '.'] (by simp)]
  rw [hp, hpw, filterMap_append, filterMap_append, append_cancel_left_eq,
    filterMap_cons_some hnew, filterMap_nil] at h
  -- the last part of `p` would have to be the longer text
  obtain ⟨part, hpart, hof⟩ := mem_filterMap.mp (h ▸ mem_singleton_self _)
  rw [mem_singleton] at hpart
  have htext := (text_of_ofPart hof).2
  rw [hpart] at htext
  simp [Component.text] at htext

end PathText
