import Mathlib.Data.List.Infix

/-! # Prefix codes

A text is encoded letter by letter.  If no code word begins another, an encoded text begins with
another exactly if the texts do so.  From the right this needs a mark: a letter that stands nowhere
in a code word but at its head. -/

namespace PrefixCode

open List

variable {α β : Type*}

structure Free (f : α → List β) : Prop where
  ne_nil : ∀ a, f a ≠ []
  eq : ∀ {a b}, f a <+: f b → a = b

variable {f : α → List β}

theorem Free.isPrefix_append_iff (hf : Free f) {s t : List α} {u : List β} :
    s.flatMap f <+: t.flatMap f ++ u ↔ s <+: t ∨ ∃ q, s = t ++ q ∧ q.flatMap f <+: u := by
  induction t generalizing s with
  | nil => simp +contextual
  | cons a t ih =>
    cases s with
    | nil => simp
    | cons b s =>
      rw [flatMap_cons, flatMap_cons, append_assoc]
      by_cases hab : a = b
      · subst hab
        simp [ih]
      · refine iff_of_false (fun h => hab ?_) (by simp [Ne.symm hab])
        have hb : f b <+: f a ++ (t.flatMap f ++ u) := (prefix_append _ _).trans h
        rcases prefix_or_prefix_of_prefix hb (prefix_append _ _) with h | h
        · exact (hf.eq h).symm
        · exact hf.eq h

theorem Free.isPrefix_iff (hf : Free f) {s t : List α} : s.flatMap f <+: t.flatMap f ↔ s <+: t := by
  rw [← append_nil (t.flatMap f), hf.isPrefix_append_iff, or_iff_left_of_imp]
  rintro ⟨q, rfl, hq⟩
  cases q with
  | nil => simp
  | cons a q => exact absurd (prefix_nil.mp hq) (by simp [hf.ne_nil a])

theorem Free.injective (hf : Free f) : Function.Injective (List.flatMap f) := by
  intro s t h
  have hst : s <+: t := hf.isPrefix_iff.mp (h ▸ prefix_rfl)
  have hts : t <+: s := hf.isPrefix_iff.mp (h ▸ prefix_rfl)
  exact hst.eq_of_length_le hts.length_le

theorem cons_isSuffix_append_iff {m : β} {p u x : List β} (hm : m ∉ p) :
    m :: u <:+ p ++ x ↔ m :: u <:+ x := by
  induction p with
  | nil => rfl
  | cons b p ih =>
    rw [mem_cons, not_or] at hm
    rw [cons_append, suffix_cons_iff, ih hm.2, or_iff_right]
    exact fun h => hm.1 (List.cons.inj h).1

theorem exists_of_isSuffix {m : β} (hm : ∀ a, m ∉ (f a).tail) {t : List α} {u : List β}
    (h : m :: u <:+ t.flatMap f) : ∃ s, s <:+ t ∧ s.flatMap f = m :: u := by
  induction t with
  | nil => simp at h
  | cons a t ih =>
    have hrest : m :: u <:+ t.flatMap f → ∃ s, s <:+ a :: t ∧ s.flatMap f = m :: u := fun h =>
      (ih h).imp fun s hs => ⟨hs.1.trans (suffix_cons _ _), hs.2⟩
    rw [flatMap_cons] at h
    cases hw : f a with
    | nil => exact hrest (by simpa [hw] using h)
    | cons c w =>
      -- either the mark is the head of the word of `a`, or it stands after this word
      rw [hw, cons_append, suffix_cons_iff,
        cons_isSuffix_append_iff (by simpa [hw] using hm a)] at h
      rcases h with h | h
      · exact ⟨a :: t, suffix_rfl, by rw [flatMap_cons, hw, h]; rfl⟩
      · exact hrest h

theorem Free.isSuffix_iff (hf : Free f) {m : β} (hm : ∀ a, m ∉ (f a).tail) {s t : List α}
    (hs : (s.flatMap f).head? = some m) : s.flatMap f <:+ t.flatMap f ↔ s <:+ t := by
  refine ⟨fun h => ?_, fun ⟨r, hr⟩ => ⟨r.flatMap f, by rw [← hr, flatMap_append]⟩⟩
  obtain ⟨u, hu⟩ := head?_eq_some_iff.mp hs
  rw [hu] at h
  obtain ⟨s', hs', he⟩ := exists_of_isSuffix hm h
  rwa [← hf.injective (he.trans hu.symm)]

end PrefixCode
