import Mathlib.Tactic

/-! # Runs of a guarded machine

A `Machine` is a step function on states together with the condition under which each step may be
taken.  All choices of the environment are in the actions, so an interleaving is a list of actions.
-/

namespace Runs

open List

structure Machine (σ α : Type*) where
  step : σ → α → σ
  ok : σ → α → Prop

namespace Machine

variable {σ α : Type*} (m : Machine σ α)

def run (s : σ) (as : List α) : σ := as.foldl m.step s

def Legal : σ → List α → Prop
  | _, [] => True
  | s, a :: as => m.ok s a ∧ Legal (m.step s a) as

instance decidableLegal [∀ s a, Decidable (m.ok s a)] : ∀ s as, Decidable (m.Legal s as)
  | _, [] => .isTrue trivial
  | s, a :: as =>
    have := decidableLegal (m.step s a) as
    inferInstanceAs (Decidable (m.ok s a ∧ m.Legal (m.step s a) as))

def Reachable (s₀ s : σ) : Prop := ∃ as, m.Legal s₀ as ∧ m.run s₀ as = s

@[simp] theorem run_nil (s : σ) : m.run s [] = s := rfl

@[simp] theorem run_cons (s : σ) (a : α) (as : List α) :
    m.run s (a :: as) = m.run (m.step s a) as := rfl

theorem run_append (s : σ) (as bs : List α) : m.run s (as ++ bs) = m.run (m.run s as) bs :=
  foldl_append

@[simp] theorem legal_nil (s : σ) : m.Legal s [] := trivial

@[simp] theorem legal_cons (s : σ) (a : α) (as : List α) :
    m.Legal s (a :: as) ↔ m.ok s a ∧ m.Legal (m.step s a) as := Iff.rfl

def Always (P : σ → Prop) : σ → List α → Prop
  | s, [] => P s
  | s, a :: as => P s ∧ Always P (m.step s a) as

instance decidableAlways {P : σ → Prop} [∀ s, Decidable (P s)] :
    ∀ s as, Decidable (m.Always P s as)
  | s, [] => inferInstanceAs (Decidable (P s))
  | s, a :: as =>
    have : Decidable (m.Always P (m.step s a) as) := decidableAlways (m.step s a) as
    inferInstanceAs (Decidable (P s ∧ m.Always P (m.step s a) as))

def Each (C : σ → α → Prop) : σ → List α → Prop
  | _, [] => True
  | s, a :: as => C s a ∧ Each C (m.step s a) as

instance decidableEach {C : σ → α → Prop} [∀ s a, Decidable (C s a)] :
    ∀ s as, Decidable (m.Each C s as)
  | _, [] => .isTrue trivial
  | s, a :: as =>
    have : Decidable (m.Each C (m.step s a) as) := decidableEach (m.step s a) as
    inferInstanceAs (Decidable (C s a ∧ m.Each C (m.step s a) as))

def outputs {ο : Type*} (out : σ → α → List ο) : σ → List α → List ο
  | _, [] => []
  | s, a :: as => out s a ++ outputs out (m.step s a) as

variable {m}

variable {s : σ} {as bs : List α} {ο : Type*} {out : σ → α → List ο} {P I : σ → Prop}
  {C D : σ → α → Prop}

theorem Legal.cons {a : α} (h : m.ok s a) (hs : m.Legal (m.step s a) as) :
    m.Legal s (a :: as) := ⟨h, hs⟩

theorem legal_append : m.Legal s (as ++ bs) ↔ m.Legal s as ∧ m.Legal (m.run s as) bs := by
  induction as generalizing s with
  | nil => simp
  | cons a as ih => rw [cons_append, legal_cons, legal_cons, run_cons, ih, and_assoc]

theorem outputs_append :
    m.outputs out s (as ++ bs) = m.outputs out s as ++ m.outputs out (m.run s as) bs := by
  induction as generalizing s with
  | nil => rfl
  | cons a as ih => rw [cons_append, outputs, outputs, run_cons, ih, append_assoc]

theorem Always.of_prefix (h : m.Always P s as) (hbs : bs <+: as) : P (m.run s bs) := by
  induction as generalizing s bs with
  | nil => exact prefix_nil.mp hbs ▸ h
  | cons a as ih =>
    cases bs with
    | nil => exact h.1
    | cons b bs =>
      obtain ⟨rfl, hrest⟩ := cons_prefix_cons.mp hbs
      rw [run_cons]
      exact ih h.2 hrest

theorem invariant (hstep : ∀ s a, I s → m.ok s a → I (m.step s a)) (hs : I s) (h : m.Legal s as) :
    I (m.run s as) := by
  induction as generalizing s with
  | nil => exact hs
  | cons a as ih => exact ih (hstep s a hs h.1) h.2

theorem Each.and_forall {D : α → Prop} (h : m.Each C s as) (hd : ∀ a ∈ as, D a) :
    m.Each (fun s a => D a ∧ C s a) s as := by
  induction as generalizing s with
  | nil => trivial
  | cons a as ih =>
    exact ⟨⟨hd a mem_cons_self, h.1⟩, ih h.2 fun b hb => hd b (mem_cons_of_mem _ hb)⟩

theorem Each.imp (hcd : ∀ s a, C s a → D s a) (h : m.Each C s as) : m.Each D s as := by
  induction as generalizing s with
  | nil => trivial
  | cons a as ih => exact ⟨hcd s a h.1, ih h.2⟩

theorem Each.imp_of_invariant (h : m.Each C s as)
    (hinv : ∀ s a, I s → m.ok s a → C s a → I (m.step s a)) (hcd : ∀ s a, I s → C s a → D s a)
    (hs : I s) (hl : m.Legal s as) : m.Each D s as := by
  induction as generalizing s with
  | nil => trivial
  | cons a as ih => exact ⟨hcd s a hs h.1, ih h.2 (hinv s a hs hl.1 h.1) hl.2⟩

theorem each_of_forall (h : ∀ s a, C s a) (s : σ) (as : List α) : m.Each C s as := by
  induction as generalizing s with
  | nil => trivial
  | cons a as ih => exact ⟨h s a, ih _⟩

theorem each_of_invariant (hinv : ∀ s a, I s → m.ok s a → I (m.step s a))
    (hstep : ∀ s a, I s → m.ok s a → C s a) (hs : I s) (h : m.Legal s as) : m.Each C s as := by
  induction as generalizing s with
  | nil => trivial
  | cons a as ih => exact ⟨hstep s a hs h.1, ih (hinv s a hs h.1) h.2⟩

theorem invariant_of_each (hstep : ∀ s a, I s → m.ok s a → C s a → I (m.step s a)) (hs : I s)
    (h : m.Legal s as) (hc : m.Each C s as) : I (m.run s as) := by
  induction as generalizing s with
  | nil => exact hs
  | cons a as ih => exact ih (hstep s a hs h.1 hc.1) h.2 hc.2

theorem legal_of_forall (h : ∀ a ∈ as, ∀ s, m.ok s a) (s : σ) : m.Legal s as := by
  induction as generalizing s with
  | nil => trivial
  | cons a as ih =>
    exact ⟨h a mem_cons_self s, ih (fun b hb => h b (mem_cons_of_mem _ hb)) _⟩

theorem outputs_eq_nil (h : ∀ a ∈ as, ∀ s, out s a = []) (s : σ) : m.outputs out s as = [] := by
  induction as generalizing s with
  | nil => rfl
  | cons a as ih =>
    rw [outputs, h a mem_cons_self s, ih fun b hb => h b (mem_cons_of_mem _ hb)]
    rfl

theorem Reachable.invariant {s₀ : σ} (h : m.Reachable s₀ s) (hs : I s₀)
    (hstep : ∀ s a, I s → m.ok s a → I (m.step s a)) : I s := by
  obtain ⟨as, hl, rfl⟩ := h
  exact Machine.invariant hstep hs hl

theorem run_deletion (view : σ → σ) (keep : α → Bool) (hear : ο → Bool)
    (hinv : ∀ s a, I s → I (m.step s a)) (hkeep : ∀ s a, I s → C s a → keep a = true →
      m.step (view s) a = view (m.step s a) ∧ out (view s) a = (out s a).filter hear)
    (hdrop : ∀ s a, I s → keep a = false →
      view (m.step s a) = view s ∧ (out s a).filter hear = []) (hs : I s) (hc : m.Each C s as) :
    m.run (view s) (as.filter keep) = view (m.run s as) ∧
      m.outputs out (view s) (as.filter keep) = (m.outputs out s as).filter hear := by
  induction as generalizing s with
  | nil => exact ⟨rfl, rfl⟩
  | cons a as ih =>
    obtain ⟨hrun, hout⟩ := ih (hinv s a hs) hc.2
    cases hk : keep a with
    | true =>
      obtain ⟨hstep, hsame⟩ := hkeep s a hs hc.1 hk
      rw [filter_cons_of_pos hk, run_cons, run_cons, outputs, outputs, hstep, hsame,
        filter_append, hrun, hout]
      exact ⟨rfl, rfl⟩
    | false =>
      obtain ⟨hstep, hsilent⟩ := hdrop s a hs hk
      rw [filter_cons_of_neg (by simp [hk]), run_cons, outputs, filter_append, hsilent,
        nil_append, ← hstep, hrun, hout]
      exact ⟨rfl, rfl⟩

theorem always_iff_each (hinv : ∀ s a, I s → m.ok s a → I (m.step s a))
    (hstep : ∀ s a, I s → m.ok s a → P s → (P (m.step s a) ↔ C s a)) (hs : I s) (hp : P s)
    (h : m.Legal s as) : m.Always P s as ↔ m.Each C s as := by
  induction as generalizing s with
  | nil => exact ⟨fun _ => trivial, fun _ => hp⟩
  | cons a as ih =>
    have hiff := hstep s a hs h.1 hp
    constructor
    · rintro ⟨_, hall⟩
      have hp' : P (m.step s a) := by
        cases as with
        | nil => exact hall
        | cons => exact hall.1
      exact ⟨hiff.mp hp', (ih (hinv s a hs h.1) hp' h.2).mp hall⟩
    · rintro ⟨hc, hrest⟩
      exact ⟨hp, (ih (hinv s a hs h.1) (hiff.mpr hc) h.2).mpr hrest⟩

end Machine
end Runs
