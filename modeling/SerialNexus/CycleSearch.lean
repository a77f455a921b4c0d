import Mathlib.Tactic
import Mathlib.Logic.Relation

/-! # Finding a cycle by depth-first search

The three-colour depth-first search of a finite directed graph, with an explicit stack.  A vertex is
white until it is met, gray while it is on the stack and black once all its neighbours have been
scanned; a gray neighbour closes a cycle, read off the path from its first occurrence.

The `while` loop is `run` with fuel, of which `work` is enough.  In `checkedFindCycle` the colours
are a map, and looking up a vertex that is not listed fails. -/

namespace CycleSearch

open List Function

inductive Color where
  | white
  | gray
  | black
deriving DecidableEq

structure Search (V : Type*) where
  color : V → Color
  stack : List (V × ℕ)
  path : List V

inductive Outcome (V : Type*) where
  | running (s : Search V)
  | finished (color : V → Color)
  | cycle (vertices : List V)

section search

variable {V : Type*} [DecidableEq V] (adj : V → List V)

def step (s : Search V) : Outcome V :=
  match s.stack with
  | [] => .finished s.color
  | (node, idx) :: rest =>
    match (adj node)[idx]? with
    | some next =>
      match s.color next with
      | .white =>
        .running
          { color := update s.color next .gray
            stack := (next, 0) :: (node, idx + 1) :: rest
            path := s.path ++ [next] }
      | .gray => .cycle (s.path.drop ((s.path.idxOf? next).getD 0) ++ [next])
      | .black => .running { s with stack := (node, idx + 1) :: rest }
    | none =>
      .running
        { color := update s.color node .black
          stack := rest
          path := s.path.dropLast }

def run : ℕ → Search V → Outcome V
  | 0, s => .running s
  | fuel + 1, s =>
    match step adj s with
    | .running s' => run fuel s'
    | o => o

def enter (color : V → Color) (start : V) : Search V :=
  { color := update color start .gray, stack := [(start, 0)], path := [start] }

def searchFrom (fuel : ℕ) : List V → (V → Color) → Option (List V)
  | [], _ => none
  | start :: rest, color =>
    if color start ≠ .white then searchFrom fuel rest color
    else
      match run adj fuel (enter color start) with
      | .cycle vertices => some vertices
      | .finished color' => searchFrom fuel rest color'
      | .running _ => none

def work (vertices : List V) : ℕ := (vertices.map fun v => (adj v).length + 1).sum

def findCycle (vertices : List V) : Option (List V) :=
  searchFrom adj (work adj vertices + 1) vertices fun _ => .white

/-! With the colours in a map, only the colour of a key can be looked up. -/

def unknownNext (vertices : List V) (s : Search V) : Option V :=
  match s.stack with
  | [] => none
  | (node, idx) :: _ => ((adj node)[idx]?).filter (· ∉ vertices)

def checkedRun (vertices : List V) : ℕ → Search V → Except V (Outcome V)
  | 0, s => .ok (.running s)
  | fuel + 1, s =>
    match unknownNext adj vertices s with
    | some v => .error v
    | none =>
      match step adj s with
      | .running s' => checkedRun vertices fuel s'
      | o => .ok o

inductive Verdict (V : Type*) where
  | answer (cycle : Option (List V))
  | unknown (v : V)
  | unfinished
deriving DecidableEq

def checkedSearchFrom (vertices : List V) (fuel : ℕ) : List V → (V → Color) → Verdict V
  | [], _ => .answer none
  | start :: rest, color =>
    if color start ≠ .white then checkedSearchFrom vertices fuel rest color
    else
      match checkedRun adj vertices fuel (enter color start) with
      | .error v => .unknown v
      | .ok (.cycle c) => .answer (some c)
      | .ok (.finished color') => checkedSearchFrom vertices fuel rest color'
      | .ok (.running _) => .unfinished

def checkedFindCycle (vertices : List V) : Verdict V :=
  checkedSearchFrom adj vertices (work adj vertices + 1) vertices fun _ => .white

end search

section graphs

variable {V : Type*} (adj : V → List V)

def Arc (u w : V) : Prop := w ∈ adj u

def Acyclic : Prop := ∀ v, ¬ Relation.TransGen (Arc adj) v v

structure ClosedWalk (vertices : List V) : Prop where
  arcs : vertices.IsChain (Arc adj)
  ends : vertices.head? = vertices.getLast?
  nontrivial : 2 ≤ vertices.length

def Settled : List V → Prop
  | [] => True
  | v :: vs => v ∉ vs ∧ (∀ w ∈ adj v, w ∈ vs) ∧ Settled vs

variable {adj}

theorem Acyclic.mono {adj' : V → List V} (h : Acyclic adj) (hsub : ∀ v, adj' v ⊆ adj v) :
    Acyclic adj' :=
  fun v hv => h v (Relation.TransGen.mono (fun u _ hw => hsub u hw) v v hv)

theorem Settled.arc_mem {vs : List V} (h : Settled adj vs) {u w : V} (hu : u ∈ vs)
    (hw : Arc adj u w) : w ∈ vs := by
  induction vs with
  | nil => cases hu
  | cons v vs ih =>
    obtain ⟨-, hv, hvs⟩ := h
    cases hu with
    | head => exact .tail _ (hv w hw)
    | tail _ hu => exact .tail _ (ih hvs hu)

theorem Settled.reach_mem {vs : List V} (h : Settled adj vs) {u w : V} (hu : u ∈ vs)
    (hw : Relation.ReflTransGen (Arc adj) u w) : w ∈ vs := by
  induction hw with
  | refl => exact hu
  | tail _ harc ih => exact h.arc_mem ih harc

theorem Settled.not_transGen {vs : List V} (h : Settled adj vs) {v : V} (hv : v ∈ vs) :
    ¬ Relation.TransGen (Arc adj) v v := by
  induction vs with
  | nil => cases hv
  | cons u vs ih =>
    obtain ⟨hu, hout, hvs⟩ := h
    intro hcycle
    by_cases hmem : v ∈ vs
    · exact ih hvs hmem hcycle
    · -- the vertex settled last: its neighbours are settled before it, and so is all they reach
      obtain rfl : v = u := by simpa [hmem] using hv
      obtain ⟨w, hw, hback⟩ := Relation.TransGen.head'_iff.mp hcycle
      exact hmem (hvs.reach_mem (hout w hw) hback)

theorem ClosedWalk.exists_transGen {vertices : List V} (h : ClosedWalk adj vertices) :
    ∃ v, Relation.TransGen (Arc adj) v v := by
  obtain ⟨harcs, hends, hlen⟩ := h
  obtain ⟨u, w, rest, rfl⟩ : ∃ u w rest, vertices = u :: w :: rest := by
    match vertices, hlen with
    | u :: w :: rest, _ => exact ⟨u, w, rest, rfl⟩
  have hchain := isChain_cons_cons.mp harcs
  have hlast : (w :: rest).getLast (by simp) = u := by
    rw [head?_cons, getLast?_cons_cons, getLast?_eq_some_getLast (by simp)] at hends
    exact (Option.some.inj hends).symm
  exact ⟨u, Relation.TransGen.head'_iff.mpr
    ⟨w, hchain.1, relationReflTransGen_of_exists_isChain_cons rest hchain.2 hlast⟩⟩

end graphs

section correctness

variable {V : Type*} (adj : V → List V)

def Scanned (settled : List V) : Option V → List (V × ℕ) → Prop
  | _, [] => True
  | above, (v, i) :: rest =>
    i ≤ (adj v).length ∧ (∀ w ∈ (adj v).take i, w ∈ settled ∨ above = some w) ∧
      (∀ w, above = some w → Arc adj v w) ∧ Scanned settled (some v) rest

structure Exploring (s : Search V) (settled : List V) : Prop where
  path : s.path = (s.stack.map Prod.fst).reverse
  nodup : (s.stack.map Prod.fst).Nodup
  gray : ∀ v, s.color v = .gray ↔ v ∈ s.stack.map Prod.fst
  black : ∀ v, s.color v = .black ↔ v ∈ settled
  order : Settled adj settled
  scanned : Scanned adj settled none s.stack

variable {adj}

theorem Scanned.mono {settled settled' : List V} (hsub : settled ⊆ settled') {above : Option V}
    {stack : List (V × ℕ)} (h : Scanned adj settled above stack) :
    Scanned adj settled' above stack := by
  induction stack generalizing above with
  | nil => trivial
  | cons top rest ih =>
    obtain ⟨hi, hpre, habove, hrest⟩ := h
    exact ⟨hi, fun w hw => (hpre w hw).imp_left (@hsub w), habove, ih hrest⟩

theorem Scanned.settle {settled : List V} {v : V} {stack : List (V × ℕ)}
    (h : Scanned adj settled (some v) stack) : Scanned adj (v :: settled) none stack := by
  cases stack with
  | nil => trivial
  | cons top rest =>
    obtain ⟨hi, hpre, -, hrest⟩ := h
    refine ⟨hi, fun w hw => .inl ?_, by simp, hrest.mono (subset_cons_self v settled)⟩
    rcases hpre w hw with hw | hw
    · exact .tail _ hw
    · cases hw
      exact .head _

theorem Scanned.isChain {settled : List V} {above : Option V} {stack : List (V × ℕ)}
    (h : Scanned adj settled above stack) : (stack.map Prod.fst).reverse.IsChain (Arc adj) := by
  rw [isChain_reverse]
  induction stack generalizing above with
  | nil => exact .nil
  | cons top rest ih =>
    obtain ⟨-, -, -, hrest⟩ := h
    cases rest with
    | nil => exact .singleton _
    | cons next rest => exact .cons_cons (hrest.2.2.1 _ rfl) (ih hrest)

variable {s : Search V} {settled : List V} {node next : V} {idx : ℕ} {rest : List (V × ℕ)}

theorem Exploring.top (h : Exploring adj s settled) (hs : s.stack = (node, idx) :: rest) :
    s.path = (((node, idx) :: rest).map Prod.fst).reverse ∧
      (((node, idx) :: rest).map Prod.fst).Nodup ∧
      (∀ v, s.color v = .gray ↔ v ∈ ((node, idx) :: rest).map Prod.fst) ∧
      Scanned adj settled none ((node, idx) :: rest) := by
  rw [← hs]
  exact ⟨h.path, h.nodup, h.gray, h.scanned⟩

variable [DecidableEq V]

theorem Exploring.push (h : Exploring adj s settled) (hs : s.stack = (node, idx) :: rest)
    (hnext : (adj node)[idx]? = some next) (hwhite : s.color next = .white) :
    Exploring adj
      { color := update s.color next .gray
        stack := (next, 0) :: (node, idx + 1) :: rest
        path := s.path ++ [next] } settled := by
  obtain ⟨hpath, hnodup, hgray, -, hpre, -, hrest⟩ := h.top hs
  obtain ⟨hlt, hget⟩ := List.getElem?_eq_some_iff.mp hnext
  have hfresh : next ∉ ((node, idx) :: rest).map Prod.fst := by
    rw [← hgray, hwhite]
    simp
  refine ⟨?_, nodup_cons.mpr ⟨hfresh, hnodup⟩, fun v => ?_, fun v => ?_, h.order, ?_⟩
  · simp [hpath]
  · by_cases hv : v = next
    · simp [hv]
    · simpa [update_of_ne hv, hv] using hgray v
  · by_cases hv : v = next
    · subst hv
      simp [← h.black, hwhite]
    · simpa [update_of_ne hv] using h.black v
  · refine ⟨Nat.zero_le _, by simp, by simp, hlt, fun w hw => ?_, ?_, hrest⟩
    · rw [take_add_one, hnext] at hw
      rcases mem_append.mp hw with hw | hw
      · exact .inl ((hpre w hw).resolve_right (by simp))
      · exact .inr (congrArg some (mem_singleton.mp hw).symm)
    · intro w hw
      cases hw
      exact hget ▸ List.getElem_mem hlt

omit [DecidableEq V] in
theorem Exploring.skip (h : Exploring adj s settled) (hs : s.stack = (node, idx) :: rest)
    (hnext : (adj node)[idx]? = some next) (hblack : s.color next = .black) :
    Exploring adj { s with stack := (node, idx + 1) :: rest } settled := by
  obtain ⟨hpath, hnodup, hgray, -, hpre, -, hrest⟩ := h.top hs
  obtain ⟨hlt, -⟩ := List.getElem?_eq_some_iff.mp hnext
  refine ⟨hpath, hnodup, hgray, h.black, h.order, hlt, fun w hw => ?_, by simp, hrest⟩
  rw [take_add_one, hnext] at hw
  rcases mem_append.mp hw with hw | hw
  · exact hpre w hw
  · rw [mem_singleton.mp hw]
    exact .inl ((h.black next).mp hblack)

theorem Exploring.pop (h : Exploring adj s settled) (hs : s.stack = (node, idx) :: rest)
    (hnext : (adj node)[idx]? = none) :
    Exploring adj
      { color := update s.color node .black
        stack := rest
        path := s.path.dropLast } (node :: settled) := by
  obtain ⟨hpath, hnodup, hgray, -, hpre, -, hrest⟩ := h.top hs
  obtain ⟨hfresh, hnodup'⟩ := nodup_cons.mp hnodup
  have hall : ∀ w ∈ adj node, w ∈ settled := fun w hw =>
    (hpre w (by rwa [take_of_length_le (List.getElem?_eq_none_iff.mp hnext)])).resolve_right
      (by simp)
  have hopen : node ∉ settled := by
    rw [← h.black, (hgray node).mpr (by simp)]
    simp
  refine ⟨?_, hnodup', fun v => ?_, fun v => ?_, ⟨hopen, hall, h.order⟩, hrest.settle⟩
  · simp [hpath]
  · by_cases hv : v = node
    · subst hv
      simpa using hfresh
    · simpa [update_of_ne hv, hv] using hgray v
  · by_cases hv : v = node
    · simp [hv]
    · simpa [update_of_ne hv, hv] using h.black v

theorem Exploring.closedWalk (h : Exploring adj s settled) (hs : s.stack = (node, idx) :: rest)
    (hnext : (adj node)[idx]? = some next) (hgray : s.color next = .gray) :
    ClosedWalk adj (s.path.drop ((s.path.idxOf? next).getD 0) ++ [next]) := by
  have hchain : s.path.IsChain (Arc adj) := h.path ▸ h.scanned.isChain
  have hlast : s.path.getLast? = some node := by simp [h.path, hs]
  have hmem : next ∈ s.path := by
    rw [h.path, mem_reverse]
    exact (h.gray next).mp hgray
  obtain ⟨i, hi⟩ := Option.isSome_iff_exists.mp (isSome_idxOf?.mpr hmem)
  obtain ⟨hlt, hget, -⟩ := idxOf?_eq_some_iff.mp hi
  have hdrop : s.path.drop i = next :: s.path.drop (i + 1) := by
    rw [drop_eq_getElem_cons hlt, hget]
  have harc : Arc adj node next := mem_of_getElem? hnext
  rw [hi, Option.getD_some]
  refine ⟨?_, ?_, ?_⟩
  · refine isChain_append.mpr ⟨hchain.drop i, .singleton _, ?_⟩
    rw [getLast?_drop, if_neg (by omega), hlast]
    simpa using harc
  · rw [getLast?_concat, hdrop]
    rfl
  · rw [hdrop, length_append, length_cons, length_singleton]
    omega

variable (adj) in
def whites (vertices : List V) (color : V → Color) : ℕ :=
  (vertices.map fun v => if color v = .white then (adj v).length + 1 else 0).sum

variable (adj) in
def pending (vertices : List V) (s : Search V) : ℕ :=
  (s.stack.map fun x => (adj x.1).length + 1 - x.2).sum + whites adj vertices s.color

omit [DecidableEq V] in
variable (adj) in
theorem whites_le_work (vertices : List V) (color : V → Color) :
    whites adj vertices color ≤ work adj vertices := by
  refine sum_le_sum fun v _ => ?_
  split <;> omega

variable (adj) in
theorem whites_update_le (vertices : List V) (color : V → Color) (v : V) {c : Color}
    (hc : c ≠ .white) : whites adj vertices (update color v c) ≤ whites adj vertices color := by
  refine sum_le_sum fun u _ => ?_
  by_cases hu : u = v
  · simp [hu, hc]
  · simp [update_of_ne hu]

variable (adj) in
theorem whites_update_lt {vertices : List V} {color : V → Color} {v : V} (hv : v ∈ vertices)
    (hwhite : color v = .white) {c : Color} (hc : c ≠ .white) :
    whites adj vertices (update color v c) + ((adj v).length + 1) ≤
      whites adj vertices color := by
  induction vertices with
  | nil => cases hv
  | cons u vertices ih =>
    simp only [whites, map_cons, sum_cons] at ih ⊢
    by_cases hu : u = v
    · subst hu
      have := whites_update_le adj vertices color u hc
      simp only [whites] at this
      simp only [update_self, hc, if_false, hwhite, if_true]
      omega
    · have := ih ((mem_cons.mp hv).resolve_left (Ne.symm hu))
      rw [update_of_ne hu]
      omega

variable (adj) in
def Outcome.Legit (vertices : List V) (s : Search V) : Outcome V → Prop
  | .running s' => (∃ settled, Exploring adj s' settled) ∧
      pending adj vertices s' < pending adj vertices s ∧
      ∀ v, s.color v ≠ .white → s'.color v ≠ .white
  | .finished color => s.stack = [] ∧ color = s.color
  | .cycle c => ClosedWalk adj c

variable {vertices : List V} {color : V → Color}

theorem update_ne_white {v : V} {c : Color} (hc : c ≠ .white) (u : V) (hu : color u ≠ .white) :
    update color v c u ≠ .white := by
  by_cases h : u = v
  · simpa [h] using hc
  · simpa [update_of_ne h] using hu

theorem unknownNext_eq_some {v : V} (h : unknownNext adj vertices s = some v) :
    v ∉ vertices ∧ ∃ u, Arc adj u v := by
  unfold unknownNext at h
  split at h
  · cases h
  · next node idx _ _ =>
    obtain ⟨hget, hv⟩ := Option.filter_eq_some_iff.mp h
    exact ⟨by simpa using hv, node, mem_of_getElem? hget⟩

theorem unknownNext_of_closed (hadj : ∀ u w, Arc adj u w → w ∈ vertices) (s : Search V) :
    unknownNext adj vertices s = none := by
  rw [Option.eq_none_iff_forall_ne_some]
  intro v hv
  obtain ⟨hout, u, harc⟩ := unknownNext_eq_some hv
  exact hout (hadj u v harc)

theorem step_legit (hknown : unknownNext adj vertices s = none) (h : Exploring adj s settled) :
    (step adj s).Legit adj vertices s := by
  unfold unknownNext at hknown
  unfold step
  split
  · next hs => exact ⟨hs, rfl⟩
  · next node idx rest hs =>
    have hidx : idx ≤ (adj node).length := by
      have := h.scanned
      rw [hs] at this
      exact this.1
    split
    · next next hnext =>
      have hlt := (List.getElem?_eq_some_iff.mp hnext).1
      split
      · next hwhite =>
        have hmem : next ∈ vertices := by simpa [hs, hnext] using hknown
        have hless := whites_update_lt adj hmem hwhite (c := .gray) (by simp)
        refine ⟨⟨_, h.push hs hnext hwhite⟩, ?_, update_ne_white (by simp)⟩
        simp only [pending, hs, map_cons, sum_cons]
        omega
      · next hgray => exact h.closedWalk hs hnext hgray
      · next hblack =>
        refine ⟨⟨_, h.skip hs hnext hblack⟩, ?_, fun _ => id⟩
        simp only [pending, hs, map_cons, sum_cons]
        omega
    · next hnext =>
      have hle := whites_update_le adj vertices s.color node (c := .black) (by simp)
      refine ⟨⟨_, h.pop hs hnext⟩, ?_, update_ne_white (by simp)⟩
      simp only [pending, hs, map_cons, sum_cons]
      omega

variable (adj) in
def Explored (color : V → Color) : Prop :=
  (∀ v, color v ≠ .gray) ∧ ∃ settled, Settled adj settled ∧ ∀ v, color v = .black ↔ v ∈ settled

variable (adj) in
def Outcome.Final (s : Search V) : Outcome V → Prop
  | .running _ => False
  | .finished color => Explored adj color ∧ ∀ v, s.color v ≠ .white → color v ≠ .white
  | .cycle c => ClosedWalk adj c

variable (adj) in
def Halted (vertices : List V) (s : Search V) : Except V (Outcome V) → Prop
  | .error v => v ∉ vertices ∧ ∃ u, Arc adj u v
  | .ok o => o.Final adj s

theorem checkedRun_halted {fuel : ℕ} (h : Exploring adj s settled)
    (hfuel : pending adj vertices s < fuel) :
    Halted adj vertices s (checkedRun adj vertices fuel s) := by
  induction fuel generalizing s settled with
  | zero => omega
  | succ fuel ih =>
    rw [checkedRun]
    cases hknown : unknownNext adj vertices s with
    | some v => exact unknownNext_eq_some hknown
    | none =>
      have hstep := step_legit hknown h
      cases hs : step adj s with
      | running s' =>
        rw [hs] at hstep
        obtain ⟨⟨settled', h'⟩, hless, hmono⟩ := hstep
        have hrec := ih h' (by omega)
        change Halted adj vertices s (checkedRun adj vertices fuel s')
        -- what the rest of the loop keeps coloured, this iteration kept coloured before
        match hr : checkedRun adj vertices fuel s' with
        | .error v => rw [hr] at hrec; exact hrec
        | .ok (.running _) => rw [hr] at hrec; exact hrec
        | .ok (.finished color) =>
          rw [hr] at hrec
          exact ⟨hrec.1, fun v hv => hrec.2 v (hmono v hv)⟩
        | .ok (.cycle c) => rw [hr] at hrec; exact hrec
      | finished color =>
        rw [hs] at hstep
        obtain ⟨hempty, rfl⟩ := hstep
        refine ⟨⟨fun v => ?_, settled, h.order, h.black⟩, fun _ => id⟩
        rw [Ne, h.gray, hempty]
        simp
      | cycle c => rw [hs] at hstep; exact hstep

theorem checkedRun_eq (hadj : ∀ u w, Arc adj u w → w ∈ vertices) (fuel : ℕ) (s : Search V) :
    checkedRun adj vertices fuel s = .ok (run adj fuel s) := by
  induction fuel generalizing s with
  | zero => rfl
  | succ fuel ih =>
    rw [checkedRun, run, unknownNext_of_closed hadj]
    cases hs : step adj s with
    | running s' => exact ih s'
    | finished | cycle => rfl

theorem Explored.enter (h : Explored adj color) {start : V} (hwhite : color start = .white) :
    ∃ settled, Exploring adj (enter color start) settled := by
  obtain ⟨hgray, settled, horder, hblack⟩ := h
  refine ⟨settled, rfl, by simp [CycleSearch.enter], fun v => ?_, fun v => ?_, horder, ?_⟩
  · by_cases hv : v = start
    · simp [CycleSearch.enter, hv]
    · simpa [CycleSearch.enter, update_of_ne hv, hv] using hgray v
  · by_cases hv : v = start
    · subst hv
      simp [CycleSearch.enter, ← hblack, hwhite]
    · simpa [CycleSearch.enter, update_of_ne hv] using hblack v
  · exact ⟨Nat.zero_le _, by simp, by simp, trivial⟩

theorem pending_enter_le {start : V} (hmem : start ∈ vertices) (hwhite : color start = .white) :
    pending adj vertices (enter color start) ≤ work adj vertices := by
  have hless := whites_update_lt adj hmem hwhite (c := .gray) (by simp)
  have hle := whites_le_work adj vertices color
  simp only [pending, enter, map_cons, map_nil, sum_cons, sum_nil]
  omega

variable (adj) in
def Answer (starts : List V) (color : V → Color) : Option (List V) → Prop
  | some c => ClosedWalk adj c
  | none => ∃ color', Explored adj color' ∧ (∀ v, color v ≠ .white → color' v ≠ .white) ∧
      ∀ v ∈ starts, color' v ≠ .white

variable (adj) in
def Verdict.Correct (vertices starts : List V) (color : V → Color) : Verdict V → Prop
  | .answer o => Answer adj starts color o
  | .unknown v => v ∉ vertices ∧ ∃ u, Arc adj u v
  | .unfinished => False

omit [DecidableEq V] in
theorem Answer.acyclic (h : Answer adj vertices color none)
    (hsrc : ∀ u w, Arc adj u w → u ∈ vertices) : Acyclic adj := by
  intro v hcycle
  obtain ⟨color', ⟨hgray, settled, horder, hblack⟩, -, hall⟩ := h
  obtain ⟨w, hw, -⟩ := Relation.TransGen.head'_iff.mp hcycle
  have hne := hall v (hsrc v w hw)
  have hv : color' v = .black := by
    cases hc : color' v with
    | white => exact absurd hc hne
    | gray => exact absurd hc (hgray v)
    | black => rfl
  exact horder.not_transGen ((hblack v).mp hv) hcycle

omit [DecidableEq V] in
theorem Answer.isSome_iff {o : Option (List V)} (h : Answer adj vertices color o)
    (hsrc : ∀ u w, Arc adj u w → u ∈ vertices) :
    o.isSome ↔ ∃ v, Relation.TransGen (Arc adj) v v := by
  cases o with
  | some c => exact ⟨fun _ => ClosedWalk.exists_transGen h, fun _ => rfl⟩
  | none =>
    have hacyclic := h.acyclic hsrc
    exact ⟨fun hsome => absurd hsome (by simp), fun ⟨v, hv⟩ => absurd hv (hacyclic v)⟩

theorem checkedSearchFrom_correct {fuel : ℕ} (hfuel : work adj vertices < fuel) {starts : List V}
    (hstarts : starts ⊆ vertices) (h : Explored adj color) :
    (checkedSearchFrom adj vertices fuel starts color).Correct adj vertices starts color := by
  induction starts generalizing color with
  | nil => exact ⟨color, h, fun _ => id, by simp⟩
  | cons start rest ih =>
    obtain ⟨hstart, hrest⟩ := cons_subset.mp hstarts
    -- a verdict for the other starts is one for all of them, once `start` is not white
    have lift : ∀ {color'}, (∀ v, color v ≠ .white → color' v ≠ .white) →
        color' start ≠ .white → ∀ {o : Verdict V}, o.Correct adj vertices rest color' →
        o.Correct adj vertices (start :: rest) color := by
      intro color' hmono hne o ho
      match o, ho with
      | .answer (some c), ho => exact ho
      | .unknown v, ho => exact ho
      | .answer none, ho =>
        obtain ⟨color'', hex, hmono', hall⟩ := ho
        refine ⟨color'', hex, fun v hv => hmono' v (hmono v hv), fun v hv => ?_⟩
        cases hv with
        | head => exact hmono' start hne
        | tail _ hv => exact hall v hv
    rw [checkedSearchFrom]
    split_ifs with hwhite
    · exact lift (fun _ => id) hwhite (ih hrest h)
    · obtain ⟨settled, henter⟩ := h.enter (not_not.mp hwhite)
      have hfinal := checkedRun_halted henter
        (lt_of_le_of_lt (pending_enter_le hstart (not_not.mp hwhite)) hfuel)
      match hr : checkedRun adj vertices fuel (enter color start) with
      | .error v => rw [hr] at hfinal; exact hfinal
      | .ok (.running _) => rw [hr] at hfinal; exact hfinal.elim
      | .ok (.finished color') =>
        rw [hr] at hfinal
        refine lift (fun v hv => hfinal.2 v (update_ne_white (by simp) v hv)) ?_
          (ih hrest hfinal.1)
        exact hfinal.2 start (by simp [enter])
      | .ok (.cycle c) => rw [hr] at hfinal; exact hfinal

theorem checkedSearchFrom_eq (hadj : ∀ u w, Arc adj u w → w ∈ vertices) {fuel : ℕ} {starts : List V}
    (h : checkedSearchFrom adj vertices fuel starts color ≠ .unfinished) :
    checkedSearchFrom adj vertices fuel starts color =
      .answer (searchFrom adj fuel starts color) := by
  induction starts generalizing color with
  | nil => rfl
  | cons start rest ih =>
    rw [checkedSearchFrom, checkedRun_eq hadj] at h ⊢
    rw [searchFrom]
    split_ifs at h ⊢ with hwhite
    · exact ih h
    · cases hr : run adj fuel (enter color start) with
      | running => rw [hr] at h; exact absurd rfl h
      | finished color' => rw [hr] at h; exact ih h
      | cycle c => rfl

variable (adj) in
theorem checkedFindCycle_correct (vertices : List V) :
    (checkedFindCycle adj vertices).Correct adj vertices vertices fun _ => .white :=
  checkedSearchFrom_correct (Nat.lt_succ_self _) (List.Subset.refl _)
    ⟨by simp, [], trivial, by simp⟩

variable (adj) in
theorem checkedFindCycle_ne_unfinished (vertices : List V) :
    checkedFindCycle adj vertices ≠ .unfinished := by
  intro h
  have hcorrect := checkedFindCycle_correct adj vertices
  rwa [h] at hcorrect

theorem checkedFindCycle_eq (hadj : ∀ u w, Arc adj u w → w ∈ vertices) :
    checkedFindCycle adj vertices = .answer (findCycle adj vertices) :=
  checkedSearchFrom_eq hadj (checkedFindCycle_ne_unfinished adj vertices)

theorem findCycle_answer (hadj : ∀ u w, Arc adj u w → w ∈ vertices) :
    Answer adj vertices (fun _ => .white) (findCycle adj vertices) := by
  have hcorrect := checkedFindCycle_correct adj vertices
  rwa [checkedFindCycle_eq hadj] at hcorrect

theorem findCycle_eq_none_iff (hadj : ∀ u w, Arc adj u w → u ∈ vertices ∧ w ∈ vertices) :
    findCycle adj vertices = none ↔ Acyclic adj := by
  have hanswer := findCycle_answer fun u w h => (hadj u w h).2
  rw [← Option.isNone_iff_eq_none, ← Option.not_isSome, Bool.not_eq_true', ← Bool.not_eq_true,
    hanswer.isSome_iff fun u w h => (hadj u w h).1]
  exact not_exists

end correctness
end CycleSearch
