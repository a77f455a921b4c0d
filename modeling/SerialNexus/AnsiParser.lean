import Mathlib.Tactic

/-! # The console's ANSI subset

`ansi.mjs` (`web/src/assets`) turns decoded text into render operations.  Its state outlives a call,
so a sequence may be cut anywhere.  Strings are lists of UTF-16 code units. -/

namespace SerialNexus.Ansi

open List

abbrev CodeUnit := UInt16

def maxSeq : ℕ := 64

def maxString : ℕ := 4096

inductive Mode where
  | ground
  | escSeen
  | csiSeq
  | string
  | stringEsc
  | skipOne
deriving DecidableEq

/-- The parser's state. -/
structure AnsiState where
  mode : Mode
  seq : List CodeUnit
  seqOver : Bool
  strLen : ℕ
  bold : Bool
  dim : Bool
  fg : Option ℤ
  bg : Option ℤ
  unknown : ℕ
deriving DecidableEq

def newAnsiState : AnsiState := ⟨.ground, [], false, 0, false, false, none, none, 0⟩

def classOf (st : AnsiState) : String :=
  " ".intercalate ((if st.bold then ["a-b"] else []) ++ (if st.dim then ["a-dim"] else []) ++
    (st.fg.map fun n => s!"a-fg{n}").toList ++ (st.bg.map fun n => s!"a-bg{n}").toList)

/-- A render operation. -/
inductive Op where
  | text (s : List CodeUnit) (cls : String)
  | nl
  | cr
  | bs
  | el
  | elAll
  | clear
deriving DecidableEq

inductive Render where
  | keep
  | flush
  | emit (op : Op)
  | put (ch : CodeUnit)

namespace AnsiState

variable (st : AnsiState)

def count : AnsiState := { st with unknown := st.unknown + 1 }

def setColour (p : ℤ) (colour : Option ℤ) : AnsiState :=
  if p = 38 then { st with fg := colour } else { st with bg := colour }

end AnsiState

def applySgr : AnsiState → ℕ → List ℤ → AnsiState
  | st, _, [] => st
  | st, skip + 1, _ :: params => applySgr st skip params
  | st, 0, p :: params =>
    if p = 0 then applySgr { st with bold := false, dim := false, fg := none, bg := none } 0 params
    else if p = 1 then applySgr { st with bold := true } 0 params
    else if p = 2 then applySgr { st with dim := true } 0 params
    else if p = 22 then applySgr { st with bold := false, dim := false } 0 params
    else if 30 ≤ p ∧ p ≤ 37 then applySgr { st with fg := some (p - 30) } 0 params
    else if p = 39 then applySgr { st with fg := none } 0 params
    else if 40 ≤ p ∧ p ≤ 47 then applySgr { st with bg := some (p - 40) } 0 params
    else if p = 49 then applySgr { st with bg := none } 0 params
    else if 90 ≤ p ∧ p ≤ 97 then applySgr { st with fg := some (p - 90 + 8) } 0 params
    else if 100 ≤ p ∧ p ≤ 107 then applySgr { st with bg := some (p - 100 + 8) } 0 params
    else if p = 38 ∨ p = 48 then
      -- extended colour: its sub-parameters are skipped, not read as attributes
      if params.head? = some 5 then
        match params[1]?.filter fun n => 0 ≤ n ∧ n < 16 with
        | some n => applySgr (st.setColour p (some n)) 2 params
        | none => applySgr (st.setColour p none).count 2 params
      else if params.head? = some 2 then applySgr (st.setColour p none).count 4 params
      else st.count
    else applySgr st.count 0 params

def parseParam (p : List CodeUnit) : ℤ :=
  let value (ds : List CodeUnit) : ℤ :=
    (ds.takeWhile fun c => 0x30 ≤ c ∧ c ≤ 0x39).foldl (fun n c => 10 * n + (c.toNat - 0x30)) 0
  match p.dropWhile (· = 0x20) with
  | 0x2d :: ds => -value ds
  | 0x2b :: ds => value ds
  | ds => value ds

def handleCsi (st : AnsiState) (seq : List CodeUnit) (final : CodeUnit) : AnsiState × Render :=
  if seq.head?.any fun c => 0x3c ≤ c ∧ c ≤ 0x3f then (st.count, .keep)
  else
    let params := (seq.splitOn 0x3b).map parseParam
    if final = 0x6d then (applySgr st 0 params, .flush)
    else if final = 0x4b then
      if params.head? = some 0 then (st, .emit .el)
      else if params.head? = some 2 then (st, .emit .elAll)
      else (st.count, .keep)
    else if final = 0x4a then
      if params.head? = some 2 ∨ params.head? = some 3 then (st, .emit .clear) else (st.count, .keep)
    else if final = 0x48 ∨ final = 0x66 then
      if seq = [] ∨ seq = [0x31] ∨ seq = [0x31, 0x3b, 0x31] then (st, .emit .clear)
      else (st.count, .keep)
    else (st.count, .keep)

def step (st : AnsiState) (ch : CodeUnit) : AnsiState × Render × Bool :=
  match st.mode with
  | .ground =>
    if ch = 0x1b then ({ st with mode := .escSeen }, .flush, false)
    else if ch = 0x0a then (st, .emit .nl, false)
    else if ch = 0x0d then (st, .emit .cr, false)
    else if ch = 0x08 then (st, .emit .bs, false)
    else if ch = 0x09 then (st, .put ch, false)
    else if ch < 0x20 ∨ ch = 0x7f then (st.count, .keep, false)
    else (st, .put ch, false)
  | .escSeen =>
    if ch = 0x5b then ({ st with mode := .csiSeq, seq := [], seqOver := false }, .keep, false)
    else if ch ∈ [0x5d, 0x50, 0x58, 0x5e, 0x5f] then
      ({ st with mode := .string, strLen := 0 }, .keep, false)
    else if ch ∈ [0x28, 0x29, 0x2a, 0x2b, 0x23, 0x25] then
      ({ st with mode := .skipOne }, .keep, false)
    else ({ st.count with mode := .ground }, .keep, false)
  | .csiSeq =>
    let ended := { st with mode := .ground, seq := [], seqOver := false }
    if 0x40 ≤ ch ∧ ch ≤ 0x7e then
      if st.seqOver then (ended.count, .keep, false)
      else
        let (st, render) := handleCsi ended st.seq ch
        (st, render, false)
    else if 0x20 ≤ ch ∧ ch ≤ 0x3f then
      if st.seq.length < maxSeq then ({ st with seq := st.seq ++ [ch] }, .keep, false)
      else ({ st with seqOver := true }, .keep, false)
    else (ended.count, .keep, true)
  | .string =>
    let st := { st with strLen := st.strLen + 1 }
    if ch = 0x07 then ({ st.count with mode := .ground }, .keep, false)
    else if ch = 0x1b then ({ st with mode := .stringEsc }, .keep, false)
    else if st.strLen > maxString then ({ st.count with mode := .ground }, .keep, false)
    else (st, .keep, false)
  | .stringEsc =>
    let st := { st with strLen := st.strLen + 1 }
    if ch = 0x5c then ({ st.count with mode := .ground }, .keep, false)
    else if st.strLen > maxString then ({ st.count with mode := .ground }, .keep, false)
    else ({ st with mode := .string }, .keep, false)
  | .skipOne => ({ st.count with mode := .ground }, .keep, false)

/-! ### A call -/

structure Call where
  st : AnsiState
  ops : List Op
  run : List CodeUnit
  runCls : String

namespace Call

variable (c : Call)

def flush : Call := if c.run = [] then c else { c with ops := c.ops ++ [.text c.run c.runCls], run := [] }

def render : Render → Call
  | .keep => c
  | .flush => c.flush
  | .emit op => { c.flush with ops := c.flush.ops ++ [op] }
  | .put ch => { c with
    run := c.run ++ [ch]
    runCls := if c.run = [] then classOf c.st else c.runCls }

def loop : ℕ → Call → List CodeUnit → Option Call
  | _, c, [] => some c
  | 0, _, _ :: _ => none
  | fuel + 1, c, ch :: text =>
    let (st, render, again) := step c.st ch
    loop fuel { c.render render with st } (if again then ch :: text else text)

end Call

def parseAnsi (st : AnsiState) (text : List CodeUnit) : Option (AnsiState × List Op) :=
  (Call.loop (2 * text.length) ⟨st, [], [], ""⟩ text).map fun c => (c.st, c.flush.ops)

def parsePieces : AnsiState → List (List CodeUnit) → Option (AnsiState × List Op)
  | st, [] => some (st, [])
  | st, piece :: pieces =>
    match parseAnsi st piece with
    | none => none
    | some (st, ops) => (parsePieces st pieces).map fun (st, more) => (st, ops ++ more)

/-! ### Merging -/

def mergeOp : Op → List Op → List Op
  | .text s c, .text t d :: ops =>
    if c = d then .text (s ++ t) c :: ops else .text s c :: .text t d :: ops
  | op, ops => op :: ops

def merge (ops : List Op) : List Op := ops.foldr mergeOp []

theorem mergeOp_text_text (s t : List CodeUnit) (c : String) (ops : List Op) :
    mergeOp (.text s c) (mergeOp (.text t c) ops) = mergeOp (.text (s ++ t) c) ops := by
  cases ops with
  | nil => simp [mergeOp]
  | cons op ops =>
    cases op with
    | text u d =>
      by_cases h : c = d
      · simp [mergeOp, h]
      · simp [mergeOp, h]
    | nl | cr | bs | el | elAll | clear => simp [mergeOp]

theorem foldr_mergeOp (op : Op) (ops acc : List Op) :
    (mergeOp op ops).foldr mergeOp acc = mergeOp op (ops.foldr mergeOp acc) := by
  cases ops with
  | nil => cases op <;> rfl
  | cons head ops =>
    cases op with
    | text s c =>
      cases head with
      | text t d =>
        by_cases h : c = d
        · subst h
          rw [show mergeOp (.text s c) (.text t c :: ops) = .text (s ++ t) c :: ops from if_pos rfl,
            foldr_cons, foldr_cons, mergeOp_text_text]
        · simp [mergeOp, h]
      | nl | cr | bs | el | elAll | clear => rfl
    | nl | cr | bs | el | elAll | clear => cases head <;> rfl

theorem foldr_merge (ops acc : List Op) : (merge ops).foldr mergeOp acc = ops.foldr mergeOp acc := by
  induction ops with
  | nil => rfl
  | cons op ops ih => rw [merge, foldr_cons, foldr_mergeOp, ← merge, ih, foldr_cons]

theorem merge_eq_nil {ops : List Op} (h : merge ops = []) : ops = [] := by
  cases ops with
  | nil => rfl
  | cons op ops =>
    rw [merge, foldr_cons, ← merge] at h
    cases hm : merge ops with
    | nil => cases op <;> simp [hm, mergeOp] at h
    | cons head rest =>
      rw [hm] at h
      unfold mergeOp at h
      split at h
      · split_ifs at h
      · cases h

theorem merge_append_congr {a a' b b' : List Op} (ha : merge a = merge a') (hb : merge b = merge b') :
    merge (a ++ b) = merge (a' ++ b') := by
  rw [merge, foldr_append, merge, foldr_append, ← merge, ← merge, ← foldr_merge a,
    ← foldr_merge a', ha, hb]

def Render.ops (st : AnsiState) : Render → List Op
  | .keep | .flush => []
  | .emit op => [op]
  | .put ch => [.text [ch] (classOf st)]

def readOne (st : AnsiState) (ch : CodeUnit) : AnsiState × List Op :=
  let first := step st ch
  if first.2.2 then
    let second := step first.1 ch
    (second.1, first.2.1.ops st ++ second.2.1.ops first.1)
  else (first.1, first.2.1.ops st)

def reads : AnsiState → List CodeUnit → AnsiState × List Op
  | st, [] => (st, [])
  | st, ch :: text =>
    ((reads (readOne st ch).1 text).1, (readOne st ch).2 ++ (reads (readOne st ch).1 text).2)

theorem reads_append (st : AnsiState) (a b : List CodeUnit) :
    reads st (a ++ b) =
      ((reads (reads st a).1 b).1, (reads st a).2 ++ (reads (reads st a).1 b).2) := by
  induction a generalizing st with
  | nil => rfl
  | cons ch a ih => simp [reads, ih]

theorem classOf_handleCsi (st : AnsiState) (seq : List CodeUnit) (final : CodeUnit) :
    (handleCsi st seq final).2 = .flush ∨ classOf (handleCsi st seq final).1 = classOf st := by
  unfold handleCsi
  dsimp only
  split_ifs
  all_goals first | exact .inl rfl | exact .inr rfl

theorem step_cases (st : AnsiState) (ch : CodeUnit) :
    ((step st ch).2.1 = .flush ∨ (∃ op, (step st ch).2.1 = .emit op) ∨
        classOf (step st ch).1 = classOf st) ∧
      ((step st ch).2.2 = true → st.mode = .csiSeq ∧ (step st ch).1.mode = .ground) := by
  unfold step
  cases hm : st.mode with
  | csiSeq =>
    dsimp only
    split_ifs
    · exact ⟨.inr (.inr rfl), nofun⟩
    · refine ⟨?_, nofun⟩
      rcases classOf_handleCsi { st with mode := .ground, seq := [], seqOver := false } st.seq ch with
        h | h
      · exact .inl h
      · exact .inr (.inr h)
    · exact ⟨.inr (.inr rfl), nofun⟩
    · exact ⟨.inr (.inr rfl), nofun⟩
    · exact ⟨.inr (.inr rfl), fun _ => ⟨rfl, rfl⟩⟩
  | skipOne => exact ⟨.inr (.inr rfl), nofun⟩
  | ground | escSeen | string | stringEsc =>
    dsimp only
    split_ifs
    all_goals
      refine ⟨?_, nofun⟩
      first | exact .inl rfl | exact .inr (.inl ⟨_, rfl⟩) | exact .inr (.inr rfl)

theorem step_reread {st : AnsiState} {ch : CodeUnit} (h : (step st ch).2.2 = true) :
    (step (step st ch).1 ch).2.2 = false := by
  obtain ⟨-, hground⟩ := (step_cases st ch).2 h
  by_contra hne
  obtain ⟨hcsi, -⟩ := (step_cases (step st ch).1 ch).2 (by simpa using hne)
  rw [hground] at hcsi
  cases hcsi

namespace Call

variable {c : Call}

def Worn (c : Call) : Prop := c.run ≠ [] → c.runCls = classOf c.st

@[simp] theorem flush_run (c : Call) : c.flush.run = [] := by
  unfold flush
  split_ifs with h
  · exact h
  · rfl

theorem flush_of_run (h : c.run = []) : c.flush = c := if_pos h

theorem merge_render (h : c.Worn) (r : Render) :
    merge (c.render r).flush.ops = merge (c.flush.ops ++ r.ops c.st) := by
  cases r with
  | keep => simp [render, Render.ops]
  | flush => simp [render, Render.ops, flush_of_run c.flush_run]
  | emit op =>
    rw [flush_of_run (c := c.render (.emit op)) c.flush_run]
    rfl
  | put ch =>
    by_cases hrun : c.run = []
    · simp [render, Render.ops, flush, hrun]
    · have hflush : c.flush.ops = c.ops ++ [.text c.run (classOf c.st)] := by
        rw [flush, if_neg hrun, ← h hrun]
      have hput : (c.render (.put ch)).flush.ops = c.ops ++ [.text (c.run ++ [ch]) (classOf c.st)] := by
        simp [render, flush, hrun, ← h hrun]
      rw [hflush, hput, append_assoc]
      exact merge_append_congr rfl (by simp [merge, mergeOp, Render.ops])

def round (c : Call) (ch : CodeUnit) : Call :=
  { c.render (step c.st ch).2.1 with st := (step c.st ch).1 }

theorem loop_cons (fuel : ℕ) (c : Call) (ch : CodeUnit) (text : List CodeUnit) :
    loop (fuel + 1) c (ch :: text) =
      loop fuel (c.round ch) (if (step c.st ch).2.2 then ch :: text else text) := rfl

theorem merge_round (h : c.Worn) (ch : CodeUnit) :
    merge (c.round ch).flush.ops = merge (c.flush.ops ++ (step c.st ch).2.1.ops c.st) := by
  have hst : (c.round ch).flush.ops = (c.render (step c.st ch).2.1).flush.ops := by
    unfold round flush
    split_ifs <;> rfl
  rw [hst, merge_render h]

theorem worn_round (h : c.Worn) (ch : CodeUnit) : (c.round ch).Worn := by
  have hclass := (step_cases c.st ch).1
  unfold round
  generalize (step c.st ch).2.1 = r at hclass ⊢
  cases r with
  | flush | emit => exact fun hrun => absurd c.flush_run hrun
  | keep =>
    have he : classOf (step c.st ch).1 = classOf c.st := by simpa using hclass
    exact fun hrun => (h hrun).trans he.symm
  | put x =>
    have he : classOf (step c.st ch).1 = classOf c.st := by simpa using hclass
    intro _
    change (if c.run = [] then classOf c.st else c.runCls) = classOf (step c.st ch).1
    rw [he]
    split_ifs with hrun
    · rfl
    · exact h hrun

theorem loop_readOne (h : c.Worn) (ch : CodeUnit) (fuel : ℕ) (text : List CodeUnit) :
    ∃ c' f, fuel ≤ f ∧ loop (fuel + 2) c (ch :: text) = loop f c' text ∧ c'.Worn ∧
      c'.st = (readOne c.st ch).1 ∧
      merge c'.flush.ops = merge (c.flush.ops ++ (readOne c.st ch).2) := by
  rw [loop_cons]
  unfold readOne
  dsimp only
  cases hagain : (step c.st ch).2.2 with
  | false => exact ⟨c.round ch, fuel + 1, by omega, rfl, worn_round h ch, rfl, merge_round h ch⟩
  | true =>
    have honce := step_reread hagain
    have hworn := worn_round h ch
    refine ⟨(c.round ch).round ch, fuel, le_rfl, ?_, worn_round hworn ch, rfl, ?_⟩
    · rw [if_pos rfl, loop_cons, show (step (c.round ch).st ch).2.2 = false from honce]
      rfl
    · rw [merge_round hworn, if_pos rfl, ← append_assoc]
      exact merge_append_congr (merge_round h ch) rfl

theorem loop_reads {fuel : ℕ} {text : List CodeUnit} (h : c.Worn) (hfuel : 2 * text.length ≤ fuel) :
    ∃ c', loop fuel c text = some c' ∧ c'.st = (reads c.st text).1 ∧
      merge c'.flush.ops = merge (c.flush.ops ++ (reads c.st text).2) := by
  induction text generalizing fuel c with
  | nil =>
    refine ⟨c, ?_, rfl, by simp [reads]⟩
    cases fuel <;> rfl
  | cons ch text ih =>
    rw [length_cons] at hfuel
    obtain ⟨f, rfl⟩ : ∃ f, fuel = f + 2 := ⟨fuel - 2, by omega⟩
    obtain ⟨d, f', hf, hround, hworn, hst, hops⟩ := loop_readOne h ch f text
    obtain ⟨c', hloop, hst', hops'⟩ := ih hworn (by omega : 2 * text.length ≤ f')
    refine ⟨c', hround.trans hloop, by rw [hst', hst, reads], ?_⟩
    rw [hops', hst, reads, ← append_assoc]
    exact merge_append_congr hops rfl

end Call

theorem parseAnsi_reads (st : AnsiState) (text : List CodeUnit) :
    ∃ ops, parseAnsi st text = some ((reads st text).1, ops) ∧ merge ops = merge (reads st text).2 := by
  obtain ⟨c, hloop, hst, hops⟩ :=
    Call.loop_reads (c := ⟨st, [], [], ""⟩) (fun h => absurd rfl h) (le_refl (2 * text.length))
  exact ⟨c.flush.ops, by rw [parseAnsi, hloop, ← hst]; rfl, hops⟩

theorem parsePieces_reads (st : AnsiState) (pieces : List (List CodeUnit)) :
    ∃ ops, parsePieces st pieces = some ((reads st pieces.flatten).1, ops) ∧
      merge ops = merge (reads st pieces.flatten).2 := by
  induction pieces generalizing st with
  | nil => exact ⟨[], rfl, rfl⟩
  | cons piece pieces ih =>
    obtain ⟨ops, hparse, hops⟩ := parseAnsi_reads st piece
    obtain ⟨more, hrest, hmore⟩ := ih (reads st piece).1
    rw [flatten_cons, reads_append]
    refine ⟨ops ++ more, ?_, merge_append_congr hops hmore⟩
    rw [parsePieces, hparse]
    dsimp only
    rw [hrest]
    rfl

/-! ### Bounds -/

@[simp] theorem AnsiState.setColour_seq (st : AnsiState) (p : ℤ) (colour : Option ℤ) :
    (st.setColour p colour).seq = st.seq := by
  unfold setColour
  split_ifs <;> rfl

@[simp] theorem AnsiState.count_seq (st : AnsiState) : st.count.seq = st.seq := rfl

theorem applySgr_seq (st : AnsiState) (skip : ℕ) (params : List ℤ) :
    (applySgr st skip params).seq = st.seq := by
  fun_induction applySgr st skip params <;> simp_all

theorem handleCsi_seq (st : AnsiState) (seq : List CodeUnit) (final : CodeUnit) :
    (handleCsi st seq final).1.seq = st.seq := by
  unfold handleCsi
  dsimp only
  split_ifs
  all_goals first | rfl | exact applySgr_seq _ _ _

variable {st : AnsiState} {ch : CodeUnit} {left : ℕ}

theorem step_seq (h : st.seq.length ≤ maxSeq) (ch : CodeUnit) :
    (step st ch).1.seq.length ≤ maxSeq := by
  unfold step
  cases hm : st.mode with
  | csiSeq =>
    dsimp only
    split_ifs with _ _ _ hlen
    · exact Nat.zero_le _
    · rw [handleCsi_seq]
      exact Nat.zero_le _
    · rw [length_append]
      exact hlen
    · exact h
    · exact Nat.zero_le _
  | skipOne => exact h
  | ground | escSeen | string | stringEsc =>
    dsimp only
    split_ifs
    all_goals first | exact h | exact Nat.zero_le _

theorem reads_seq (h : st.seq.length ≤ maxSeq) (text : List CodeUnit) :
    (reads st text).1.seq.length ≤ maxSeq := by
  induction text generalizing st with
  | nil => exact h
  | cons ch text ih =>
    refine ih ?_
    unfold readOne
    dsimp only
    split_ifs
    · exact step_seq (step_seq h ch) ch
    · exact step_seq h ch

def InString (left : ℕ) (st : AnsiState) : Prop :=
  st.strLen + left = maxString + 2 ∧ (st.mode = .string ∧ 2 ≤ left ∨ st.mode = .stringEsc ∧ 1 ≤ left)

theorem readOne_of_keep {st' : AnsiState} (h : step st ch = (st', .keep, false)) :
    readOne st ch = (st', []) := by
  rw [readOne, h]
  rfl

theorem readOne_inString (h : InString (left + 1) st) (ch : CodeUnit) :
    ∃ st', readOne st ch = (st', []) ∧ (st'.mode = .ground ∨ InString left st') := by
  suffices hstep : ∃ st', step st ch = (st', .keep, false) ∧
      (st'.mode = .ground ∨ InString left st') by
    obtain ⟨st', hstep, hend⟩ := hstep
    exact ⟨st', readOne_of_keep hstep, hend⟩
  unfold step
  obtain ⟨hlen, ⟨hm, hleft⟩ | ⟨hm, hleft⟩⟩ := h
  · rw [hm]
    dsimp only
    split_ifs with _ _ hover
    · exact ⟨_, rfl, .inl rfl⟩
    · exact ⟨_, rfl, .inr ⟨by dsimp only; omega, .inr ⟨rfl, by omega⟩⟩⟩
    · exact ⟨_, rfl, .inl rfl⟩
    · exact ⟨_, rfl, .inr ⟨by dsimp only; omega, .inl ⟨rfl, by omega⟩⟩⟩
  · rw [hm]
    dsimp only
    split_ifs with _ hover
    · exact ⟨_, rfl, .inl rfl⟩
    · exact ⟨_, rfl, .inl rfl⟩
    · exact ⟨_, rfl, .inr ⟨by dsimp only; omega, .inl ⟨rfl, by omega⟩⟩⟩

theorem reads_inString (h : InString left st) {text : List CodeUnit} (hlen : left ≤ text.length) :
    ∃ k ≤ left, (reads st (text.take k)).1.mode = .ground ∧ (reads st (text.take k)).2 = [] := by
  induction left generalizing st text with
  | zero => rcases h.2 with ⟨-, h⟩ | ⟨-, h⟩ <;> omega
  | succ left ih =>
    cases text with
    | nil => simp at hlen
    | cons ch text =>
      obtain ⟨st', hone, hground | hin⟩ := readOne_inString h ch
      · exact ⟨1, by omega, by simp [reads, hone, hground], by simp [reads, hone]⟩
      · have hrest : left ≤ text.length := by simpa using hlen
        obtain ⟨k, hk, hmode, hnone⟩ := ih hin hrest
        exact ⟨k + 1, by omega, by simp [reads, hone, hmode], by simp [reads, hone, hnone]⟩

theorem readOne_enters (hm : st.mode = .escSeen) (h : (step st ch).1.mode = .string) :
    ∃ st', readOne st ch = (st', []) ∧ InString (maxString + 2) st' := by
  suffices hstep : ∃ st', step st ch = (st', .keep, false) ∧ InString (maxString + 2) st' by
    obtain ⟨st', hstep, hin⟩ := hstep
    exact ⟨st', readOne_of_keep hstep, hin⟩
  unfold step at h ⊢
  rw [hm] at h ⊢
  dsimp only at h ⊢
  split_ifs at h ⊢
  exact ⟨_, rfl, Nat.zero_add _, .inl ⟨rfl, by omega⟩⟩

theorem parser_chunk_invariant {calls : List (List CodeUnit)} {st : AnsiState} {rendered : List Op}
    (hst : parsePieces newAnsiState calls = some (st, rendered)) :
    (∀ pieces, ∃ st' ops ops', parseAnsi st pieces.flatten = some (st', ops) ∧
        parsePieces st pieces = some (st', ops') ∧ merge ops' = merge ops) ∧
      (∀ ch, (step st ch).2.2 = true → (step (step st ch).1 ch).2.2 = false) ∧
      (st.seq.length ≤ maxSeq ∧ ∀ ch, (step st ch).1.seq.length ≤ maxSeq) ∧
      ∀ ch, st.mode = .escSeen → (step st ch).1.mode = .string →
        ∀ text : List CodeUnit, maxString + 2 ≤ text.length →
          ∃ k ≤ maxString + 2, ∃ st', parseAnsi st (ch :: text.take k) = some (st', []) ∧
            st'.mode = .ground := by
  have hseq : st.seq.length ≤ maxSeq := by
    obtain ⟨ops, hcalls, -⟩ := parsePieces_reads newAnsiState calls
    obtain ⟨rfl, -⟩ := Prod.mk.inj (Option.some.inj (hst.symm.trans hcalls))
    exact reads_seq (Nat.zero_le _) _
  refine ⟨fun pieces => ?_, fun ch => step_reread, ⟨hseq, step_seq hseq⟩, fun ch hm henter text hlen => ?_⟩
  · obtain ⟨ops, hwhole, hops⟩ := parseAnsi_reads st pieces.flatten
    obtain ⟨ops', hpieces, hops'⟩ := parsePieces_reads st pieces
    exact ⟨_, ops, ops', hwhole, hpieces, hops'.trans hops.symm⟩
  · obtain ⟨st₁, hfirst, hin⟩ := readOne_enters hm henter
    obtain ⟨k, hk, hground, hnone⟩ := reads_inString hin hlen
    obtain ⟨ops, hparse, hops⟩ := parseAnsi_reads st (ch :: text.take k)
    have hempty : (reads st (ch :: text.take k)).2 = [] := by rw [reads, hfirst, hnone]; rfl
    obtain rfl : ops = [] := merge_eq_nil (hops.trans (by rw [hempty]; rfl))
    exact ⟨k, hk, _, hparse, by rw [reads, hfirst]; exact hground⟩

theorem parser_chunk_invariant_colour :
    ∃ st' ops ops', parseAnsi newAnsiState [0x1b, 0x5b, 0x33, 0x31, 0x6d, 0x41, 0x42] = some (st', ops) ∧
      parsePieces newAnsiState [[0x1b, 0x5b, 0x33], [0x31, 0x6d, 0x41], [0x42]] = some (st', ops') ∧
      merge ops' = merge ops :=
  (parser_chunk_invariant (show parsePieces newAnsiState [] = some _ from rfl)).1
    [[0x1b, 0x5b, 0x33], [0x31, 0x6d, 0x41], [0x42]]

end SerialNexus.Ansi
