import SerialNexus.LogConservation

/-! # A log's files hold what was written to them

A rotation renames the current file to one more than the highest number on disk, but for the largest
64-bit word, at which it stays; `rename(2)` replaces a file of that name without a word. -/

namespace SerialNexus

open List LogWorld

/-! ### Suffixes -/

theorem isDigit_of_mem_padded {padding n : ℕ} {c : Char} (h : c ∈ padded padding n) :
    c.isDigit = true := by
  rcases mem_append.mp h with h | h
  · rw [eq_of_mem_replicate h]
    rfl
  · exact Nat.isDigit_of_mem_toDigits (by decide) (by decide) h

theorem parseU64_padded (padding : ℕ) {n : ℕ} (h : n < u64Size) :
    parseU64 (padded padding n) = some n := by
  have hplus : ¬ (padded padding n).head? = some '+' := by
    intro hh
    exact absurd (isDigit_of_mem_padded (mem_of_mem_head? hh)) (by decide)
  have hne : padded padding n ≠ [] := by
    unfold padded
    exact append_ne_nil_of_right_ne_nil _ Nat.toDigits_ne_nil
  have hall : (padded padding n).all Char.isDigit = true :=
    all_eq_true.mpr fun c hc => isDigit_of_mem_padded hc
  have hval : Nat.ofDigitChars 10 (padded padding n) 0 = n := by
    rw [padded, Nat.ofDigitChars_append, Nat.ofDigitChars_replicate_zero, Nat.mul_zero,
      Nat.ofDigitChars_toDigits (by decide) (by decide)]
  unfold parseU64
  rw [if_neg hplus, if_pos ⟨hne, hall⟩, hval, if_pos h]

theorem parseU64_lt {s : List Char} {n : ℕ} (h : parseU64 s = some n) : n < u64Size := by
  unfold parseU64 at h
  generalize (if s.head? = some '+' then s.tail else s) = digits at h
  dsimp only at h
  split_ifs at h with _ hlt
  exact Option.some.inj h ▸ hlt

def filesBytes (files : List (List Char × List UInt8)) : List UInt8 := (files.map Prod.snd).flatten

@[simp] theorem filesBytes_append (as bs : List (List Char × List UInt8)) :
    filesBytes (as ++ bs) = filesBytes as ++ filesBytes bs := by
  simp [filesBytes]

theorem filesBytes_filter_length (files : List (List Char × List UInt8))
    (p : List Char × List UInt8 → Bool) :
    (filesBytes (files.filter p)).length + (filesBytes (files.filter fun f => !p f)).length =
      (filesBytes files).length := by
  induction files with
  | nil => rfl
  | cons f files ih =>
    cases hp : p f with
    | true | false => simp [hp, filesBytes] at ih ⊢; omega

theorem filesBytes_filter {files : List (List Char × List UInt8)}
    {p : List Char × List UInt8 → Bool} (h : ∀ f ∈ files, p f = false → f.2 = []) :
    filesBytes (files.filter p) = filesBytes files := by
  induction files with
  | nil => rfl
  | cons f files ih =>
    have ih := ih fun g hg => h g (mem_cons_of_mem _ hg)
    unfold filesBytes at ih ⊢
    cases hp : p f with
    | true => simp [hp, ih]
    | false => simp [hp, ih, h f mem_cons_self hp]

def Directory.Spares (d : Directory) (suffix : List Char) : Prop :=
  ∀ f ∈ d.rotated, f.1 = suffix → f.2 = []

instance (d : Directory) (suffix : List Char) : Decidable (d.Spares suffix) :=
  inferInstanceAs (Decidable (∀ f ∈ d.rotated, f.1 = suffix → f.2 = []))

theorem Directory.spares_iff (d : Directory) (suffix : List Char) :
    d.Spares suffix ↔
      filesBytes (d.rotated.filter fun f => f.1 ≠ suffix) = filesBytes d.rotated := by
  constructor
  · intro h
    exact filesBytes_filter fun f hf hp => h f hf (by simpa using hp)
  · intro h f hf hs
    have hlen := filesBytes_filter_length d.rotated fun f => f.1 ≠ suffix
    rw [h] at hlen
    have hnil : filesBytes (d.rotated.filter fun f => !decide (f.1 ≠ suffix)) = [] :=
      eq_nil_of_length_eq_zero (by omega)
    unfold filesBytes at hnil
    rw [flatten_eq_nil_iff] at hnil
    refine hnil f.2 (mem_map_of_mem (mem_filter.mpr ⟨hf, ?_⟩))
    simpa using hs

def LogWriter.live : LogWriter → Bool
  | .top | .waiting | .batch _ _ | .writing _ _ _ | .refused _ _ _ _ | .renaming _ _ _ => true
  | .reopening _ _ _ | .renameFailed _ | .reopenFailed _ | .leaving | .gone => false

namespace LogWorld

variable {w w' : LogWorld}

def NumberedUpTo (files : List (List Char × List UInt8)) (r : Option ℕ) : Prop :=
  ∀ f ∈ files, ∀ n, parseU64 f.1 = some n → ∃ m ∈ r, n ≤ m

structure Running (w : LogWorld) : Prop where
  opened : w.writer.live = true → w.dir.current.isSome
  numbered : w.writer.live = true → NumberedUpTo w.dir.rotated w.q.rotation
  atRename : ∀ next todo closing, w.writer = .renaming next todo closing →
    next = w.q.nextRotation
  atReopen : ∀ next todo closing, w.writer = .reopening next todo closing →
    next < u64Size ∧ NumberedUpTo w.dir.rotated (some next)
  small : ∀ r ∈ w.q.rotation, r < u64Size

structure FilesKept (w : LogWorld) : Prop where
  contents : w.dir.contents = w.before ++ bytesOf w.wrote
  splits : ∀ a b, w.wrote = a ++ .rotate :: b → ∃ front back, w.dir.rotated = front ++ back ∧
    filesBytes front = w.before ++ bytesOf a ∧
    filesBytes back ++ w.dir.current.getD [] = bytesOf b

def keepsFiles (w : LogWorld) (a : LogAct) : Bool :=
  match w.writer, a with
  | .renaming next _ _, .writer .done => w.dir.Spares (w.suffix next)
  | _, _ => true

theorem keepsFiles_iff (w : LogWorld) (a : LogAct) : w.keepsFiles a = true ↔
    (a = .writer .done → ∀ next todo closing, w.writer = .renaming next todo closing →
      w.dir.Spares (w.suffix next)) := by
  unfold keepsFiles
  split
  · next next todo closing hwr => simp [hwr]
  · next hno =>
    refine ⟨fun _ ha next todo closing hwr => ?_, fun _ => rfl⟩
    exact absurd ha (hno next todo closing hwr)

theorem nextRotation_lt (q : Queue) : q.nextRotation < u64Size := by
  unfold Queue.nextRotation
  cases hr : q.rotation with
  | none => exact u64Size_pos
  | some r => exact saturatingAdd_lt r 1

variable {next : ℕ} {todo : List QueueItem} {closing : Bool} {rest : Chunk} {ts a b : List Token}

theorem Running.suffix_fresh (hw : w.Running) (hr : w.q.rotation ≠ some (u64Size - 1))
    (hwr : w.writer = .renaming next todo closing) {f : List Char × List UInt8}
    (hf : f ∈ w.dir.rotated) : f.1 ≠ w.suffix next := by
  intro hs
  have hnext := hw.atRename next todo closing hwr
  have hparse : parseU64 f.1 = some next := by
    rw [hs, hnext]
    exact parseU64_padded _ (nextRotation_lt _)
  obtain ⟨m, hm, hle⟩ := hw.numbered (by rw [hwr]; rfl) f hf next hparse
  have hlt := hw.small m hm
  rw [Option.mem_def] at hm
  rw [hm] at hr
  have hne : m ≠ u64Size - 1 := fun h => hr (by rw [h])
  rw [hnext, Queue.nextRotation, hm] at hle
  simp only [Option.elim_some, saturatingAdd] at hle
  omega

theorem Running.keepsFiles (hw : w.Running) (hr : w.q.rotation ≠ some (u64Size - 1)) (a : LogAct) :
    w.keepsFiles a = true := by
  rw [keepsFiles_iff]
  rintro - next todo closing hwr f hf hs
  exact absurd hs (hw.suffix_fresh hr hwr hf)

theorem Queue.nextRotation_congr {q q' : Queue} (h : q'.rotation = q.rotation) :
    q'.nextRotation = q.nextRotation := by
  unfold Queue.nextRotation
  rw [h]

theorem Running.stays (hw : w.Running) (hl : w.writer.live = true)
    (hd : w'.dir.rotated = w.dir.rotated) (hc : w'.dir.current.isSome = w.dir.current.isSome)
    (hq : w'.q.rotation = w.q.rotation)
    (hn : ∀ next todo closing, w'.writer = .renaming next todo closing → next = w.q.nextRotation)
    (ho : ∀ next todo closing, w'.writer ≠ .reopening next todo closing) : w'.Running where
  opened _ := hc ▸ hw.opened hl
  numbered _ := by
    rw [hd, hq]
    exact hw.numbered hl
  atRename next todo closing h := by
    rw [Queue.nextRotation_congr hq]
    exact hn next todo closing h
  atReopen next todo closing h := absurd h (ho next todo closing)
  small := by
    rw [hq]
    exact hw.small

theorem Running.of_queue (hw : w.Running) {q : Queue} {offered : List Token}
    (hq : q.rotation = w.q.rotation) : Running { w with q, offered } where
  opened := hw.opened
  numbered := by
    dsimp only
    rw [hq]
    exact hw.numbered
  atRename next todo closing h := by
    dsimp only
    rw [Queue.nextRotation_congr hq]
    exact hw.atRename next todo closing h
  atReopen := hw.atReopen
  small := by
    dsimp only
    rw [hq]
    exact hw.small

theorem Running.of_not_live (hw : w.Running) (hl : w'.writer.live = false)
    (ho : ∀ next todo closing, w'.writer ≠ .reopening next todo closing)
    (hq : w'.q.rotation = w.q.rotation) : w'.Running where
  opened h := absurd h (by rw [hl]; decide)
  numbered h := absurd h (by rw [hl]; decide)
  atRename next todo closing h := absurd hl (by rw [h]; simp [LogWriter.live])
  atReopen next todo closing h := absurd h (ho next todo closing)
  small := by
    rw [hq]
    exact hw.small

theorem drain_running (hw : w.Running) (hl : w.writer.live = true) : w.drain.Running := by
  unfold LogWorld.drain
  split
  · exact hw.stays hl rfl rfl rfl (by simp) (by simp)
  · exact hw.stays hl rfl rfl rfl (by simp) (by simp)

theorem nextItem_running (hw : w.Running) (hwr : w.writer = .batch todo closing) :
    (w.nextItem closing todo).Running := by
  have hl : w.writer.live = true := by rw [hwr]; rfl
  cases todo with
  | nil =>
    cases closing with
    | false | true => exact hw.stays hl rfl rfl rfl (by simp [nextItem]) (by simp [nextItem])
  | cons item todo =>
    cases item with
    | bytes | rotate => exact hw.stays hl rfl rfl rfl (by simp [nextItem]) (by simp [nextItem])

theorem writeSome_running (hw : w.Running) (hwr : w.writer = .writing rest todo closing)
    (result : SysResult) : (w.writeSome rest todo closing result).Running := by
  have hl : w.writer.live = true := by rw [hwr]; rfl
  unfold writeSome
  split
  · exact hw.stays hl rfl rfl rfl (by simp) (by simp)
  · split
    · exact hw.stays hl rfl rfl rfl (by simp) (by simp)
    · exact hw.stays hl rfl (by simp [Directory.append]) rfl (by simp) (by simp)
    · exact hw.stays hl rfl rfl rfl (by simp) (by simp)
    · exact hw
    · exact hw

theorem refuse_running {error : String} (hw : w.Running)
    (hwr : w.writer = .refused rest error todo closing) :
    (w.refuse rest error todo closing).Running := by
  have hl : w.writer.live = true := by rw [hwr]; rfl
  unfold refuse
  dsimp only
  split
  · exact hw.stays hl rfl rfl rfl (by simp) (by simp)
  · exact hw.stays hl rfl rfl rfl (by simp) (by simp)

theorem rename_running (hw : w.Running) (hwr : w.writer = .renaming next todo closing)
    (result : SysResult) : (w.rename next todo closing result).Running := by
  have hnext := hw.atRename _ _ _ hwr
  have hnum := hw.numbered (by rw [hwr]; rfl)
  cases result with
  | done =>
    refine ⟨by simp [rename, LogWriter.live], by simp [rename, LogWriter.live], by simp [rename],
      ?_, hw.small⟩
    rintro next' todo' closing' h
    obtain ⟨rfl, -, -⟩ : next = next' ∧ todo = todo' ∧ closing = closing' := by
      simpa [rename] using h
    have hlt : next < u64Size := hnext ▸ nextRotation_lt _
    refine ⟨hlt, ?_⟩
    intro f hf n hn
    rcases mem_append.mp hf with hf | hf
    · obtain ⟨m, hm, hle⟩ := hnum f (mem_filter.mp hf).1 n hn
      have hm' := hw.small m hm
      refine ⟨next, rfl, ?_⟩
      rw [hnext, Queue.nextRotation, Option.mem_def.mp hm]
      simp only [Option.elim_some, saturatingAdd]
      omega
    · obtain rfl := mem_singleton.mp hf
      rw [suffix, parseU64_padded _ hlt] at hn
      exact ⟨next, rfl, (Option.some.inj hn).ge⟩
  | failed e => exact hw.of_not_live rfl (by simp [rename]) rfl
  | stored | interrupted => exact hw

theorem reopen_running (hw : w.Running) (hwr : w.writer = .reopening next todo closing)
    (result : SysResult) : (w.reopen next todo closing result).Running := by
  obtain ⟨hlt, hnum⟩ := hw.atReopen _ _ _ hwr
  cases result with
  | done =>
    refine ⟨fun _ => rfl, fun _ => hnum, by simp [reopen], by simp [reopen], ?_⟩
    intro r hr
    obtain rfl : next = r := by simpa [reopen] using hr
    exact hlt
  | failed e => exact hw.of_not_live rfl (by simp [reopen]) rfl
  | stored | interrupted => exact hw

theorem step_running (hw : w.Running) (a : LogAct) : (w.step a).Running := by
  cases a with
  | offer chunk => exact hw.of_queue (w.q.enqueue_takes chunk).rotation
  | rotate =>
    change w.requestRotate.Running
    unfold requestRotate
    split
    · next hr =>
      rw [Queue.rotate_error hr]
      exact hw
    · next hr => exact hw.of_queue (Queue.rotate_ok_takes hr).rotation
  | close => exact hw.of_queue rfl
  | writer result =>
    change (w.stepWriter result).Running
    unfold stepWriter
    split
    · next hwr => exact drain_running (hw.of_queue rfl) (by simp [hwr, LogWriter.live])
    · next hwr => exact drain_running hw (by rw [hwr]; rfl)
    · next hwr => exact nextItem_running hw hwr
    · next hwr => exact writeSome_running hw hwr result
    · next hwr => exact refuse_running hw hwr
    · next hwr => exact rename_running hw hwr result
    · next hwr => exact reopen_running hw hwr result
    · exact hw.of_not_live rfl (by simp) rfl
    · exact hw.of_not_live rfl (by simp) rfl
    · exact hw.of_not_live rfl (by simp) rfl
    · exact hw

theorem Directory.contents_eq (d : Directory) :
    d.contents = filesBytes d.rotated ++ d.current.getD [] := rfl

theorem FilesKept.of_same (hf : w.FilesKept) (hd : w'.dir = w.dir) (hb : w'.before = w.before)
    (hm : w'.wrote = w.wrote) : w'.FilesKept := by
  refine ⟨by rw [hd, hb, hm]; exact hf.contents, ?_⟩
  rw [hd, hb, hm]
  exact hf.splits

theorem eq_of_append_chunk {chunk : Chunk} (h : ts ++ chunkTokens chunk = a ++ .rotate :: b) :
    ∃ b', ts = a ++ .rotate :: b' ∧ b = b' ++ chunkTokens chunk := by
  have hnot : Token.rotate ∉ chunkTokens chunk := fun hm => isByte_of_mem_chunkTokens hm rfl
  rcases append_eq_append_iff.mp h with ⟨c, -, hc⟩ | ⟨c, hc, hb⟩
  · exact absurd (hc ▸ mem_append_right _ mem_cons_self) hnot
  · cases c with
    | nil =>
      rw [nil_append] at hb
      exact absurd (hb ▸ mem_cons_self) hnot
    | cons t c =>
      rw [cons_append] at hb
      obtain ⟨rfl, hb'⟩ := List.cons.inj hb
      exact ⟨c, hc, hb'⟩

theorem eq_of_append_rotate (h : ts ++ [.rotate] = a ++ .rotate :: b) :
    (a = ts ∧ b = []) ∨ ∃ b', ts = a ++ .rotate :: b' ∧ b = b' ++ [.rotate] := by
  rcases b.eq_nil_or_concat with rfl | ⟨b', t, rfl⟩
  · exact .inl ⟨(append_cancel_right h).symm, rfl⟩
  · have h' : ts ++ [.rotate] = (a ++ .rotate :: b') ++ [t] := by simpa using h
    obtain ⟨hts, ht⟩ := append_inj' h' rfl
    exact .inr ⟨b', hts, by rw [(List.cons.inj ht).1, concat_eq_append]⟩

theorem FilesKept.append (hf : w.FilesKept) (hc : w.dir.current.isSome) (chunk : Chunk)
    {writer : LogWriter} :
    FilesKept { w with
      dir := w.dir.append chunk, wrote := w.wrote ++ chunkTokens chunk, writer } := by
  obtain ⟨cur, hcur⟩ := Option.isSome_iff_exists.mp hc
  have happ : (w.dir.append chunk).current.getD [] = w.dir.current.getD [] ++ chunk := by
    simp [Directory.append, hcur]
  refine ⟨?_, ?_⟩
  · have := hf.contents
    rw [Directory.contents_eq] at this ⊢
    dsimp only
    rw [happ, bytesOf_append, bytesOf_chunkTokens, ← append_assoc, ← append_assoc, ← this]
    rfl
  · intro a b h
    obtain ⟨b', hw, rfl⟩ := eq_of_append_chunk h
    obtain ⟨front, back, h1, h2, h3⟩ := hf.splits a b' hw
    refine ⟨front, back, h1, h2, ?_⟩
    dsimp only
    rw [happ, ← append_assoc, h3, bytesOf_append, bytesOf_chunkTokens]

theorem rename_filesKept_iff (hf : w.FilesKept) (next : ℕ) (todo : List QueueItem)
    (closing : Bool) :
    (w.rename next todo closing .done).FilesKept ↔ w.dir.Spares (w.suffix next) := by
  have hcontents := hf.contents
  rw [Directory.contents_eq] at hcontents
  have hafter : (w.rename next todo closing .done).dir.contents =
      filesBytes (w.dir.rotated.filter fun f => f.1 ≠ w.suffix next) ++ w.dir.current.getD [] := by
    simp [rename, Directory.rename, Directory.contents, filesBytes]
  have hbytes : bytesOf (w.rename next todo closing .done).wrote = bytesOf w.wrote := by
    simp [rename]
  rw [Directory.spares_iff]
  constructor
  · intro h
    have := h.contents
    rw [hafter, hbytes] at this
    exact append_cancel_right (this.trans hcontents.symm)
  · intro h
    have hspare := (w.dir.spares_iff _).mpr h
    refine ⟨by rw [hafter, h, hbytes, hcontents]; rfl, ?_⟩
    intro a b hab
    change w.wrote ++ [.rotate] = a ++ .rotate :: b at hab
    rcases eq_of_append_rotate hab with ⟨rfl, rfl⟩ | ⟨b', hw, rfl⟩
    · -- the rotation just made ends the last file
      refine ⟨(w.rename next todo closing .done).dir.rotated, [], by simp, ?_, rfl⟩
      have hlast : (w.rename next todo closing .done).dir.contents =
          filesBytes (w.rename next todo closing .done).dir.rotated := append_nil _
      rw [← hlast, hafter, h, hcontents]
      rfl
    · obtain ⟨front, back, h1, h2, h3⟩ := hf.splits a b' hw
      have hfront : filesBytes (front.filter fun f => f.1 ≠ w.suffix next) = filesBytes front :=
        filesBytes_filter fun f hf hp =>
          hspare f (h1 ▸ mem_append_left _ hf) (by simpa using hp)
      have hback : filesBytes (back.filter fun f => f.1 ≠ w.suffix next) = filesBytes back :=
        filesBytes_filter fun f hf hp =>
          hspare f (h1 ▸ mem_append_right _ hf) (by simpa using hp)
      refine ⟨front.filter fun f => f.1 ≠ w.suffix next,
        (back.filter fun f => f.1 ≠ w.suffix next) ++ [(w.suffix next, w.dir.current.getD [])],
        ?_, hfront.trans h2, ?_⟩
      · change (w.dir.rotated.filter _) ++ _ = _
        rw [h1, filter_append, append_assoc]
      · rw [filesBytes_append, hback, bytesOf_append]
        simpa [filesBytes, rename, Directory.rename] using h3

theorem reopen_filesKept (hf : w.FilesKept) (next : ℕ) (todo : List QueueItem) (closing : Bool)
    (result : SysResult) : (w.reopen next todo closing result).FilesKept := by
  cases result with
  | done => exact ⟨hf.contents, hf.splits⟩
  | failed e => exact hf.of_same rfl rfl rfl
  | stored | interrupted => exact hf

theorem drain_filesKept (hf : w.FilesKept) : w.drain.FilesKept := by
  unfold LogWorld.drain
  split
  · exact hf.of_same rfl rfl rfl
  · exact hf.of_same rfl rfl rfl

theorem step_filesKept (hw : w.Running) (hf : w.FilesKept) {a : LogAct}
    (ha : a = .writer .done → ∀ next todo closing, w.writer ≠ .renaming next todo closing) :
    (w.step a).FilesKept := by
  cases a with
  | offer | close => exact hf.of_same rfl rfl rfl
  | rotate =>
    change w.requestRotate.FilesKept
    unfold requestRotate
    split
    · exact hf.of_same rfl rfl rfl
    · exact hf.of_same rfl rfl rfl
  | writer result =>
    change (w.stepWriter result).FilesKept
    unfold stepWriter
    split
    · exact drain_filesKept (hf.of_same rfl rfl rfl)
    · exact drain_filesKept hf
    · unfold nextItem
      split
      · split <;> exact hf.of_same rfl rfl rfl
      · exact hf.of_same rfl rfl rfl
      · exact hf.of_same rfl rfl rfl
    · next hwr =>
      unfold writeSome
      split
      · exact hf.of_same rfl rfl rfl
      · split
        · exact hf.of_same rfl rfl rfl
        · exact hf.append (hw.opened (by rw [hwr]; rfl)) _
        · exact hf.of_same rfl rfl rfl
        · exact hf
        · exact hf
    · unfold refuse
      dsimp only
      split <;> exact hf.of_same rfl rfl rfl
    · next next todo closing hwr =>
      cases result with
      | done => exact absurd hwr (ha rfl next todo closing)
      | failed e => exact hf.of_same rfl rfl rfl
      | stored | interrupted => exact hf
    · exact reopen_filesKept hf _ _ _ result
    · exact hf.of_same rfl rfl rfl
    · exact hf.of_same rfl rfl rfl
    · exact hf.of_same rfl rfl rfl
    · exact hf

theorem step_filesKept_iff (hw : w.Running) (hf : w.FilesKept) (a : LogAct) :
    (w.step a).FilesKept ↔ w.keepsFiles a = true := by
  rw [keepsFiles_iff]
  by_cases hr : a = .writer .done ∧ ∃ next todo closing, w.writer = .renaming next todo closing
  · obtain ⟨rfl, next, todo, closing, hwr⟩ := hr
    have hstep : w.step (.writer .done) = w.rename next todo closing .done := by
      change w.stepWriter .done = _
      unfold stepWriter
      rw [hwr]
    rw [hstep, rename_filesKept_iff hf]
    constructor
    · rintro h - next' todo' closing' hwr'
      obtain ⟨rfl, -, -⟩ : next = next' ∧ todo = todo' ∧ closing = closing' := by
        simpa [hwr] using hwr'
      exact h
    · intro h
      exact h rfl next todo closing hwr
  · have hno : a = .writer .done → ∀ next todo closing, w.writer ≠ .renaming next todo closing :=
      fun ha next todo closing hwr => hr ⟨ha, next, todo, closing, hwr⟩
    exact ⟨fun _ ha next todo closing hwr => absurd hwr (hno ha next todo closing),
      fun _ => step_filesKept hw hf hno⟩

section runs
variable (cfg : LogConfig) (dir : Directory) (opened scanned spawned : Option String)

/-! ### Whole runs -/

theorem scanRotation_numbered (files : List (List Char × List UInt8)) :
    NumberedUpTo files (scanRotation files) := by
  intro f hf n hn
  have hmem : n ∈ files.filterMap fun f => parseU64 f.1 := mem_filterMap.mpr ⟨f, hf, hn⟩
  cases hmax : scanRotation files with
  | none =>
    rw [scanRotation, max?_eq_none_iff] at hmax
    rw [hmax] at hmem
    cases hmem
  | some m =>
    rw [scanRotation, max?_eq_some_iff] at hmax
    exact ⟨m, rfl, hmax.2 n hmem⟩

theorem scanRotation_lt {files : List (List Char × List UInt8)} {r : ℕ}
    (h : scanRotation files = some r) : r < u64Size := by
  rw [scanRotation, max?_eq_some_iff] at h
  obtain ⟨f, -, hf⟩ := mem_filterMap.mp h.1
  exact parseU64_lt hf

structure Fresh (w : LogWorld) (dir : Directory) : Prop where
  offered : w.offered = []
  wrote : w.wrote = []
  items : w.q.items = []
  queuedBytes : w.q.queuedBytes = 0
  droppedBytes : w.q.droppedBytes = 0
  contents : w.dir.contents = w.before
  writer : w.writer = .gone ∨ (w.writer = .top ∧ w.dir.current.isSome = true ∧
    w.dir.rotated = dir.rotated ∧ w.q.rotation = scanRotation dir.rotated)
  small : ∀ r ∈ w.q.rotation, r < u64Size

theorem create_fresh : (create cfg dir opened scanned spawned).Fresh dir := by
  cases opened with
  | some e =>
    refine ⟨rfl, rfl, rfl, rfl, rfl, rfl, .inl rfl, ?_⟩
    intro r hr
    cases scanned with
    | none => exact scanRotation_lt hr
    | some e' => cases hr
  | none =>
    cases scanned with
    | some e => exact ⟨rfl, rfl, rfl, rfl, rfl, rfl, .inl rfl, fun r hr => by cases hr⟩
    | none =>
      cases spawned with
      | some e => exact ⟨rfl, rfl, rfl, rfl, rfl, rfl, .inl rfl, fun r => scanRotation_lt⟩
      | none =>
        exact ⟨rfl, rfl, rfl, rfl, rfl, rfl, .inr ⟨rfl, rfl, rfl, rfl⟩, fun r => scanRotation_lt⟩

variable {dir}

theorem Fresh.streamed (hw : w.Fresh dir) : w.Streamed := by
  refine ⟨[], [], [], 0, 0, hw.offered, ?_, ?_, hw.droppedBytes, .inl rfl⟩
  · have : w.writer.remainder = [] := by
      rcases hw.writer with h | ⟨h, -⟩
      · rw [h]; rfl
      · rw [h]; rfl
    rw [hw.wrote, this]
    exact Thin.nil
  · rw [hw.items]
    exact Thin.nil

theorem Fresh.counted (hw : w.Fresh dir) : w.q.Counted := by
  rw [Queue.Counted, hw.queuedBytes, hw.items]
  rfl

theorem Fresh.running (hw : w.Fresh dir) : w.Running := by
  rcases hw.writer with h | ⟨h, hc, hd, hr⟩
  · exact ⟨by simp [h, LogWriter.live], by simp [h, LogWriter.live], by simp [h], by simp [h],
      hw.small⟩
  · refine ⟨fun _ => hc, fun _ => ?_, by simp [h], by simp [h], hw.small⟩
    rw [hd, hr]
    exact scanRotation_numbered dir.rotated

theorem Fresh.filesKept (hw : w.Fresh dir) : w.FilesKept := by
  refine ⟨by rw [hw.contents, hw.wrote, bytesOf_nil, append_nil], ?_⟩
  intro a b h
  rw [hw.wrote] at h
  exact absurd h (by simp)

structure Sound (w : LogWorld) : Prop where
  streamed : w.Streamed
  counted : w.q.Counted
  running : w.Running

theorem step_sound (hw : w.Sound) (a : LogAct) : (w.step a).Sound :=
  ⟨step_streamed hw.streamed a, step_counted hw.counted a, step_running hw.running a⟩

theorem Fresh.sound (hw : w.Fresh dir) : w.Sound := ⟨hw.streamed, hw.counted, hw.running⟩

theorem Sound.accounted (hw : w.Sound) : w.Accounted := hw.streamed.accounted hw.counted

variable (dir)

theorem log_conservation_iff {as : List LogAct}
    (h : machine.Legal (create cfg dir opened scanned spawned) as) :
    (machine.Always (fun w => w.Accounted ∧ w.FilesKept) (create cfg dir opened scanned spawned) as ↔
      machine.Each (fun w a => w.keepsFiles a = true) (create cfg dir opened scanned spawned) as) ∧
    ∀ w, machine.Reachable (create cfg dir opened scanned spawned) w →
      w.Accounted ∧ (w.q.rotation ≠ some (u64Size - 1) → ∀ a, w.keepsFiles a = true) := by
  have hfresh := create_fresh cfg dir opened scanned spawned
  have hinv : ∀ w a, Sound w → machine.ok w a → Sound (machine.step w a) :=
    fun w a hw _ => step_sound hw a
  refine ⟨?_, ?_⟩
  · refine Runs.Machine.always_iff_each (I := Sound) hinv ?_ hfresh.sound
      ⟨hfresh.sound.accounted, hfresh.filesKept⟩ h
    rintro w a hw - ⟨-, hfiles⟩
    have hiff := step_filesKept_iff hw.running hfiles a
    exact ⟨fun hp => hiff.mp hp.2, fun hk => ⟨(step_sound hw a).accounted, hiff.mpr hk⟩⟩
  · intro w hreach
    have hw : w.Sound := hreach.invariant hfresh.sound hinv
    exact ⟨hw.accounted, hw.running.keepsFiles⟩

end runs

/-! ### Two runs -/

def consoleLog : LogConfig := ⟨"/var/log", "/var/log/console", 1, .dropOldest⟩

def partialWriteRun : List LogAct :=
  [.offer [1, 2], .rotate, .offer [3], .close,
    .writer .done, .writer .done, .writer (.stored 1), .writer (.failed "ENOSPC"), .writer .done,
    .writer .done, .writer .done, .writer .done, .writer .done, .writer (.stored 1),
    .writer .interrupted, .writer .done, .writer .done]

theorem log_conservation_partialWriteRun :
    let start := create consoleLog ⟨[], none⟩ none none none
    let w := machine.run start partialWriteRun
    machine.Always (fun w => w.Accounted ∧ w.FilesKept) start partialWriteRun ∧
      w.dir = ⟨[(['0'], [1])], some [3]⟩ ∧ w.q.droppedBytes = 1 ∧ w.writer = .gone := by
  intro start w
  have hlegal : machine.Legal start partialWriteRun := by decide +kernel
  have hkeeps : machine.Each (fun w a => w.keepsFiles a = true) start partialWriteRun := by
    decide +kernel
  exact ⟨(log_conservation_iff consoleLog ⟨[], none⟩ none none none hlegal).1.mpr hkeeps,
    by decide +kernel⟩

def twoRotations : List LogAct :=
  [.offer [1], .rotate, .offer [2], .rotate,
    .writer .done, .writer .done, .writer (.stored 1), .writer .interrupted,
    .writer .done, .writer .done, .writer .done,
    .writer .done, .writer (.stored 1), .writer .interrupted,
    .writer .done, .writer .done, .writer .done]

theorem saturated_rotation_loses :
    let start := create consoleLog
      ⟨[("18446744073709551615".toList, [])], none⟩ none none none
    let w := machine.run start twoRotations
    machine.Legal start twoRotations ∧ bytesOf w.offered = [1, 2] ∧ w.q.droppedBytes = 0 ∧
      w.q.queuedBytes = 0 ∧ w.writer.remainder = [] ∧ w.before = [] ∧
      w.dir.contents = [2] ∧ ¬ w.FilesKept := by
  intro start w
  have hwrote : bytesOf w.wrote = [1, 2] := by decide +kernel
  have hcontents : w.before = [] ∧ w.dir.contents = [2] := by decide +kernel
  refine ⟨by decide +kernel, by decide +kernel, by decide +kernel, by decide +kernel,
    by decide +kernel, hcontents.1, hcontents.2, ?_⟩
  intro hkept
  have := hkept.contents
  rw [hcontents.1, hcontents.2, hwrote] at this
  exact absurd this (by decide)

end LogWorld

end SerialNexus
