import SerialNexus.RequestLines

/-! # Request lines do not depend on reads

`LineReader` is a reader of request lines, the socket it reads, and what the peer will still send,
in fills of any size.  A poll goes on from what is in the reader, whichever future it is of. -/

namespace SerialNexus

open List

def Fill.bytes : Fill → List UInt8
  | .data bytes => bytes
  | .failed => []

namespace RequestLines

def lineResult (line : List UInt8) : Except Unit LineRead :=
  if line.length > maxRequestLine then .ok .tooLong else takeLine line

def batch (stream : List UInt8) : List (Except Unit LineRead) :=
  let pieces := stream.splitOn 10
  (if pieces.getLast? = some [] then pieces.dropLast else pieces).map lineResult

theorem batch_nil : batch [] = [] := rfl

theorem batch_tail {tail : List UInt8} (h : 10 ∉ tail) (hne : tail ≠ []) :
    batch tail = [lineResult tail] := by
  unfold batch
  rw [splitOn_eq_singleton h]
  simp [hne]

theorem batch_line {line : List UInt8} (h : 10 ∉ line) (rest : List UInt8) :
    batch (line ++ 10 :: rest) = lineResult line :: batch rest := by
  unfold batch
  rw [splitOn_append_cons_self_of_not_mem h]
  obtain ⟨piece, pieces, hpieces⟩ := exists_cons_of_ne_nil (splitOn_ne_nil 10 rest)
  rw [hpieces]
  dsimp only
  rw [getLast?_cons_cons, dropLast_cons_cons]
  split
  · rfl
  · rfl

variable {front : List UInt8} {r : RequestLines} {chunks : List (List UInt8)}

theorem batch_head {front : List UInt8} (h : 10 ∉ front) (hne : front ≠ []) (rest : List UInt8) :
    ∃ more, (batch (front ++ rest)).head? = some (lineResult (front ++ more)) := by
  by_cases hrest : 10 ∈ rest
  · obtain ⟨line, after, rfl, hline⟩ := eq_append_cons_of_mem hrest
    refine ⟨line, ?_⟩
    rw [← append_assoc, batch_line (by simp [h, hline])]
    rfl
  · refine ⟨rest, ?_⟩
    rw [batch_tail (by simp [h, hrest]) (by simp [hne])]
    rfl

theorem batch_head_of_long {front : List UInt8} (h : 10 ∉ front)
    (hlong : maxRequestLine < front.length) (rest : List UInt8) :
    (batch (front ++ rest)).head? = some (.ok .tooLong) := by
  obtain ⟨more, hmore⟩ := batch_head h (ne_nil_of_length_pos (by omega)) rest
  rw [hmore, lineResult, if_pos]
  rw [length_append]
  omega

/-! ### One poll -/

theorem scan_cases (hbuf : 10 ∉ r.buf) :
    (∃ line rest, r.buf ++ r.available = line ++ 10 :: rest ∧ 10 ∉ line ∧
        r.scan = (some (lineResult line), ⟨[], rest⟩)) ∨
      10 ∉ r.buf ++ r.available ∧ maxRequestLine < (r.buf ++ r.available).length ∧
        r.scan = (some (.ok .tooLong), ⟨[], []⟩) ∨
      10 ∉ r.buf ++ r.available ∧ (r.buf ++ r.available).length ≤ maxRequestLine ∧
        r.scan = (none, ⟨r.buf ++ r.available, []⟩) := by
  unfold scan
  cases hpos : r.available.findIdx? (· = 10) with
  | some pos =>
    obtain ⟨hlt, hat, hbefore⟩ := findIdx?_eq_some_iff_getElem.mp hpos
    have hsplit : r.available = r.available.take pos ++ 10 :: r.available.drop (pos + 1) := by
      have := take_append_drop pos r.available
      rw [drop_eq_getElem_cons hlt, of_decide_eq_true hat] at this
      exact this.symm
    have hfront : 10 ∉ r.available.take pos := by
      intro hmem
      obtain ⟨i, hi, hget⟩ := mem_iff_getElem.mp hmem
      rw [length_take] at hi
      rw [List.getElem_take] at hget
      exact hbefore i (by omega) (by simp [hget])
    have hlen : (r.buf ++ r.available.take pos).length = r.buf.length + pos := by
      rw [length_append, length_take, Nat.min_eq_left hlt.le]
    refine .inl ⟨r.buf ++ r.available.take pos, r.available.drop (pos + 1), ?_, ?_, ?_⟩
    · rw [append_assoc, ← hsplit]
    · simp [hbuf, hfront]
    · dsimp only
      rw [lineResult, hlen]
      by_cases hlong : r.buf.length + pos > maxRequestLine
      · rw [if_pos hlong, if_pos hlong]
      · rw [if_neg hlong, if_neg hlong]
  | none =>
    have hno : 10 ∉ r.available := by
      intro hmem
      have := findIdx?_eq_none_iff.mp hpos 10 hmem
      simp at this
    have hall : 10 ∉ r.buf ++ r.available := by simp [hbuf, hno]
    dsimp only
    rw [← length_append]
    by_cases hlong : (r.buf ++ r.available).length > maxRequestLine
    · rw [if_pos hlong]
      exact .inr (.inl ⟨hall, hlong, rfl⟩)
    · rw [if_neg hlong]
      exact .inr (.inr ⟨hall, not_lt.mp hlong, rfl⟩)

def fills (chunks : List (List UInt8)) (closed : Bool) : List Fill :=
  chunks.map .data ++ if closed then [.data []] else []

inductive Outcome (unread : List UInt8) (chunks : List (List UInt8)) (closed : Bool) :
    Poll (Except Unit LineRead) × RequestLines × List Fill → Prop
  | line {line available : List UInt8} {rest : List (List UInt8)} : 10 ∉ line → rest <:+ chunks →
      unread = line ++ 10 :: (available ++ rest.flatten) →
      Outcome unread chunks closed (.ready (lineResult line), ⟨[], available⟩, fills rest closed)
  | tooLong {front : List UInt8} {rest : List (List UInt8)} : 10 ∉ front →
      maxRequestLine < front.length → rest <:+ chunks → unread = front ++ rest.flatten →
      Outcome unread chunks closed (.ready (.ok .tooLong), ⟨[], []⟩, fills rest closed)
  | waits : closed = false → 10 ∉ unread → unread.length ≤ maxRequestLine →
      Outcome unread chunks closed (.pending, ⟨unread, []⟩, fills [] closed)
  | tail : closed = true → 10 ∉ unread → unread ≠ [] →
      Outcome unread chunks closed (.ready (lineResult unread), ⟨[], []⟩, fills [] closed)
  | eof : closed = true → unread = [] →
      Outcome unread chunks closed (.ready (.ok .eof), ⟨[], []⟩, fills [] closed)

theorem Outcome.cons {unread : List UInt8} {closed : Bool}
    {result : Poll (Except Unit LineRead) × RequestLines × List Fill}
    (h : Outcome unread chunks closed result) (chunk : List UInt8) :
    Outcome unread (chunk :: chunks) closed result := by
  cases h with
  | line hline hrest hunread => exact .line hline (hrest.trans (suffix_cons _ _)) hunread
  | tooLong hfront hlong hrest hunread =>
    exact .tooLong hfront hlong (hrest.trans (suffix_cons _ _)) hunread
  | waits hclosed hno hlen => exact .waits hclosed hno hlen
  | tail hclosed hno hne => exact .tail hclosed hno hne
  | eof hclosed hnil => exact .eof hclosed hnil

theorem readMore_outcome {buf : List UInt8} (hbuf : 10 ∉ buf) (hlen : buf.length ≤ maxRequestLine)
    (hne : ∀ chunk ∈ chunks, chunk ≠ []) (closed : Bool) :
    Outcome (buf ++ chunks.flatten) chunks closed (readMore ⟨buf, []⟩ (fills chunks closed)) := by
  induction chunks generalizing buf with
  | nil =>
    rw [flatten_nil, append_nil]
    cases closed with
    | false => exact .waits rfl hbuf hlen
    | true =>
      change Outcome buf [] true (readMore ⟨buf, []⟩ [.data []])
      rw [readMore]
      cases buf with
      | nil => exact .eof rfl rfl
      | cons byte bytes =>
        have hline : takeLine (byte :: bytes) = lineResult (byte :: bytes) := by
          rw [lineResult, if_neg (not_lt.mpr hlen)]
        dsimp only
        rw [isEmpty_cons, if_neg Bool.false_ne_true, hline]
        exact .tail rfl hbuf (cons_ne_nil _ _)
  | cons chunk chunks ih =>
    obtain ⟨byte, bytes, rfl⟩ := exists_cons_of_ne_nil (hne chunk mem_cons_self)
    have hrest : ∀ chunk ∈ chunks, chunk ≠ [] := fun c hc => hne c (mem_cons_of_mem _ hc)
    change Outcome _ _ _ (readMore ⟨buf, []⟩ (.data (byte :: bytes) :: fills chunks closed))
    rw [readMore, flatten_cons, ← append_assoc]
    rcases scan_cases (r := ⟨buf, byte :: bytes⟩) hbuf with
      ⟨line, rest, hsplit, hline, hscan⟩ | ⟨hno, hlong, hscan⟩ | ⟨hno, hshort, hscan⟩
    · dsimp only at hsplit
      rw [hscan, hsplit, append_assoc, cons_append]
      exact .line hline (suffix_cons _ _) rfl
    · rw [hscan]
      exact .tooLong hno hlong (suffix_cons _ _) rfl
    · rw [hscan]
      exact (ih hno hshort hrest).cons _

theorem nextLine_outcome (hbuf : 10 ∉ r.buf) (hlen : r.buf.length ≤ maxRequestLine)
    (hne : ∀ chunk ∈ chunks, chunk ≠ []) (closed : Bool) :
    Outcome (r.buf ++ r.available ++ chunks.flatten) chunks closed
      (r.nextLine (fills chunks closed)) := by
  obtain ⟨buf, available⟩ := r
  unfold nextLine
  cases available with
  | nil =>
    rw [append_nil]
    exact readMore_outcome hbuf hlen hne closed
  | cons byte bytes =>
    rw [isEmpty_cons, if_neg Bool.false_ne_true]
    rcases scan_cases (r := ⟨buf, byte :: bytes⟩) hbuf with
      ⟨line, rest, hsplit, hline, hscan⟩ | ⟨hno, hlong, hscan⟩ | ⟨hno, hshort, hscan⟩
    · rw [hscan]
      exact .line hline suffix_rfl (by rw [hsplit, append_assoc, cons_append])
    · rw [hscan]
      exact .tooLong hno hlong suffix_rfl rfl
    · rw [hscan]
      exact readMore_outcome hno hshort hne closed

end RequestLines

open RequestLines

structure LineReader where
  reader : RequestLines
  socket : List Fill
  toCome : List UInt8
  closed : Bool
deriving DecidableEq

/-- What can happen. -/
inductive ReadAct where
  | arrive (n : ℕ)
  | close
  | poll
deriving DecidableEq

namespace LineReader

def start (stream : List UInt8) : LineReader := ⟨RequestLines.new, [], stream, false⟩

variable (s : LineReader)

def step : ReadAct → LineReader
  | .arrive n => { s with socket := s.socket ++ [.data (s.toCome.take n)], toCome := s.toCome.drop n }
  | .close => { s with socket := s.socket ++ [.data []], closed := true }
  | .poll =>
    let (_, reader, socket) := s.reader.nextLine s.socket
    { s with reader, socket }

def answered : ReadAct → List (Except Unit LineRead)
  | .poll =>
    match (s.reader.nextLine s.socket).1 with
    | .ready result => [result]
    | .pending => []
  | _ => []

def possible : ReadAct → Bool
  | .arrive n => 0 < n ∧ n ≤ s.toCome.length
  | .close => s.toCome = [] ∧ s.closed = false
  | .poll => true

def machine : Runs.Machine LineReader ReadAct := ⟨step, fun s a => s.possible a = true⟩

instance (s : LineReader) (a : ReadAct) : Decidable (machine.ok s a) :=
  inferInstanceAs (Decidable (s.possible a = true))

def unread : List UInt8 :=
  s.reader.buf ++ s.reader.available ++ s.socket.flatMap Fill.bytes ++ s.toCome

structure Sound (s : LineReader) : Prop where
  socket : ∃ chunks, (∀ chunk ∈ chunks, chunk ≠ []) ∧ s.socket = fills chunks s.closed
  done : s.closed = true → s.toCome = []
  newline : 10 ∉ s.reader.buf
  bounded : s.reader.buf.length ≤ maxRequestLine

variable {s}

theorem start_sound (stream : List UInt8) : (start stream).Sound :=
  ⟨⟨[], by simp, rfl⟩, by simp [start], by simp [start, RequestLines.new], Nat.zero_le _⟩

theorem flatMap_fills (chunks : List (List UInt8)) (closed : Bool) :
    (fills chunks closed).flatMap Fill.bytes = chunks.flatten := by
  induction chunks with
  | nil => cases closed <;> rfl
  | cons chunk chunks ih =>
    rw [flatten_cons, ← ih]
    rfl

theorem Sound.poll (hs : s.Sound) : ∃ front chunks,
    (∀ chunk ∈ chunks, chunk ≠ []) ∧ s.unread = front ++ s.toCome ∧
      Outcome front chunks s.closed (s.reader.nextLine s.socket) := by
  obtain ⟨chunks, hne, hsocket⟩ := hs.socket
  refine ⟨s.reader.buf ++ s.reader.available ++ chunks.flatten, chunks, hne, ?_, ?_⟩
  · rw [unread, hsocket, flatMap_fills]
  · rw [hsocket]
    exact nextLine_outcome hs.newline hs.bounded hne s.closed

theorem step_sound (hs : s.Sound) {a : ReadAct} (ha : s.possible a = true) : (s.step a).Sound := by
  cases a with
  | arrive n =>
    obtain ⟨hpos, hle⟩ : 0 < n ∧ n ≤ s.toCome.length := by simpa [possible] using ha
    obtain ⟨chunks, hne, hsocket⟩ := hs.socket
    have hopen : s.closed = false := by
      rw [← Bool.not_eq_true]
      intro hclosed
      rw [hs.done hclosed, length_nil] at hle
      omega
    refine ⟨⟨chunks ++ [s.toCome.take n], ?_, ?_⟩, ?_, hs.newline, hs.bounded⟩
    · intro chunk hchunk
      rcases mem_append.mp hchunk with hchunk | hchunk
      · exact hne chunk hchunk
      · rw [mem_singleton.mp hchunk]
        exact ne_nil_of_length_pos (by rw [length_take]; omega)
    · simp [step, hsocket, hopen, fills]
    · intro hclosed
      rw [step, hopen] at hclosed
      cases hclosed
  | close =>
    obtain ⟨hcome, hopen⟩ : s.toCome = [] ∧ s.closed = false := by simpa [possible] using ha
    obtain ⟨chunks, hne, hsocket⟩ := hs.socket
    exact ⟨⟨chunks, hne, by simp [step, hsocket, hopen, fills]⟩, fun _ => hcome, hs.newline,
      hs.bounded⟩
  | poll =>
    obtain ⟨front, chunks, hne, -, houtcome⟩ := hs.poll
    change Sound { s with
      reader := (s.reader.nextLine s.socket).2.1, socket := (s.reader.nextLine s.socket).2.2 }
    generalize s.reader.nextLine s.socket = result at houtcome
    cases houtcome with
    | line _ hrest _ =>
      exact ⟨⟨_, fun c hc => hne c (hrest.subset hc), rfl⟩, hs.done, by simp, Nat.zero_le _⟩
    | tooLong _ _ hrest _ =>
      exact ⟨⟨_, fun c hc => hne c (hrest.subset hc), rfl⟩, hs.done, by simp, Nat.zero_le _⟩
    | waits _ hno hlen => exact ⟨⟨[], by simp, rfl⟩, hs.done, hno, hlen⟩
    | tail | eof => exact ⟨⟨[], by simp, rfl⟩, hs.done, by simp, Nat.zero_le _⟩

def stops : Except Unit LineRead → Bool
  | .ok .tooLong | .error _ => true
  | .ok _ => false

def expected (stream : List UInt8) (i : ℕ) : Except Unit LineRead :=
  (batch stream)[i]?.getD (.ok .eof)

def Follows (stream : List UInt8) (results : List (Except Unit LineRead)) (s : LineReader) : Prop :=
  ∃ k, results ++ batch s.unread = batch stream ++ List.replicate k (.ok .eof) ∧
    (k ≠ 0 → s.unread = [])

variable {stream : List UInt8} {results : List (Except Unit LineRead)}

variable {s' : LineReader} {x : Except Unit LineRead} {as : List ReadAct}

theorem Follows.of_unread (h : Follows stream results s) (hs : s'.unread = s.unread) :
    Follows stream results s' := by
  unfold Follows
  rw [hs]
  exact h

theorem Follows.head (h : Follows stream results s) (hx : (batch s.unread).head? = some x) :
    expected stream results.length = x := by
  obtain ⟨k, hk, hend⟩ := h
  obtain ⟨more, hmore⟩ := head?_eq_some_iff.mp hx
  have hzero : k = 0 := by
    by_contra hne
    rw [hend hne, batch_nil] at hmore
    cases hmore
  rw [hzero, replicate_zero, append_nil, hmore] at hk
  rw [expected, ← hk, List.getElem?_append_right le_rfl, Nat.sub_self]
  rfl

theorem Follows.cons (h : Follows stream results s) (hx : batch s.unread = x :: batch s'.unread) :
    Follows stream (results ++ [x]) s' := by
  obtain ⟨k, hk, hend⟩ := h
  have hzero : k = 0 := by
    by_contra hne
    rw [hend hne, batch_nil] at hx
    cases hx
  refine ⟨0, ?_, fun hne => absurd rfl hne⟩
  rw [hzero, hx] at hk
  rw [append_assoc]
  exact hk

theorem Follows.eof (h : Follows stream results s) (hs : s.unread = []) (hs' : s'.unread = []) :
    expected stream results.length = .ok .eof ∧
      Follows stream (results ++ [.ok .eof]) s' := by
  obtain ⟨k, hk, -⟩ := h
  rw [hs, batch_nil, append_nil] at hk
  constructor
  · rw [expected, List.getElem?_eq_none (by rw [hk, length_append]; omega)]
    rfl
  · refine ⟨k + 1, ?_, fun _ => hs'⟩
    rw [hs', batch_nil, append_nil, hk, replicate_succ', append_assoc]

theorem poll_eq {result : Poll (Except Unit LineRead) × RequestLines × List Fill}
    (h : s.reader.nextLine s.socket = result) :
    s.step .poll = { s with reader := result.2.1, socket := result.2.2 } ∧
      s.answered .poll = match result.1 with | .ready x => [x] | .pending => [] := by
  subst h
  exact ⟨rfl, rfl⟩

theorem Follows.poll (h : Follows stream results s) (hs : s.Sound) :
    (∀ x ∈ s.answered .poll, x = expected stream results.length) ∧
      ((∀ x ∈ s.answered .poll, stops x = false) →
        Follows stream (results ++ s.answered .poll) (s.step .poll)) := by
  obtain ⟨front, chunks, -, hunread, houtcome⟩ := hs.poll
  generalize hresult : s.reader.nextLine s.socket = result at houtcome
  obtain ⟨hstep, hanswer⟩ := poll_eq hresult
  rw [hstep, hanswer]
  cases houtcome with
  | @line line available rest hline _ hfront =>
    have hbatch : batch s.unread = lineResult line ::
        batch { s with reader := ⟨[], available⟩, socket := fills rest s.closed }.unread := by
      rw [hunread, hfront, append_assoc, cons_append, batch_line hline, unread, flatMap_fills]
      rfl
    refine ⟨fun x hx => ?_, fun _ => h.cons hbatch⟩
    rw [mem_singleton.mp hx]
    exact (h.head (by rw [hbatch]; rfl)).symm
  | tooLong hno hlong _ hfront =>
    refine ⟨fun x hx => ?_, fun hgo => ?_⟩
    · rw [mem_singleton.mp hx]
      refine (h.head ?_).symm
      rw [hunread, hfront, append_assoc]
      exact batch_head_of_long hno hlong _
    · have := hgo _ (mem_singleton_self _)
      cases this
  | waits hopen =>
    refine ⟨fun x hx => (by cases hx), fun _ => ?_⟩
    rw [append_nil]
    refine h.of_unread ?_
    rw [hunread, unread, flatMap_fills]
    simp
  | tail hclosed hno hne =>
    rw [hs.done hclosed, append_nil] at hunread
    have hbatch : batch s.unread = lineResult front ::
        batch { s with reader := ⟨[], []⟩, socket := fills [] s.closed }.unread := by
      rw [hunread, batch_tail hno hne, unread, flatMap_fills, hs.done hclosed]
      rfl
    refine ⟨fun x hx => ?_, fun _ => h.cons hbatch⟩
    rw [mem_singleton.mp hx]
    exact (h.head (by rw [hbatch]; rfl)).symm
  | eof hclosed hnil =>
    rw [hs.done hclosed, hnil] at hunread
    have hend : { s with reader := ⟨[], []⟩, socket := fills [] s.closed }.unread = [] := by
      rw [unread, flatMap_fills, hs.done hclosed]
      rfl
    obtain ⟨hexpected, hnext⟩ := h.eof hunread hend
    refine ⟨fun x hx => ?_, fun _ => hnext⟩
    rw [mem_singleton.mp hx]
    exact hexpected.symm

theorem step_unread {a : ReadAct} (ha : a ≠ .poll) : (s.step a).unread = s.unread := by
  cases a with
  | arrive | close => simp [step, unread, Fill.bytes]
  | poll => exact absurd rfl ha

def Agrees (stream : List UInt8) (results : List (Except Unit LineRead)) : Prop :=
  ∀ i x, results[i]? = some x → (∀ y ∈ results.take i, stops y = false) → x = expected stream i

theorem Agrees.concat (h : Agrees stream results)
    (hx : (∀ y ∈ results, stops y = false) → x = expected stream results.length) :
    Agrees stream (results ++ [x]) := by
  intro i y hy hgo
  rcases Nat.lt_trichotomy i results.length with hlt | rfl | hgt
  · rw [List.getElem?_append_left hlt] at hy
    rw [take_append_of_le_length hlt.le] at hgo
    exact h i y hy hgo
  · rw [List.getElem?_concat_length] at hy
    rw [take_left] at hgo
    rw [← Option.some.inj hy]
    exact hx hgo
  · rw [List.getElem?_eq_none (by rw [length_append, length_singleton]; omega)] at hy
    cases hy

theorem answered_cases (s : LineReader) (a : ReadAct) :
    s.answered a = [] ∨ ∃ x, s.answered a = [x] ∧ a = .poll := by
  cases a with
  | arrive | close => exact .inl rfl
  | poll =>
    unfold answered
    cases (s.reader.nextLine s.socket).1 with
    | ready x => exact .inr ⟨x, rfl, rfl⟩
    | pending => exact .inl rfl

theorem run_agrees (hl : machine.Legal s as) (hs : s.Sound) (hagrees : Agrees stream results)
    (hfollows : (∀ y ∈ results, stops y = false) → Follows stream results s) :
    Agrees stream (results ++ machine.outputs answered s as) := by
  induction as generalizing s results with
  | nil => rwa [Runs.Machine.outputs, append_nil]
  | cons a as ih =>
    rw [Runs.Machine.outputs, ← append_assoc]
    have hsound : (s.step a).Sound := step_sound hs hl.1
    have hnext : (∀ y ∈ results ++ s.answered a, stops y = false) →
        Follows stream (results ++ s.answered a) (s.step a) := by
      intro hgo
      have hfollows := hfollows fun y hy => hgo y (mem_append_left _ hy)
      by_cases ha : a = .poll
      · subst ha
        exact (hfollows.poll hs).2 fun y hy => hgo y (mem_append_right _ hy)
      · have hnone : s.answered a = [] := by
          rcases s.answered_cases a with hnone | ⟨_, _, hpoll⟩
          · exact hnone
          · exact absurd hpoll ha
        rw [hnone, append_nil]
        exact hfollows.of_unread (step_unread ha)
    refine ih hl.2 hsound ?_ hnext
    rcases s.answered_cases a with hnone | ⟨x, hone, rfl⟩
    · rw [hnone, append_nil]
      exact hagrees
    · rw [hone]
      refine hagrees.concat fun hgo => ?_
      exact ((hfollows hgo).poll hs).1 x (hone ▸ mem_singleton_self x)

theorem outputs_agree (h : machine.Legal (start stream) as) :
    Agrees stream (machine.outputs answered (start stream) as) := by
  have hbegin : Agrees stream [] := fun i x hx => by simp at hx
  have hrun := run_agrees h (start_sound stream) hbegin
    fun _ => ⟨0, by simp [start, unread, RequestLines.new], by simp⟩
  rwa [nil_append] at hrun

theorem request_lines_exact (stream : List UInt8) {as : List ReadAct}
    (h : machine.Legal (start stream) as) :
    let s := machine.run (start stream) as
    let results := machine.outputs answered (start stream) as
    (∀ i x, results[i]? = some x → (∀ y ∈ results.take i, stops y = false) →
        x = expected stream i) ∧
      (s.closed = true → s.answered .poll ≠ []) ∧ s.reader.buf.length ≤ maxRequestLine := by
  intro s results
  have hsound : s.Sound :=
    Runs.Machine.invariant (I := Sound) (fun _ _ hs ha => step_sound hs ha) (start_sound stream) h
  refine ⟨outputs_agree h, fun hclosed => ?_, hsound.bounded⟩
  obtain ⟨front, chunks, -, -, houtcome⟩ := hsound.poll
  generalize hresult : s.reader.nextLine s.socket = result at houtcome
  rw [(poll_eq hresult).2]
  cases houtcome with
  | waits hopen =>
    rw [hclosed] at hopen
    cases hopen
  | line | tooLong | tail | eof => exact cons_ne_nil _ _

theorem request_lines_pipelined :
    let stream := [104, 105, 13, 10, 10, 104]
    let as : List ReadAct :=
      [.poll, .arrive 1, .poll, .arrive 3, .poll, .poll, .arrive 2, .poll, .close, .poll, .poll]
    let results := machine.outputs answered (start stream) as
    results = [.ok (.line "hi"), .ok (.line ""), .ok (.line "h"), .ok .eof] ∧
      ∀ i x, results[i]? = some x → (∀ y ∈ results.take i, stops y = false) →
        x = expected stream i := by
  intro stream as results
  have hlegal : machine.Legal (start stream) as := by decide +kernel
  exact ⟨by decide +kernel, (request_lines_exact stream hlegal).1⟩

theorem takeLine_ne_tooLong (bytes : List UInt8) : takeLine bytes ≠ .ok .tooLong := by
  unfold takeLine
  dsimp only
  split <;> simp

theorem answered_of_long (hno : 10 ∉ stream) (hlong : maxRequestLine < stream.length) :
    answered ⟨RequestLines.new, fills [stream] true, [], true⟩ .poll = [.ok .tooLong] := by
  have hne : stream ≠ [] := ne_nil_of_length_pos (by omega)
  have hchunks : ∀ c ∈ [stream], c ≠ [] := by simpa using hne
  have houtcome := nextLine_outcome (r := RequestLines.new) (by simp [RequestLines.new])
    (Nat.zero_le _) hchunks true
  rw [flatten_singleton] at houtcome
  change Outcome stream _ _ _ at houtcome
  unfold answered
  generalize RequestLines.new.nextLine (fills [stream] true) = result at houtcome
  cases houtcome with
  | line _ _ hsplit =>
    rw [hsplit] at hno
    exact absurd (mem_append_right _ mem_cons_self) hno
  | tooLong => rfl
  | waits hopen => cases hopen
  | tail => simp [lineResult, hlong]
  | eof _ hnil => exact absurd hnil hne

theorem unterminated_line_tooLong :
    let stream : List UInt8 := List.replicate (maxRequestLine + 1) 97
    let as : List ReadAct := [.arrive (maxRequestLine + 1), .close, .poll]
    machine.Legal (start stream) as ∧ stream ≠ [] ∧ 10 ∉ stream ∧
      machine.outputs answered (start stream) as = [.ok .tooLong] ∧
      takeLine stream ≠ .ok .tooLong := by
  intro stream as
  have hlen : stream.length = maxRequestLine + 1 := length_replicate
  have hno : 10 ∉ stream := by
    intro hmem
    exact absurd (eq_of_mem_replicate hmem) (by decide)
  have htake : stream.take (maxRequestLine + 1) = stream := take_of_length_le hlen.le
  have hdrop : stream.drop (maxRequestLine + 1) = [] := drop_eq_nil_of_le hlen.le
  have hfilled : ((start stream).step (.arrive (maxRequestLine + 1))).step .close =
      ⟨RequestLines.new, fills [stream] true, [], true⟩ := by
    simp only [step, start, htake, hdrop]
    rfl
  refine ⟨⟨?_, ?_, rfl, trivial⟩, ?_, hno, ?_, takeLine_ne_tooLong stream⟩
  · simp [machine, possible, start, hlen]
  · simp [machine, possible, step, start, hdrop]
  · exact ne_nil_of_length_pos (by omega)
  · change ([] ++ ([] ++
      (answered (((start stream).step (.arrive (maxRequestLine + 1))).step .close) .poll ++ []))) = _
    rw [hfilled, answered_of_long hno (by omega)]
    rfl

end LineReader
end SerialNexus
