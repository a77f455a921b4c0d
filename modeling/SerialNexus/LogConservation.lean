import SerialNexus.LogNode
import SerialNexus.Thinning

/-! # Every byte offered to a log is written, pending, or counted as dropped

Bytes and rotation requests form one stream of tokens, which runs through the queue, the writer's
batch and the files.  Only bytes are ever taken out of it, and each is counted (`Streamed`). -/

namespace SerialNexus

open List

/-! ### Tokens -/

def Token.IsByte (t : Token) : Prop := t ≠ .rotate

@[simp] theorem itemTokens_nil : itemTokens [] = [] := rfl

@[simp] theorem itemTokens_bytes (chunk : Chunk) (items : List QueueItem) :
    itemTokens (.bytes chunk :: items) = chunkTokens chunk ++ itemTokens items := rfl

@[simp] theorem itemTokens_rotate (items : List QueueItem) :
    itemTokens (.rotate :: items) = .rotate :: itemTokens items := rfl

@[simp] theorem itemTokens_append (as bs : List QueueItem) :
    itemTokens (as ++ bs) = itemTokens as ++ itemTokens bs := flatMap_append

@[simp] theorem bytesOf_nil : bytesOf [] = [] := rfl

@[simp] theorem bytesOf_append (as bs : List Token) :
    bytesOf (as ++ bs) = bytesOf as ++ bytesOf bs := filterMap_append

@[simp] theorem bytesOf_byte (b : UInt8) (ts : List Token) :
    bytesOf (.byte b :: ts) = b :: bytesOf ts := rfl

@[simp] theorem bytesOf_rotate (ts : List Token) : bytesOf (.rotate :: ts) = bytesOf ts := rfl

@[simp] theorem bytesOf_chunkTokens (chunk : Chunk) : bytesOf (chunkTokens chunk) = chunk := by
  induction chunk with
  | nil => rfl
  | cons b chunk ih => exact congrArg (b :: ·) ih

theorem bytesOf_itemTokens_length (items : List QueueItem) :
    (bytesOf (itemTokens items)).length = (items.map QueueItem.len).sum := by
  induction items with
  | nil => rfl
  | cons item items ih =>
    cases item with
    | bytes | rotate => simp [ih, QueueItem.len]

theorem bytesOf_sublist_append (as bs : List Token) :
    (bytesOf as).Sublist (bytesOf (as ++ bs)) := by
  rw [bytesOf_append]
  exact List.sublist_append_left _ _

theorem isByte_of_mem_chunkTokens {chunk : Chunk} {t : Token} (h : t ∈ chunkTokens chunk) :
    t.IsByte := by
  obtain ⟨b, -, rfl⟩ := mem_map.mp h
  exact Token.noConfusion

@[simp] theorem chunkTokens_length (chunk : Chunk) : (chunkTokens chunk).length = chunk.length :=
  length_map ..

variable {xs ys : List Token} {n : ℕ}

theorem thin_bytes_sublist (h : Thin Token.IsByte xs ys n) :
    (bytesOf ys).Sublist (bytesOf xs) := h.sublist.filterMap _

theorem thin_bytes_length (h : Thin Token.IsByte xs ys n) :
    (bytesOf xs).length = (bytesOf ys).length + n := by
  induction h with
  | nil => rfl
  | keep x _ ih =>
    cases x with
    | byte b =>
      simp only [bytesOf_byte, length_cons, ih]
      omega
    | rotate => exact ih
  | @drop x _ _ _ hx _ ih =>
    cases x with
    | byte b =>
      simp only [bytesOf_byte, length_cons, ih]
      omega
    | rotate => exact absurd rfl hx

namespace Queue

variable {q q' : Queue}

/-! ### The queue -/

def Counted (q : Queue) : Prop := q.queuedBytes = (q.items.map QueueItem.len).sum

structure Takes (q q' : Queue) (ts : List Token) : Prop where
  dropped : ∃ d, q'.droppedBytes = q.droppedBytes + d ∧
    Thin Token.IsByte (itemTokens q.items ++ ts) (itemTokens q'.items) d
  counted : q.Counted → q'.Counted
  rotation : q'.rotation = q.rotation

theorem Takes.refl (q : Queue) : q.Takes q [] := by
  refine ⟨⟨0, rfl, ?_⟩, id, rfl⟩
  rw [append_nil]
  exact Thin.refl _

theorem Takes.trans {q'' : Queue} {as bs : List Token} (h : q.Takes q' as) (h' : q'.Takes q'' bs) :
    q.Takes q'' (as ++ bs) := by
  obtain ⟨d, hd, ht⟩ := h.dropped
  obtain ⟨d', hd', ht'⟩ := h'.dropped
  refine ⟨⟨d + d', by rw [hd', hd, Nat.add_assoc], ?_⟩, fun hc => h'.counted (h.counted hc),
    h'.rotation.trans h.rotation⟩
  rw [← append_assoc]
  exact (ht.append (Thin.refl bs)).trans ht'

variable {items : List QueueItem} {old : Chunk} {n : ℕ}

theorem removeOldest_eq_some {items' : List QueueItem}
    (h : removeOldest items = some (old, items')) :
    ∃ as bs, items = as ++ .bytes old :: bs ∧ items' = as ++ bs := by
  induction items generalizing items' with
  | nil => cases h
  | cons item items ih =>
    cases item with
    | bytes chunk =>
      obtain ⟨rfl, rfl⟩ : chunk = old ∧ items = items' := by simpa [removeOldest] using h
      exact ⟨[], items, rfl, rfl⟩
    | rotate =>
      obtain ⟨r, hr, he⟩ := Option.map_eq_some_iff.mp h
      obtain ⟨rfl, rfl⟩ := Prod.mk.inj he
      obtain ⟨as, bs, h1, h2⟩ := ih hr
      exact ⟨.rotate :: as, bs, by rw [h1, cons_append], by rw [h2, cons_append]⟩

theorem removeOldest_takes (h : removeOldest q.items = some (old, items)) :
    q.Takes { q with
      items, queuedBytes := q.queuedBytes - old.length
      droppedBytes := q.droppedBytes + old.length } [] := by
  obtain ⟨as, bs, h1, h2⟩ := removeOldest_eq_some h
  refine ⟨⟨old.length, rfl, ?_⟩, ?_, rfl⟩
  · rw [append_nil, h1, h2]
    simp only [itemTokens_append, itemTokens_bytes]
    have := (Thin.refl (p := Token.IsByte)
      (itemTokens as ++ (chunkTokens old ++ itemTokens bs))).erase
      fun t ht => isByte_of_mem_chunkTokens ht
    simpa using this
  · intro hc
    unfold Counted at hc ⊢
    dsimp only
    rw [hc, h1, h2]
    simp only [map_append, map_cons, sum_append, sum_cons, QueueItem.len]
    omega

theorem evict_takes (len fuel : ℕ) (q : Queue) : q.Takes (evict len fuel q) [] := by
  induction fuel generalizing q with
  | zero => exact .refl q
  | succ fuel ih =>
    rw [evict]
    split
    · split
      · exact .refl q
      · next old items hr => exact (removeOldest_takes hr).trans (ih _)
    · exact .refl q

theorem pushChunk_takes (q : Queue) (chunk : Chunk) :
    q.Takes (q.pushChunk chunk) (chunkTokens chunk) := by
  refine ⟨⟨0, rfl, ?_⟩, ?_, rfl⟩
  · have : itemTokens (q.pushChunk chunk).items = itemTokens q.items ++ chunkTokens chunk := by
      simp [pushChunk]
    rw [this]
    exact Thin.refl _
  · intro hc
    unfold Counted at hc ⊢
    simp [pushChunk, hc, QueueItem.len]

theorem drop_takes {chunk : Chunk} (hi : q'.items = q.items) (hq : q'.queuedBytes = q.queuedBytes)
    (hd : q'.droppedBytes = q.droppedBytes + chunk.length) (hr : q'.rotation = q.rotation) :
    q.Takes q' (chunkTokens chunk) := by
  refine ⟨⟨chunk.length, hd, ?_⟩, ?_, hr⟩
  · rw [hi]
    have := (Thin.refl (p := Token.IsByte) (itemTokens q.items)).append
      (Thin.all fun t (ht : t ∈ chunkTokens chunk) => isByte_of_mem_chunkTokens ht)
    simpa using this
  · unfold Counted
    rw [hi, hq]
    exact id

theorem enqueue_takes (q : Queue) (chunk : Chunk) :
    q.Takes (q.enqueue chunk).2 (chunkTokens chunk) := by
  unfold enqueue
  split
  · exact drop_takes rfl rfl rfl rfl
  · split
    · split
      · exact (evict_takes chunk.length q.items.length q).trans (pushChunk_takes _ chunk)
      · exact drop_takes rfl rfl rfl rfl
    · exact pushChunk_takes q chunk

theorem rotate_ok (h : q.rotate = (.ok n, q')) :
    n = saturatingAdd q.nextRotation q.rotatePending ∧
      q' = { q with
        rotatePending := (q.rotatePending + 1) % u32Size
        items := q.items ++ [.rotate] } := by
  unfold rotate at h
  split at h
  · cases h
  · cases h
    exact ⟨rfl, rfl⟩

theorem rotate_ok_takes (h : q.rotate = (.ok n, q')) : q.Takes q' [.rotate] := by
  obtain ⟨-, rfl⟩ := rotate_ok h
  refine ⟨⟨0, rfl, ?_⟩, ?_, rfl⟩
  · have : itemTokens (q.items ++ [.rotate]) = itemTokens q.items ++ [.rotate] := by simp
    dsimp only
    rw [this]
    exact Thin.refl _
  · intro hc
    unfold Counted at hc ⊢
    simp [hc, QueueItem.len]

theorem rotate_error {e : String} (h : q.rotate = (.error e, q')) : q' = q := by
  unfold rotate at h
  split at h
  · cases h
    rfl
  · cases h

end Queue

namespace LogWorld

/-! ### The stream -/

def Streamed (w : LogWorld) : Prop :=
  ∃ head lost tail k l, w.offered = head ++ lost ++ tail ∧
    Thin Token.IsByte head (w.wrote ++ w.writer.remainder) k ∧
    Thin Token.IsByte tail (itemTokens w.q.items) l ∧
    w.q.droppedBytes = k + (bytesOf lost).length + l ∧
    (lost = [] ∨ w.writer.Finished)

variable {w w' : LogWorld}

theorem Streamed.takes (hs : w.Streamed) {q : Queue} {ts : List Token} (hq : w.q.Takes q ts) :
    Streamed { w with q, offered := w.offered ++ ts } := by
  obtain ⟨head, lost, tail, k, l, ho, hhead, htail, hdrop, hlost⟩ := hs
  obtain ⟨d, hd, ht⟩ := hq.dropped
  refine ⟨head, lost, tail ++ ts, k, l + d, ?_, hhead, ?_, ?_, hlost⟩
  · simp [ho]
  · exact (htail.append (Thin.refl ts)).trans ht
  · dsimp only
    omega

theorem Streamed.moves (hs : w.Streamed) (hw : ¬ w.writer.Finished) (ho : w'.offered = w.offered)
    (hi : w'.q.items = w.q.items) (hd : w'.q.droppedBytes = w.q.droppedBytes)
    (hm : w'.wrote ++ w'.writer.remainder = w.wrote ++ w.writer.remainder) : w'.Streamed := by
  obtain ⟨head, lost, tail, k, l, h1, h2, h3, h4, h5⟩ := hs
  refine ⟨head, lost, tail, k, l, ho.trans h1, hm ▸ h2, hi ▸ h3, hd.trans h4, .inl ?_⟩
  exact h5.resolve_right hw

theorem Streamed.drain (hs : w.Streamed) (hw : ¬ w.writer.Finished)
    (hr : w.writer.remainder = []) : w.drain.Streamed := by
  unfold LogWorld.drain
  split
  · exact hs.moves hw rfl rfl rfl (by rw [hr]; rfl)
  · obtain ⟨head, lost, tail, k, l, ho, hhead, htail, hdrop, hlost⟩ := hs
    obtain rfl : lost = [] := hlost.resolve_right hw
    rw [hr, append_nil] at hhead
    refine ⟨head ++ tail, [], [], k + l, 0, ?_, hhead.append htail, Thin.nil, ?_, .inl rfl⟩
    · simpa using ho
    · simpa using hdrop

variable {rest : Chunk} {todo : List QueueItem} {closing : Bool} {next : ℕ}

theorem Streamed.drops (hs : w.Streamed) (hw : ¬ w.writer.Finished) {more : List Token}
    (hr : w.writer.remainder = chunkTokens rest ++ more) (ho : w'.offered = w.offered)
    (hi : w'.q.items = w.q.items) (hd : w'.q.droppedBytes = w.q.droppedBytes + rest.length)
    (hm : w'.wrote ++ w'.writer.remainder = w.wrote ++ more) : w'.Streamed := by
  obtain ⟨head, lost, tail, k, l, h1, h2, h3, h4, h5⟩ := hs
  rw [hr] at h2
  have h2' := h2.erase fun t ht => isByte_of_mem_chunkTokens ht
  rw [chunkTokens_length] at h2'
  exact ⟨head, lost, tail, k + rest.length, l, ho.trans h1, hm ▸ h2', hi ▸ h3, by omega,
    .inl (h5.resolve_right hw)⟩

theorem Streamed.givesUp (hs : w.Streamed) (hw : ¬ w.writer.Finished)
    (ho : w'.offered = w.offered) (hi : w'.q.items = w.q.items) (hm : w'.wrote = w.wrote)
    (hd : w'.q.droppedBytes = w.q.droppedBytes + (bytesOf w.writer.remainder).length)
    (hl : w'.writer = .leaving) : w'.Streamed := by
  obtain ⟨head, lost, tail, k, l, h1, h2, h3, h4, h5⟩ := hs
  obtain rfl : lost = [] := h5.resolve_right hw
  obtain ⟨as, bs, i, j, rfl, ha, hb, rfl⟩ := h2.split
  have hbytes := thin_bytes_length hb
  refine ⟨as, bs, tail, i, l, ?_, ?_, hi ▸ h3, ?_, .inr (hl ▸ .inl rfl)⟩
  · simpa using ho.trans h1
  · rw [hm, hl]
    simpa [LogWriter.remainder] using ha
  · simp only [bytesOf_nil, length_nil] at h4
    omega

theorem Streamed.abandons (hs : w.Streamed) (hw : w.writer = .leaving) :
    Streamed { w with q := w.q.abandonQueue, writer := .gone } := by
  obtain ⟨head, lost, tail, k, l, h1, h2, h3, h4, h5⟩ := hs
  have htail := thin_bytes_length h3
  rw [bytesOf_itemTokens_length] at htail
  rw [hw] at h2
  refine ⟨head, lost ++ tail, [], k, 0, ?_, h2, Thin.nil, ?_, .inr (.inr rfl)⟩
  · simpa using h1
  · simp only [Queue.abandonQueue, Queue.countAbandoned, bytesOf_append, length_append]
    omega

theorem writeSome_streamed (hs : w.Streamed) (hw : w.writer = .writing rest todo closing)
    (result : SysResult) : (w.writeSome rest todo closing result).Streamed := by
  have hnf : ¬ w.writer.Finished := by simp [LogWriter.Finished, hw]
  unfold writeSome
  split
  · next h => exact hs.moves hnf rfl rfl rfl (by simp [hw, LogWriter.remainder, h, chunkTokens])
  · split
    · exact hs.moves hnf rfl rfl rfl (by rw [hw]; rfl)
    · next n _ =>
      refine hs.moves hnf rfl rfl rfl ?_
      have : chunkTokens rest = chunkTokens (rest.take n) ++ chunkTokens (rest.drop n) := by
        rw [chunkTokens, chunkTokens, chunkTokens, ← map_append, take_append_drop]
      simp [hw, LogWriter.remainder, this]
    · exact hs.moves hnf rfl rfl rfl (by rw [hw]; rfl)
    · exact hs
    · exact hs

theorem refuse_streamed {error : String} (hs : w.Streamed)
    (hw : w.writer = .refused rest error todo closing) :
    (w.refuse rest error todo closing).Streamed := by
  have hnf : ¬ w.writer.Finished := by simp [LogWriter.Finished, hw]
  unfold refuse
  dsimp only
  split
  · refine hs.givesUp hnf rfl rfl rfl ?_ rfl
    simp [hw, LogWriter.remainder, Queue.countAbandoned, bytesOf_itemTokens_length, Nat.add_assoc]
  · have hr : w.writer.remainder = chunkTokens rest ++ itemTokens todo := by rw [hw]; rfl
    exact hs.drops hnf hr rfl rfl rfl rfl

theorem rename_streamed (hs : w.Streamed) (hw : w.writer = .renaming next todo closing)
    (result : SysResult) : (w.rename next todo closing result).Streamed := by
  have hnf : ¬ w.writer.Finished := by simp [LogWriter.Finished, hw]
  cases result with
  | done | failed => exact hs.moves hnf rfl rfl rfl (by simp [rename, hw, LogWriter.remainder])
  | stored | interrupted => exact hs

theorem reopen_streamed (hs : w.Streamed) (hw : w.writer = .reopening next todo closing)
    (result : SysResult) : (w.reopen next todo closing result).Streamed := by
  have hnf : ¬ w.writer.Finished := by simp [LogWriter.Finished, hw]
  cases result with
  | done | failed => exact hs.moves hnf rfl rfl rfl (by simp [reopen, hw, LogWriter.remainder])
  | stored | interrupted => exact hs

theorem nextItem_streamed (hs : w.Streamed) (hw : w.writer = .batch todo closing) :
    (w.nextItem closing todo).Streamed := by
  have hnf : ¬ w.writer.Finished := by simp [LogWriter.Finished, hw]
  cases todo with
  | nil =>
    cases closing with
    | false | true => exact hs.moves hnf rfl rfl rfl (by rw [hw]; rfl)
  | cons item todo =>
    cases item with
    | bytes | rotate => exact hs.moves hnf rfl rfl rfl (by rw [hw]; rfl)

theorem stepWriter_streamed (hs : w.Streamed) (result : SysResult) :
    (w.stepWriter result).Streamed := by
  unfold stepWriter
  split
  · next hw => exact Streamed.drain hs (by simp [LogWriter.Finished, hw]) (by rw [hw]; rfl)
  · next hw => exact hs.drain (by simp [LogWriter.Finished, hw]) (by rw [hw]; rfl)
  · next hw => exact nextItem_streamed hs hw
  · next hw => exact writeSome_streamed hs hw result
  · next hw => exact refuse_streamed hs hw
  · next hw => exact rename_streamed hs hw result
  · next hw => exact reopen_streamed hs hw result
  · next hw =>
    refine hs.givesUp (by simp [LogWriter.Finished, hw]) rfl rfl rfl ?_ rfl
    simp [hw, LogWriter.remainder, Queue.countAbandoned, bytesOf_itemTokens_length]
  · next hw =>
    refine hs.givesUp (by simp [LogWriter.Finished, hw]) rfl rfl rfl ?_ rfl
    simp [hw, LogWriter.remainder, Queue.countAbandoned, bytesOf_itemTokens_length]
  · next hw => exact hs.abandons hw
  · exact hs

theorem step_streamed (hs : w.Streamed) (a : LogAct) : (w.step a).Streamed := by
  cases a with
  | offer chunk => exact hs.takes (w.q.enqueue_takes chunk)
  | rotate =>
    change w.requestRotate.Streamed
    unfold requestRotate
    split
    · next hr =>
      rw [Queue.rotate_error hr]
      exact hs
    · next hr => exact hs.takes (Queue.rotate_ok_takes hr)
  | close => exact hs
  | writer result => exact stepWriter_streamed hs result

theorem step_counted (hc : w.q.Counted) (a : LogAct) : (w.step a).q.Counted := by
  cases a with
  | offer chunk => exact (w.q.enqueue_takes chunk).counted hc
  | rotate =>
    change w.requestRotate.q.Counted
    unfold requestRotate
    split
    · next hr =>
      rw [Queue.rotate_error hr]
      exact hc
    · next hr => exact (Queue.rotate_ok_takes hr).counted hc
  | close => exact hc
  | writer result =>
    have hdrain : ∀ w : LogWorld, w.q.Counted → w.drain.q.Counted := by
      intro w hc
      unfold LogWorld.drain
      split
      · exact hc
      · rfl
    change (w.stepWriter result).q.Counted
    unfold stepWriter
    split
    · exact hdrain _ hc
    · exact hdrain w hc
    · unfold nextItem
      split
      · split
        · exact hc
        · exact hc
      · exact hc
      · exact hc
    · unfold writeSome
      split
      · exact hc
      · split <;> exact hc
    · unfold refuse
      dsimp only
      split <;> exact hc
    · unfold rename
      split <;> exact hc
    · unfold reopen
      split <;> exact hc
    · exact hc
    · exact hc
    · rfl
    · exact hc

structure Accounted (w : LogWorld) : Prop where
  conserved : (bytesOf w.offered).length = (bytesOf w.wrote).length + w.q.droppedBytes +
    w.q.queuedBytes + (bytesOf w.writer.remainder).length
  queued : w.q.queuedBytes = (w.q.items.map QueueItem.len).sum
  kept : (bytesOf w.wrote ++ bytesOf w.writer.remainder ++ bytesOf (itemTokens w.q.items)).Sublist
    (bytesOf w.offered)
  markers : ¬ w.writer.Finished → w.offered.count .rotate =
    (w.wrote ++ w.writer.remainder ++ itemTokens w.q.items).count .rotate
  splits : ∀ before after, w.offered = before ++ .rotate :: after →
    (∃ a b, w.wrote = a ++ .rotate :: b ∧ a.count .rotate = before.count .rotate ∧
      (bytesOf a).Sublist (bytesOf before) ∧ (bytesOf b).Sublist (bytesOf after)) ∨
    (bytesOf w.wrote).Sublist (bytesOf before)

theorem count_rotate_eq {xs ys : List Token} {n : ℕ} (h : Thin Token.IsByte xs ys n) :
    xs.count .rotate = ys.count .rotate :=
  h.countP_eq fun t ht => by simpa [Token.IsByte] using ht

theorem splits_of_thin {before after wrote rest : List Token} {k : ℕ}
    (h : Thin Token.IsByte (before ++ .rotate :: after) (wrote ++ rest) k) :
    (∃ a b, wrote = a ++ .rotate :: b ∧ a.count .rotate = before.count .rotate ∧
      (bytesOf a).Sublist (bytesOf before) ∧ (bytesOf b).Sublist (bytesOf after)) ∨
    (bytesOf wrote).Sublist (bytesOf before) := by
  obtain ⟨ys, ys', i, j, hsplit, hy, hy'⟩ := h.split_at (fun hr => hr rfl)
  rcases append_eq_append_iff.mp hsplit with ⟨c, hc, -⟩ | ⟨c, hc, hrest⟩
  · -- the written part ends before the rotation
    rw [hc] at hy
    exact .inr ((bytesOf_sublist_append _ _).trans (thin_bytes_sublist hy))
  · cases c with
    | nil =>
      rw [append_nil] at hc
      exact .inr (hc ▸ thin_bytes_sublist hy)
    | cons t c =>
      rw [cons_append] at hrest
      obtain ⟨rfl, hc'⟩ := List.cons.inj hrest
      rw [hc'] at hy'
      exact .inl ⟨ys, c, hc, (count_rotate_eq hy).symm, thin_bytes_sublist hy,
        (bytesOf_sublist_append _ _).trans (thin_bytes_sublist hy')⟩

theorem Streamed.accounted (hs : w.Streamed) (hc : w.q.Counted) : w.Accounted := by
  obtain ⟨head, lost, tail, k, l, ho, hhead, htail, hdrop, hlost⟩ := hs
  have hlenHead := thin_bytes_length hhead
  have hlenTail := thin_bytes_length htail
  rw [bytesOf_itemTokens_length, ← hc] at hlenTail
  rw [bytesOf_append, length_append] at hlenHead
  refine ⟨?_, hc, ?_, ?_, ?_⟩
  · rw [ho]
    simp only [bytesOf_append, length_append]
    omega
  · rw [ho, bytesOf_append, bytesOf_append, ← bytesOf_append]
    refine List.Sublist.append ?_ (thin_bytes_sublist htail)
    exact (thin_bytes_sublist hhead).trans (List.sublist_append_left _ _)
  · intro hw
    obtain rfl : lost = [] := hlost.resolve_right hw
    rw [ho, append_nil, count_append, count_append, count_rotate_eq hhead, count_rotate_eq htail]
  · intro before after heq
    rw [ho, append_assoc] at heq
    have hwrote : (bytesOf w.wrote).Sublist (bytesOf head) :=
      (bytesOf_sublist_append _ _).trans (thin_bytes_sublist hhead)
    rcases append_eq_append_iff.mp heq with ⟨c, hc, -⟩ | ⟨c, hc, hrest⟩
    · exact .inr (hwrote.trans (hc ▸ bytesOf_sublist_append _ _))
    · cases c with
      | nil =>
        rw [append_nil] at hc
        exact .inr (hc ▸ hwrote)
      | cons t c =>
        rw [cons_append] at hrest
        obtain ⟨rfl, hafter⟩ := List.cons.inj hrest
        subst hc
        rcases splits_of_thin hhead with ⟨a, b, h1, h2, h3, h4⟩ | h
        · exact .inl ⟨a, b, h1, h2, h3, h4.trans (hafter ▸ bytesOf_sublist_append _ _)⟩
        · exact .inr h

end LogWorld

end SerialNexus
