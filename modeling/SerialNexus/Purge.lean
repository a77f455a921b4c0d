import SerialNexus.SendQueue
import SerialNexus.TargetwardInbox

/-! # The purge of a reconnect

`purge_to_quiescence` (`daemon/src/runtime.rs`) drains a targetward queue in rounds, with a yield
after each round for the senders that were suspended behind the full queue, and stops after a round
that drained nothing, or after `PURGE_ROUNDS`.

What the senders do in a yield is a parameter.  If each sender granted a permit puts its chunk in
the queue in the next yield, the purge is complete if no sender has a permit when it starts.  It is
not if the queue is empty and some have: the first round then drains nothing. -/

namespace SerialNexus

open List TargetwardInbox SendQueue

variable {ι : Type*} [TeardownBytes ι]

structure Purged (ι : Type*) where
  rounds : ℕ
  charges : List ℕ
  removed : List ι
  after : SendQueue ι

def purgeLoop (yields : ℕ → SendQueue ι → SendQueue ι) : ℕ → SendQueue ι → Purged ι
  | 0, q => ⟨0, [], [], q⟩
  | fuel + 1, q =>
    let (bytes, drainedAny, _) := (TargetwardInbox.new q.channel).purgeRound
    let (items, q) := q.drain
    let charge := if bytes > 0 then [bytes] else []
    if drainedAny then
      let rest := purgeLoop yields fuel (yields fuel q)
      ⟨rest.rounds + 1, charge ++ rest.charges, items ++ rest.removed, rest.after⟩
    else ⟨1, charge, items, q⟩

/-- Drain to quiescence. -/
def purgeToQuiescence (yields : ℕ → SendQueue ι → SendQueue ι) (q : SendQueue ι) : Purged ι :=
  purgeLoop yields purgeRounds q

variable {yields : ℕ → SendQueue ι → SendQueue ι} {q q' : SendQueue ι}

def backlog (q : SendQueue ι) : ℕ := weight q.queue + weight q.granted + weight q.waiting

theorem weight_append (as bs : List ι) : weight (as ++ bs) = weight as + weight bs := by
  simp [weight]

theorem weight_perm {as bs : List ι} (h : as.Perm bs) : weight as = weight bs :=
  (h.map teardownBytes).sum_eq

theorem purgeRound_channel (q : SendQueue ι) :
    (TargetwardInbox.new q.channel).purgeRound.1 = weight q.queue ∧
      (TargetwardInbox.new q.channel).purgeRound.2.1 = !q.queue.isEmpty := by
  have hdrain := q.channel.drain_spec.1
  unfold TargetwardInbox.purgeRound TargetwardInbox.new
  dsimp only
  rw [hdrain]
  exact ⟨rfl, rfl⟩

theorem backlog_drained {items : List ι} (h : q.Drained items q') :
    weight items + backlog q' = backlog q := by
  have hsplit := weight_append (q.waiting.take q.queue.length) (q.waiting.drop q.queue.length)
  rw [take_append_drop] at hsplit
  rw [backlog, backlog, h.items, h.queue, h.granted, h.waiting, weight_append, hsplit]
  simp only [weight, map_nil, sum_nil]
  omega

theorem backlog_resolved (h : q.Resolved q') : backlog q' = backlog q := by
  rw [backlog, backlog, weight_perm h.queue, h.granted, h.waiting, weight_append]
  simp only [weight, map_nil, sum_nil]
  omega

theorem purgeLoop_nil (fuel : ℕ) (hq : q.queue = []) :
    purgeLoop yields (fuel + 1) q = ⟨1, [], [], q⟩ := by
  obtain ⟨hbytes, hany⟩ := purgeRound_channel q
  have hdrain : q.drain = ([], q) := by
    rw [SendQueue.drain, hq]
    rfl
  rw [purgeLoop]
  dsimp only
  rw [hbytes, hany, hdrain, hq]
  rfl

theorem purgeLoop_cons (yields : ℕ → SendQueue ι → SendQueue ι) (fuel : ℕ) (hq : q.queue ≠ []) :
    ∃ charge : List ℕ, charge.sum = weight q.queue ∧
      purgeLoop yields (fuel + 1) q =
        ⟨(purgeLoop yields fuel (yields fuel q.drain.2)).rounds + 1,
          charge ++ (purgeLoop yields fuel (yields fuel q.drain.2)).charges,
          q.queue ++ (purgeLoop yields fuel (yields fuel q.drain.2)).removed,
          (purgeLoop yields fuel (yields fuel q.drain.2)).after⟩ := by
  obtain ⟨hbytes, hany⟩ := purgeRound_channel q
  refine ⟨if weight q.queue > 0 then [weight q.queue] else [], ?_, ?_⟩
  · split
    · exact sum_singleton
    · next h => exact (Nat.eq_zero_of_not_pos h).symm
  · rw [purgeLoop]
    dsimp only
    rw [hbytes, hany, if_pos (by simpa using hq), q.drain_drained.items]

theorem purgeLoop_charges
    (hyield : ∀ round q, ∃ moves, yields round q = List.foldl SendQueue.step q moves)
    {left : List ι} (hq : q.entered = left ++ q.queue) (fuel : ℕ) :
    (purgeLoop yields fuel q).rounds ≤ fuel ∧
      (purgeLoop yields fuel q).charges.sum = weight (purgeLoop yields fuel q).removed ∧
      (purgeLoop yields fuel q).after.entered =
        left ++ (purgeLoop yields fuel q).removed ++ (purgeLoop yields fuel q).after.queue := by
  induction fuel generalizing q left with
  | zero => exact ⟨le_rfl, rfl, by simpa [purgeLoop] using hq⟩
  | succ fuel ih =>
    by_cases hnil : q.queue = []
    · rw [purgeLoop_nil fuel hnil]
      exact ⟨Nat.le_add_left 1 fuel, rfl, by simpa using hq⟩
    · obtain ⟨charge, hcharge, hloop⟩ := purgeLoop_cons yields fuel hnil
      have hdrained := q.drain_drained
      obtain ⟨moves, hmoves⟩ := hyield fuel q.drain.2
      have hleft : (yields fuel q.drain.2).entered =
          (left ++ q.queue) ++ (yields fuel q.drain.2).queue := by
        rw [hmoves]
        refine foldl_entered moves ?_
        rw [hdrained.entered, hdrained.queue, append_nil, hq]
      obtain ⟨hrounds, hsum, hentered⟩ := ih hleft
      rw [hloop]
      refine ⟨Nat.succ_le_succ hrounds, ?_, ?_⟩
      · rw [sum_append, hcharge, hsum, weight_append]
      · rw [hentered, append_assoc left]

theorem purgeLoop_backlog (hyield : ∀ round q, SendQueue.Resolved q (yields round q)) (fuel : ℕ) :
    (purgeLoop yields fuel q).charges.sum + backlog (purgeLoop yields fuel q).after = backlog q := by
  induction fuel generalizing q with
  | zero => exact Nat.zero_add _
  | succ fuel ih =>
    by_cases hnil : q.queue = []
    · rw [purgeLoop_nil fuel hnil]
      exact Nat.zero_add _
    · obtain ⟨charge, hcharge, hloop⟩ := purgeLoop_cons yields fuel hnil
      have hdrained := backlog_drained q.drain_drained
      have hrest := ih (q := yields fuel q.drain.2)
      rw [backlog_resolved (hyield fuel q.drain.2)] at hrest
      rw [q.drain_drained.items] at hdrained
      rw [hloop, sum_append, hcharge]
      dsimp only
      omega

def Quiescent (q : SendQueue ι) : Prop := q.queue = [] ∧ q.granted = [] ∧ q.waiting = []

omit [TeardownBytes ι] in
theorem Quiescent.resolved (h : Quiescent q) (hr : q.Resolved q') : Quiescent q' := by
  have hperm := hr.queue
  rw [h.1, h.2.1] at hperm
  exact ⟨List.perm_nil.mp hperm, hr.granted, hr.waiting.trans h.2.2⟩

theorem purgeLoop_quiescent (h : Quiescent q) (fuel : ℕ) : Quiescent (purgeLoop yields fuel q).after := by
  cases fuel with
  | zero => exact h
  | succ fuel =>
    rw [purgeLoop_nil fuel h.1]
    exact h

omit [TeardownBytes ι] in
theorem round_resolved (hr : q.drain.2.Resolved q') :
    q'.queue.length = q.granted.length + min q.queue.length q.waiting.length ∧ q'.granted = [] ∧
      q'.waiting = q.waiting.drop q.queue.length := by
  have hdrained := q.drain_drained
  refine ⟨?_, hr.granted, hr.waiting.trans hdrained.waiting⟩
  rw [hr.queue.length_eq, hdrained.queue, hdrained.granted, nil_append, length_append, length_take]

theorem purgeLoop_two (hyield : ∀ round q, SendQueue.Resolved q (yields round q))
    (hgranted : q.granted = []) (hwaiting : q.waiting.length ≤ q.queue.length) :
    Quiescent (purgeLoop yields 2 q).after := by
  by_cases hnil : q.queue = []
  · rw [purgeLoop_nil 1 hnil]
    rw [hnil] at hwaiting
    exact ⟨hnil, hgranted, eq_nil_of_length_eq_zero (Nat.le_zero.mp hwaiting)⟩
  · obtain ⟨charge, -, hloop⟩ := purgeLoop_cons yields 1 hnil
    rw [hloop]
    dsimp only
    -- the second round drains the last of the senders
    obtain ⟨-, hg, hw⟩ := round_resolved (hyield 1 q.drain.2)
    rw [drop_eq_nil_of_le hwaiting] at hw
    generalize yields 1 q.drain.2 = q₁ at hg hw
    by_cases hnil₁ : q₁.queue = []
    · exact purgeLoop_quiescent ⟨hnil₁, hg, hw⟩ 1
    · obtain ⟨charge, -, hloop⟩ := purgeLoop_cons yields 0 hnil₁
      rw [hloop]
      have hdrained := q₁.drain_drained
      refine Quiescent.resolved (q := q₁.drain.2) ⟨hdrained.queue, ?_, ?_⟩ (hyield 0 _)
      · rw [hdrained.granted, hg, hw, take_nil]
        rfl
      · rw [hdrained.waiting, hw, drop_nil]

theorem purgeLoop_three (hyield : ∀ round q, SendQueue.Resolved q (yields round q))
    (hq : q.queue ≠ []) (hcount : q.granted.length + q.waiting.length ≤ 2 * q.cap) :
    Quiescent (purgeLoop yields 3 q).after := by
  obtain ⟨charge, -, hloop⟩ := purgeLoop_cons yields 2 hq
  rw [hloop]
  obtain ⟨hqueue, hgranted, hwaiting⟩ := round_resolved (hyield 2 q.drain.2)
  refine purgeLoop_two hyield hgranted ?_
  rw [hwaiting, hqueue, length_drop]
  by_cases hmore : q.waiting = []
  · rw [hmore, length_nil]
    omega
  · have hfull := q.full hmore
    omega

theorem purge_complete_iff (q : SendQueue ι) (yields : ℕ → SendQueue ι → SendQueue ι) :
    ((∀ round q, ∃ moves, yields round q = List.foldl SendQueue.step q moves) →
      q.entered = q.queue →
      let purged := purgeToQuiescence yields q
      purged.rounds ≤ purgeRounds ∧ purged.charges.sum = weight purged.removed ∧
        purged.after.entered = purged.removed ++ purged.after.queue) ∧
    ((∀ round q, SendQueue.Resolved q (yields round q)) →
      q.granted.length + q.waiting.length ≤ 2 * q.cap →
      let purged := purgeToQuiescence yields q
      let complete := Quiescent purged.after ∧
        purged.charges.sum = weight q.queue + weight q.granted + weight q.waiting
      (q.granted = [] → complete) ∧
        (complete ↔ q.queue ≠ [] ∨ q.granted = [] ∧ q.waiting = [])) := by
  refine ⟨fun hyield hq => ?_, fun hyield hcount => ?_⟩
  · have hq' : q.entered = [] ++ q.queue := hq
    exact purgeLoop_charges hyield hq' purgeRounds
  · intro purged complete
    have hcomplete (hstart : q.queue ≠ [] ∨ q.granted = [] ∧ q.waiting = []) : complete := by
      have hquiet : Quiescent purged.after := by
        by_cases hq : q.queue = []
        · obtain ⟨hgranted, hwaiting⟩ := hstart.resolve_left (not_not.mpr hq)
          exact purgeLoop_quiescent ⟨hq, hgranted, hwaiting⟩ purgeRounds
        · exact purgeLoop_three hyield hq hcount
      refine ⟨hquiet, ?_⟩
      have hall : purged.charges.sum + backlog purged.after = backlog q :=
        purgeLoop_backlog hyield purgeRounds
      obtain ⟨h₁, h₂, h₃⟩ := hquiet
      rw [backlog, h₁, h₂, h₃] at hall
      exact hall
    refine ⟨fun hgranted => hcomplete ?_, ?_, hcomplete⟩
    · by_cases hq : q.queue = []
      · -- with nothing queued and no permit given, nobody has had to wait
        refine .inr ⟨hgranted, ?_⟩
        by_contra hwaiting
        have hfull := q.full hwaiting
        have hsome := length_pos_of_ne_nil hwaiting
        rw [hq, hgranted] at hfull
        simp only [length_nil] at hfull
        omega
      · exact .inl hq
    · rintro ⟨⟨-, hgranted, hwaiting⟩, -⟩
      by_contra hno
      obtain ⟨hnil, hsome⟩ := not_or.mp hno
      rw [ne_eq, not_not] at hnil
      have hfirst : purged = ⟨1, [], [], q⟩ := purgeLoop_nil 2 hnil
      rw [hfirst] at hgranted hwaiting
      exact hsome ⟨hgranted, hwaiting⟩

def backpressured : SendQueue Chunk := (((SendQueue.new 1).send []).send [1]).send [2, 3]

theorem purge_complete_backpressured :
    let purged := purgeToQuiescence (fun _ => SendQueue.pushAll) backpressured
    Quiescent purged.after ∧ purged.charges = [1, 2] ∧ purged.rounds = 3 := by
  intro purged
  have hcount : backpressured.granted.length + backpressured.waiting.length ≤
      2 * backpressured.cap := by decide
  have hcomplete := ((purge_complete_iff backpressured fun _ => SendQueue.pushAll).2
    (fun _ q => q.pushAll_resolved) hcount).1 (by decide)
  exact ⟨hcomplete.1, by decide, by decide⟩

def grantedSender : SendQueue Chunk := (((SendQueue.new 1).send [0]).send [1]).recv.2

theorem purge_misses_grantedSender :
    let purged := purgeToQuiescence (fun _ => SendQueue.pushAll) grantedSender
    grantedSender.granted.length + grantedSender.waiting.length ≤ 2 * grantedSender.cap ∧
      ¬ Quiescent purged.after ∧ purged.charges = [] ∧ purged.rounds = 1 ∧
      purged.after.granted = [[1]] ∧ purged.after.pushAll.queue = [[1]] := by
  intro purged
  refine ⟨by decide, ?_, by decide, by decide, by decide, by decide⟩
  intro hquiet
  exact absurd hquiet.2.1 (by decide)

end SerialNexus
