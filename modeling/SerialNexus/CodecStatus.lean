import SerialNexus.CodecNode

/-! # The status of a codec node

A codec node is faulted while its transform refuses chunks, and otherwise active or waiting as its
upstream edge is attached or not (`truth`).  The status is wrong after one kind of step only: chunks
are left over from an edge that was detached, one is refused and the next accepted; then
`clear_demux_fault` makes the node active, and nothing is attached. -/

namespace SerialNexus
namespace CodecNode

variable {σ : Type*}

section definitions
variable (s : CodecNode σ)

def refusal : Option String := s.since.getLast?.bind id

def truth : NodeStatus :=
  match s.refusal with
  | some message => .faulted (demuxFaultPrefix ++ message)
  | none => if s.attached then .active else .waiting noUpstreamReason

def Truthful : Prop := s.status = s.truth

instance : Decidable s.Truthful := inferInstanceAs (Decidable (_ = _))

def recoversUnattached (transform : σ → Chunk → Demuxed σ) : CodecNodeAct → Bool
  | .demux =>
    match s.pending with
    | [] => false
    | chunk :: _ =>
      (transform s.codec chunk).result.isOk && !s.attached && s.refusal.isSome
  | _ => false

end definitions

def health (s : CodecNode σ) : DemuxHealth × NodeStatus × Bool × List (Option String) :=
  (s.demux, s.status, s.attached, s.since)

theorem foldl_routeEvent_health (s : CodecNode σ) (events : List Event) :
    (events.foldl routeEvent s).health = s.health := by
  obtain ⟨buffers, stats, unconfigured, log, heq⟩ := s.foldl_routeEvent_frame events
  rw [heq]
  rfl

structure Flagged (s : CodecNode σ) : Prop where
  set : ∀ message, s.refusal = some message → s.demux.faulted = true ∧
    s.demux.last = some message ∧ s.status = .faulted (demuxFaultPrefix ++ message)
  unset : s.refusal = none → s.demux.faulted = false

variable {s s' : CodecNode σ}

theorem Flagged.of_health (h : s.Flagged) (heq : s'.health = s.health) : s'.Flagged := by
  obtain ⟨hdemux, hstatus, -, hsince⟩ : s'.demux = s.demux ∧ s'.status = s.status ∧
      s'.attached = s.attached ∧ s'.since = s.since := by simpa [health] using heq
  have href : s'.refusal = s.refusal := by rw [refusal, refusal, hsince]
  refine ⟨?_, ?_⟩
  · rw [href, hdemux, hstatus]
    exact h.set
  · rw [href, hdemux]
    exact h.unset

theorem truthful_iff_of_health (heq : s'.health = s.health) : s'.Truthful ↔ s.Truthful := by
  obtain ⟨-, hstatus, hattached, hsince⟩ : s'.demux = s.demux ∧ s'.status = s.status ∧
      s'.attached = s.attached ∧ s'.since = s.since := by simpa [health] using heq
  rw [Truthful, Truthful, truth, truth, refusal, refusal, hstatus, hattached, hsince]

theorem Flagged.faulted_iff (h : s.Flagged) : s.demux.faulted = true ↔ s.refusal.isSome = true := by
  cases href : s.refusal with
  | none => simp [h.unset href]
  | some message => simp [(h.set message href).1]

theorem Flagged.status_of_faulted (h : s.Flagged) (hf : s.demux.faulted = true) {message : String}
    (hlast : s.demux.last = some message) : s.status = .faulted (demuxFaultPrefix ++ message) := by
  obtain ⟨m, href⟩ := Option.isSome_iff_exists.mp (h.faulted_iff.mp hf)
  obtain ⟨-, hlast', hstatus⟩ := h.set m href
  obtain rfl : m = message := Option.some.inj (hlast'.symm.trans hlast)
  exact hstatus

theorem noteDemuxError_status (chunkLen salvaged : ℕ) {reason : String}
    (h : s.demux.faulted = true → s.demux.last = some reason →
      s.status = .faulted (demuxFaultPrefix ++ reason)) :
    (s.noteDemuxError chunkLen salvaged reason).demux.faulted = true ∧
      (s.noteDemuxError chunkLen salvaged reason).demux.last = some reason ∧
      (s.noteDemuxError chunkLen salvaged reason).status =
        .faulted (demuxFaultPrefix ++ reason) := by
  unfold noteDemuxError
  by_cases hsame : s.demux.last = some reason ∧ s.demux.faulted = true
  · rw [if_pos hsame]
    exact ⟨hsame.2, rfl, h hsame.2 hsame.1⟩
  · rw [if_neg hsame]
    exact ⟨rfl, rfl, rfl⟩

theorem noteDemuxError_since (chunkLen salvaged : ℕ) (reason : String) :
    (s.noteDemuxError chunkLen salvaged reason).since = s.since := by
  unfold noteDemuxError
  split <;> rfl

theorem clearDemuxFault_status {message : String}
    (h : s.status = .faulted (demuxFaultPrefix ++ message)) :
    s.clearDemuxFault.status = .active := by
  have hbegins :
      demuxFaultPrefix.toList.isPrefixOf (demuxFaultPrefix ++ message).toList = true := by
    rw [List.isPrefixOf_iff_prefix, String.toList_append]
    exact List.prefix_append _ _
  rw [clearDemuxFault, h]
  exact if_pos hbegins

variable {chunk : Chunk}

/-! ### One step -/

theorem demuxChunk_refused (transform : σ → Chunk → Demuxed σ) (h : s.Flagged) {e : CodecError}
    (he : (transform s.codec chunk).result = .error e) :
    (s.demuxChunk transform chunk).Flagged ∧ (s.demuxChunk transform chunk).Truthful := by
  let s₁ := s.recordCall chunk (transform s.codec chunk)
  let s₂ := s₁.noteDemuxError chunk.length (salvaged (transform s.codec chunk).events) e.display
  have heq : (s.demuxChunk transform chunk).health = s₂.health := by
    rw [demuxChunk, foldl_routeEvent_health, he]
    rfl
  obtain ⟨hf, hlast, hstatus⟩ := noteDemuxError_status (s := s₁) chunk.length
    (salvaged (transform s.codec chunk).events) fun hf hlast => h.status_of_faulted hf hlast
  have href : s₂.refusal = some e.display := by
    rw [refusal, noteDemuxError_since]
    simp [s₁, recordCall, he, verdict]
  refine ⟨Flagged.of_health ⟨fun message hm => ?_, fun hnone => ?_⟩ heq,
    (truthful_iff_of_health heq).mpr ?_⟩
  · obtain rfl : e.display = message := Option.some.inj (href.symm.trans hm)
    exact ⟨hf, hlast, hstatus⟩
  · rw [href] at hnone
    cases hnone
  · rw [Truthful, truth, href]
    exact hstatus

theorem demuxChunk_accepted (transform : σ → Chunk → Demuxed σ) (h : s.Flagged)
    (hok : (transform s.codec chunk).result = .ok ()) :
    (s.demuxChunk transform chunk).Flagged ∧
      (s.Truthful → ((s.demuxChunk transform chunk).Truthful ↔
        (s.attached = true ∨ s.refusal = none))) := by
  let s₁ := s.recordCall chunk (transform s.codec chunk)
  let s₂ := if s.demux.faulted then s₁.clearDemuxFault else s₁
  have heq : (s.demuxChunk transform chunk).health = s₂.health := by
    rw [demuxChunk, foldl_routeEvent_health, hok]
    rfl
  have href : s₂.refusal = none := by
    cases hf : s.demux.faulted <;>
      simp [s₂, s₁, hf, refusal, clearDemuxFault, recordCall, hok, verdict]
  have hattached : s₂.attached = s.attached := by
    cases hf : s.demux.faulted <;> simp [s₂, s₁, hf, clearDemuxFault, recordCall]
  have hunset : s₂.demux.faulted = false := by
    cases hf : s.demux.faulted <;> simp [s₂, s₁, hf, clearDemuxFault, recordCall]
  refine ⟨Flagged.of_health ⟨fun message hm => ?_, fun _ => hunset⟩ heq, fun htrue => ?_⟩
  · rw [href] at hm
    cases hm
  · rw [truthful_iff_of_health heq, Truthful, truth, href, hattached]
    cases hrefusal : s.refusal with
    | none =>
      have hstatus : s₂.status = s.status := by simp [s₂, s₁, h.unset hrefusal, recordCall]
      rw [Truthful, truth, hrefusal] at htrue
      exact iff_of_true (hstatus.trans htrue) (.inr rfl)
    | some message =>
      obtain ⟨hf, -, hfault⟩ := h.set message hrefusal
      have hactive : s₁.clearDemuxFault.status = .active := clearDemuxFault_status hfault
      have hstatus : s₂.status = .active := by simpa [s₂, hf] using hactive
      rw [hstatus]
      cases s.attached <;> simp

theorem setUpstreamAttached_flagged (s : CodecNode σ) (attached : Bool) :
    (s.setUpstreamAttached attached).Flagged ∧ (s.setUpstreamAttached attached).Truthful :=
  ⟨⟨fun _ hm => (by cases hm), fun _ => rfl⟩, rfl⟩

theorem step_truthful {transform : σ → Chunk → Demuxed σ} (h : s.Flagged) (a : CodecNodeAct) :
    (s.step transform a).Flagged ∧
      (s.Truthful →
        ((s.step transform a).Truthful ↔ s.recoversUnattached transform a = false)) := by
  have hframe (s' : CodecNode σ) (heq : s'.health = s.health) :
      s'.Flagged ∧ (s.Truthful → (s'.Truthful ↔ false = false)) :=
    ⟨h.of_health heq, fun htrue => iff_of_true ((truthful_iff_of_health heq).mpr htrue) rfl⟩
  cases a with
  | setUpstreamAttached attached =>
    obtain ⟨hflag, htruth⟩ := setUpstreamAttached_flagged s attached
    exact ⟨hflag, fun _ => iff_of_true htruth rfl⟩
  | arrive | attach | detach | receive | hangUp => exact hframe _ rfl
  | demux =>
    unfold step recoversUnattached
    dsimp only
    cases hpending : s.pending with
    | nil => exact hframe s rfl
    | cons chunk rest =>
      have hpop : ({ s with pending := rest } : CodecNode σ).Flagged := h.of_health rfl
      dsimp only
      cases hres : (transform s.codec chunk).result with
      | error e =>
        obtain ⟨hflag, htruth⟩ := demuxChunk_refused transform hpop hres
        exact ⟨hflag, fun _ => iff_of_true htruth rfl⟩
      | ok =>
        obtain ⟨hflag, htruth⟩ := demuxChunk_accepted transform hpop hres
        refine ⟨hflag, fun htrue => (htruth htrue).trans ?_⟩
        change s.attached = true ∨ s.refusal = none ↔ _
        cases s.attached <;> cases s.refusal <;> simp [Except.isOk, Except.toBool]

theorem status_truthful_iff (transform : σ → Chunk → Demuxed σ) (codec : σ)
    (channels : Finset String) (wired : String → Bool) (attached : Bool) (as : List CodecNodeAct)
    (hl : (machine transform).Legal (start codec channels wired attached) as) :
    (machine transform).Always Truthful (start codec channels wired attached) as ↔
      (machine transform).Each (fun s a => s.recoversUnattached transform a = false)
        (start codec channels wired attached) as := by
  have hflag : (start codec channels wired attached).Flagged :=
    ⟨fun _ hm => (by cases hm), fun _ => rfl⟩
  have htruth : (start codec channels wired attached).Truthful := rfl
  exact Runs.Machine.always_iff_each (I := Flagged) (P := Truthful)
    (fun _ a h _ => (step_truthful h a).1)
    (fun _ a h _ htrue => (step_truthful h a).2 htrue) hflag htruth hl

def picky (_ : Unit) (chunk : Chunk) : Demuxed Unit :=
  ⟨if chunk.head? = some 0 then .error (.framing "zero") else .ok (), [], ()⟩

def transientRun : List CodecNodeAct :=
  [.arrive [0], .arrive [0, 1], .arrive [1], .arrive [0], .demux, .demux, .demux,
    .setUpstreamAttached false, .demux]

theorem status_truthful_iff_transientRun :
    (machine picky).Always Truthful (start () ∅ (fun _ => false) true) transientRun ∧
      ((machine picky).run (start () ∅ (fun _ => false) true) transientRun).status =
        .faulted "codec demux error: framing error: zero" := by
  have hlegal : (machine picky).Legal (start () ∅ (fun _ => false) true) transientRun := by
    decide +kernel
  exact ⟨(status_truthful_iff picky () ∅ _ true transientRun hlegal).mpr (by decide +kernel),
    by decide +kernel⟩

def leftoverRun : List CodecNodeAct :=
  [.arrive [0], .arrive [1], .setUpstreamAttached false, .demux, .demux]

theorem active_while_detached :
    (machine picky).Legal (start () ∅ (fun _ => false) true) leftoverRun ∧
      ((machine picky).run (start () ∅ (fun _ => false) true) leftoverRun).attached = false ∧
      ((machine picky).run (start () ∅ (fun _ => false) true) leftoverRun).since =
        [some "framing error: zero", none] ∧
      ((machine picky).run (start () ∅ (fun _ => false) true) leftoverRun).status = .active ∧
      ¬ ((machine picky).run (start () ∅ (fun _ => false) true) leftoverRun).Truthful := by
  decide +kernel

end CodecNode
end SerialNexus
