import SerialNexus.IdentitySet
import SerialNexus.LegSend
import SerialNexus.Wire

/-! # Two legs on one connection

What a leg makes of a connection (`daemon/src/nodes/leg.rs`): the hello of the peer decides which
channels are bound (`bind_channels`), and each event that is routed may mark a channel as active or
an identity as unbound (`route_recv`, `note_undeliverable`). -/

namespace SerialNexus

open List Function Framing

structure LegShared where
  bound : String → Bool
  active : String → Bool
  unbound : IdentitySet
  peerVersion : Option ℕ
  peerCapabilities : ℕ

namespace LegShared

def peerless : LegShared := ⟨fun _ => false, fun _ => false, .empty, none, 0⟩

def bindChannels (channels : List String) (hello : Hello) (s : LegShared) : LegShared :=
  { s with
    bound := fun ch => decide (ch ∈ channels ∧ ch ∈ hello.channels)
    unbound := IdentitySet.inserts.run s.unbound.clear (hello.channels.filter (· ∉ channels)) }

def setActive (channels : List String) (ch : String) (value : Bool) (s : LegShared) : LegShared :=
  if ch ∈ channels then { s with active := update s.active ch value } else s

def routeRecv (channels : List String) (s : LegShared) (ev : Event) : LegShared :=
  match ev.kind with
  | .data _ =>
    if ev.channel ∈ channels then s.setActive channels ev.channel true
    else { s with unbound := (s.unbound.insert ev.channel).2 }
  | .opened => s.setActive channels ev.channel true
  | .closed => s.setActive channels ev.channel false
  | .error _ => s

theorem routeRecv_bound (channels : List String) (s : LegShared) (ev : Event) :
    (s.routeRecv channels ev).bound = s.bound ∧
      (ev.channel ∈ channels → (s.routeRecv channels ev).unbound = s.unbound) := by
  unfold routeRecv setActive
  by_cases h : ev.channel ∈ channels <;> split <;> simp [h]

theorem foldl_routeRecv (channels : List String) (events : List Event) (s : LegShared) :
    (events.foldl (routeRecv channels) s).bound = s.bound ∧
      ((∀ ev ∈ events, ev.channel ∈ channels) →
        (events.foldl (routeRecv channels) s).unbound = s.unbound) := by
  induction events generalizing s with
  | nil => exact ⟨rfl, fun _ => rfl⟩
  | cons ev events ih =>
    obtain ⟨hb, hu⟩ := routeRecv_bound channels s ev
    obtain ⟨hb', hu'⟩ := ih (s.routeRecv channels ev)
    refine ⟨hb'.trans hb, fun h => ?_⟩
    rw [forall_mem_cons] at h
    exact (hu' h.2).trans (hu h.1)

end LegShared

/-- One connection, as the leg with these channels sees it: the reads it makes until it ends. -/
def connection (channels : List String) (reads : List (List UInt8)) :
    Except String (LegShared × List Event × PumpEnd) :=
  match receive reads with
  | .error reason => .error reason
  | .ok (hello, events, fin) =>
    let shared :=
      { LegShared.peerless with
        peerVersion := some hello.version
        peerCapabilities := hello.capabilities }.bindChannels channels hello
    .ok (events.foldl (LegShared.routeRecv channels) shared, events, fin)

variable {channels : List String} {sent : List (String × Chunk)} {reads : List (List UInt8)}
  {hello cut : List UInt8}

theorem receive_cut (hname : ∀ p ∈ sent, (utf8 p.1).length ≤ maxNameLen)
    (hhello : helloFrame channels = .ok hello) (hne : ∀ r ∈ reads, r ≠ [])
    (hreads : reads.flatten ++ cut = hello ++ written sent)
    (hlen : hello.length ≤ reads.flatten.length) :
    ∃ events, events <+: sentEvents sent ∧
      receive reads = .ok (ourHello channels, events, .peerGone) := by
  obtain ⟨frames, ⟨hsnd, henc⟩, hwritten⟩ := written_spec hname
  obtain ⟨got, hgot⟩ : hello <+: reads.flatten :=
    prefix_of_prefix_length_le (prefix_append _ _) (hreads ▸ prefix_append _ _) hlen
  have hrest : got ++ cut = (frames.map Prod.fst).flatten := by
    rw [← hwritten]
    rw [← hgot, append_assoc] at hreads
    exact append_cancel_left hreads
  obtain ⟨leftover, reads', htake, hne', hleft⟩ :=
    takeOne_frame "peer closed before sending a hello"
      ((helloFrame_frame hhello).mapError WireError.display) hne
      (show [] ++ reads.flatten = hello ++ got from hgot.symm)
  obtain ⟨done, rest, hdone, hfeed⟩ := feed_frames_cut lengthPrefixed_nil
    (fun f hf => (encode_frame (henc f hf)).1) hne'
    (show leftover ++ (reads'.flatten ++ cut) = _ by rw [← append_assoc, hleft, hrest])
  change feed tryDecode leftover reads' = _ at hfeed
  refine ⟨done.map Prod.snd, hsnd ▸ hdone.map Prod.snd, ?_⟩
  have hlive : (FrameDecoder.new.push leftover).live = leftover := by simp
  unfold receive
  rw [readHello, htake]
  dsimp only
  rw [readHalf_feed, hlive, hfeed]
  rfl

theorem connection_cut (mine : List String) (hname : ∀ p ∈ sent, (utf8 p.1).length ≤ maxNameLen)
    (hhello : helloFrame channels = .ok hello) (hne : ∀ r ∈ reads, r ≠ [])
    (hreads : reads.flatten ++ cut = hello ++ written sent)
    (hlen : hello.length ≤ reads.flatten.length) :
    ∃ shared events, connection mine reads = .ok (shared, events, .peerGone) ∧
      events <+: sentEvents sent ∧
      (∀ ch, shared.bound ch = decide (ch ∈ mine ∧ ch ∈ channels)) ∧
      ((∀ p ∈ sent, p.1 ∈ mine) →
        shared.unbound = IdentitySet.inserts.run .empty (channels.filter (· ∉ mine))) := by
  obtain ⟨events, hpre, hrecv⟩ := receive_cut hname hhello hne hreads hlen
  have hfold := LegShared.foldl_routeRecv mine events
    ({ LegShared.peerless with
      peerVersion := some wireVersion
      peerCapabilities := 0 }.bindChannels mine (ourHello channels))
  refine ⟨_, events, by rw [connection, hrecv]; rfl, hpre, fun ch => congrFun hfold.1 ch,
    fun hsent => hfold.2 fun ev hev => ?_⟩
  obtain ⟨p, hp, hev⟩ := mem_flatMap.mp (hpre.subset hev)
  obtain ⟨bytes, -, rfl⟩ := mem_map.mp hev
  exact hsent p hp

namespace SendMux

variable {n : ℕ} (s : SendMux n)

theorem channel_step (j : Fin n) (a : SendAct n) :
    ((s.step a).receivers j).channel = (s.receivers j).channel := by
  have hwith : ∀ (i : Fin n) (r : SendReceiver), r.channel = (s.receivers i).channel →
      ((s.withReceiver i r).receivers j).channel = (s.receivers j).channel := fun i r hr => by
    by_cases hi : j = i
    · subst hi
      simp only [withReceiver, update_self, hr]
    · rw [receivers_withReceiver _ hi]
  cases a with
  | poll =>
    rcases s.nextSend_cases with ⟨p, rx, -, -, -, -, -, -, -, he⟩ | ⟨-, he⟩
    · rw [show s.step .poll = _ from congrArg Prod.snd he]
      dsimp only
      by_cases hj : j = p.index
      · subst hj
        rw [update_self]
      · rw [update_of_ne hj]
        rfl
    · rw [show s.step .poll = _ from congrArg Prod.snd he]
      rfl
  | arrive i | sendersGone i | drain i => exact hwith i _ rfl

theorem channel_of_mem_pulls {as : List (SendAct n)} {p : Pulled n} (h : p ∈ s.pulls as) :
    p.channel = (s.receivers p.index).channel := by
  induction as generalizing s with
  | nil => simp [pulls, Runs.Machine.outputs] at h
  | cons a as ih =>
    rcases mem_append.mp h with h | h
    · cases a with
      | poll =>
        rcases s.nextSend_cases with ⟨q, rx, -, -, -, -, -, hch, -, he⟩ | ⟨-, he⟩
        · obtain rfl : p = q := by simpa [pull, he] using h
          exact hch
        · simp [s.pull_of_idle he] at h
      | arrive | sendersGone | drain => cases h
    · exact (ih (s.step a) h).trans (s.channel_step _ _)

def wrote (as : List (SendAct n)) : List (String × Chunk) :=
  (s.pulls as).map fun p => (p.channel, p.chunk)

theorem sentOn_wrote (hinj : Function.Injective fun j => (s.receivers j).channel)
    (as : List (SendAct n)) (j : Fin n) :
    sentOn (s.receivers j).channel (s.wrote as) = (pulledFrom j (s.pulls as)).flatten := by
  have hall : ∀ p ∈ s.pulls as, p.channel = (s.receivers p.index).channel :=
    fun p => s.channel_of_mem_pulls
  unfold wrote
  generalize s.pulls as = ps at hall ⊢
  induction ps with
  | nil => rfl
  | cons p ps ih =>
    rw [forall_mem_cons] at hall
    have hiff : p.channel = (s.receivers j).channel ↔ p.index = j :=
      hall.1 ▸ hinj.eq_iff (a := p.index)
    have := ih hall.2
    by_cases hp : p.index = j <;> simp_all [sentOn, pulledFrom]

end SendMux

theorem routed_isPrefix {events : List Event} (h : events <+: sentEvents sent) (ch : String) :
    routed ch events <+: sentOn ch sent := by
  obtain ⟨rest, hrest⟩ := h
  rw [← routed_sentEvents, ← hrest, routed_append]
  exact prefix_append _ _

section link

variable {a b : List String} {sentB : List (String × Chunk)}
  {helloA helloB cutA cutB : List UInt8} {readsA readsB : List (List UInt8)}

/-- **A leg delivers to its peer what was queued on it.**  Wherever the connection is cut, both ends
bind the same channels, and what the peer routes to a channel is the beginning of what was queued on
it; no identity is reported as unbound but those of the hello. -/
theorem link_delivers {n : ℕ} (mux : SendMux n) (as : List (SendMux.SendAct n))
    (hname : ∀ ch ∈ a, (utf8 ch).length ≤ maxNameLen)
    (hnameB : ∀ p ∈ sentB, (utf8 p.1).length ≤ maxNameLen)
    (hA : helloFrame a = .ok helloA) (hB : helloFrame b = .ok helloB)
    (hneA : ∀ r ∈ readsA, r ≠ []) (hneB : ∀ r ∈ readsB, r ≠ [])
    (hreadsA : readsA.flatten ++ cutA = helloB ++ written sentB)
    (hlenA : helloB.length ≤ readsA.flatten.length)
    {sharedA : LegShared} {eventsA : List Event} {fin : PumpEnd}
    (hconn : connection a readsA = .ok (sharedA, eventsA, fin))
    (hbound : ∀ j, (mux.receivers j).bound = sharedA.bound (mux.receivers j).channel)
    (hinj : Function.Injective fun j => (mux.receivers j).channel)
    (hreadsB : readsB.flatten ++ cutB = helloA ++ written (mux.wrote as))
    (hlenB : helloA.length ≤ readsB.flatten.length) :
    ∃ shared events, connection b readsB = .ok (shared, events, .peerGone) ∧
      shared.bound = sharedA.bound ∧
      shared.unbound = IdentitySet.inserts.run .empty (a.filter (· ∉ b)) ∧
      (∀ ev ∈ events, shared.bound ev.channel = true) ∧
      ∀ j, routed (mux.receivers j).channel events <+:
        ((mux.receivers j).queue ++ SendMux.machine.outputs (SendMux.queued j) mux as).flatten := by
  obtain ⟨sharedA', eventsA', hconnA, -, hboundA, -⟩ := connection_cut a hnameB hB hneA hreadsA hlenA
  obtain ⟨rfl, -⟩ := Prod.mk.inj (Except.ok.inj (hconn.symm.trans hconnA))
  -- a channel that is served is configured at both ends
  have hboth : ∀ p ∈ mux.wrote as, p.1 ∈ a ∧ p.1 ∈ b := by
    intro p hp
    obtain ⟨q, hq, rfl⟩ := mem_map.mp hp
    have hserved := mux.bound_of_mem_pulls hq
    rw [hbound, hboundA, decide_eq_true_iff] at hserved
    rw [mux.channel_of_mem_pulls hq]
    exact hserved
  obtain ⟨shared, events, hconnB, hpre, hshared, hunbound⟩ := connection_cut b
    (fun p hp => hname _ (hboth p hp).1) hA hneB hreadsB hlenB
  refine ⟨shared, events, hconnB, funext fun ch => ?_, hunbound fun p hp => (hboth p hp).2,
    fun ev hev => ?_, fun j => ?_⟩
  · rw [hshared, hboundA]
    exact decide_eq_decide.mpr And.comm
  · obtain ⟨p, hp, hev⟩ := mem_flatMap.mp (hpre.subset hev)
    obtain ⟨bytes, -, rfl⟩ := mem_map.mp hev
    rw [hshared, decide_eq_true_iff]
    exact (hboth p hp).symm
  · refine (routed_isPrefix hpre _).trans ?_
    rw [mux.sentOn_wrote hinj]
    obtain ⟨taken, hordered, -, -⟩ := mux.run_ordered j as
    rw [← hordered, append_assoc, flatten_append]
    exact prefix_append _ _

def oneChannel : SendMux 1 where
  receivers _ := ⟨"b", ⟨some ⟨4, [[7, 8]], true, by decide, by simp⟩, 0⟩, true, true⟩
  start := 0

theorem link_delivers_oneChannel : ∃ helloA helloB shared events,
    helloFrame ["a", "b"] = .ok helloA ∧ helloFrame ["b", "c"] = .ok helloB ∧
    connection ["b", "c"] [helloA, written (oneChannel.wrote [.poll])] =
      .ok (shared, events, .peerGone) ∧
    routed "b" events <+: [7, 8, 9] := by
  obtain ⟨⟨helloA, hA⟩, helloB, hB⟩ : (∃ hello, helloFrame ["a", "b"] = .ok hello) ∧
      ∃ hello, helloFrame ["b", "c"] = .ok hello :=
    ⟨(helloFrame_ok_iff (by decide +kernel)).mpr (by decide +kernel),
      (helloFrame_ok_iff (by decide +kernel)).mpr (by decide +kernel)⟩
  have hneA := (helloFrame_frame hA).nonempty
  have hneB := (helloFrame_frame hB).nonempty
  have hwire : written (oneChannel.wrote [.poll]) ≠ [] := by decide +kernel
  have hboth : written (oneChannel.wrote [.poll, .arrive 0 [9], .poll]) =
      written (oneChannel.wrote [.poll]) ++ written [("b", [9])] := by decide +kernel
  have hempty : ∀ p ∈ ([] : List (String × Chunk)), (utf8 p.1).length ≤ maxNameLen := by simp
  have hread : [helloB].flatten ++ [] = helloB ++ written [] := by simp [written]
  obtain ⟨sharedA, eventsA, hconnA, -, hboundA, -⟩ :=
    connection_cut ["a", "b"] hempty hB (by simpa using hneB) hread (by simp)
  obtain ⟨shared, events, hconn, -, -, -, hrouted⟩ := link_delivers oneChannel
    [.poll, .arrive 0 [9], .poll] (by decide +kernel) hempty hA hB (by simpa using hneB)
    (by simpa using ⟨hneA, hwire⟩) hread (by simp) hconnA
    (fun j => (by decide : true = decide ("b" ∈ ["a", "b"] ∧ "b" ∈ ["b", "c"])).trans
      (hboundA "b").symm) (fun _ _ _ => Subsingleton.elim _ _)
    (show [helloA, written (oneChannel.wrote [.poll])].flatten ++ written [("b", [9])] = _ by
      simp [hboth]) (by simp)
  exact ⟨helloA, helloB, shared, events, hA, hB, hconn, hrouted 0⟩

end link

end SerialNexus
