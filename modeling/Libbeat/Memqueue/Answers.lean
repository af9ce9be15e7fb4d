import Libbeat.Memqueue.ProducerIDs

/-!
# Answered requests and published calls

The broker answers a request in the same step that inserts it, but the
producer reads the answer only at its second select, where `<-req.resp` and
`<-st.queueClosing` are both cases. Once the queue closes after the answer
both are ready and the select may take either: the call then returns
`(0, false)` for an event the queue holds (`publish_returns_false_for_inserted`).
Beyond that one request nothing is lost: the broker never holds more of an ACK
producer's requests than its published calls plus the one in flight, and
only a producer whose last call failed can have one answered request more.
-/

namespace Libbeat.Memqueue

variable {E : Type}

open Producer

/-- The requests of producer `p` that the broker inserted and answered. -/
def Sys.answered (s : Sys E) (p : Nat) : List (PushRequest E) :=
  s.entries.filter (·.producer == some p)

/-- The push channel loses, duplicates and reorders nothing: what an ACK
producer wrote is, in order, what the broker inserted from it followed by what
still waits in the channel. -/
theorem ack_requests_in_order {s : Sys E} (hs : Reachable s) {p : Nat} {pr : Producer E}
    (hp : s.producers[p]? = some pr) (hack : pr.ack = true) :
    s.answered p ++ s.pushChan.filter (·.producer == some p) = pr.sent := by
  simpa [Sys.answered, written, hp, hack] using hs.fifo p

/-- Two requests answered and one still in the channel. -/
theorem ack_requests_in_order_two :
    ∃ s pr, run (Sys.init 1) twoPublishedOneSent = some s ∧ s.producers[0]? = some pr ∧
      pr.ack = true ∧ (s.answered 0).length = 2 ∧
      (s.pushChan.filter (·.producer == some 0)).length = 1 ∧
      s.answered 0 ++ s.pushChan.filter (·.producer == some 0) = pr.sent := by
  have key : (run (Sys.init 1) twoPublishedOneSent).bind (fun s => s.producers[0]?.map
      fun pr => (pr.ack, (s.answered 0).length,
        (s.pushChan.filter (·.producer == some 0)).length)) = some (true, 2, 1) := rfl
  obtain ⟨s, pr, hrun, hp, hf⟩ := exists_run_producer key
  simp only [Prod.mk.injEq] at hf
  exact ⟨s, pr, hrun, hp, hf.1, hf.2.1, hf.2.2,
    ack_requests_in_order ((Reachable.init 1).run hrun) hp hf.1⟩

/-- The broker holds at most one request of an ACK producer beyond its
published calls, and while the producer has not failed at most the one its
current call has in flight. -/
theorem answered_le_published {s : Sys E} (hs : Reachable s) {p : Nat} {pr : Producer E}
    (hp : s.producers[p]? = some pr) (hack : pr.ack = true) :
    (s.answered p).length ≤ (published pr.returns).length + 1 ∧
    (pr.events = true →
      (s.answered p).length ≤ (published pr.returns).length + pr.phase.inFlight.toNat) := by
  have h := hs.idInv hp hack
  have hw : (s.answered p).length ≤ pr.sent.length := by
    have := congrArg List.length (hs.fifo p)
    simp only [List.filter_append, List.length_append, written, hp, hack, if_true] at this
    exact this ▸ Nat.le_add_right _ _
  exact ⟨hw.trans h.bounded, fun he => h.balanced he ▸ hw⟩

/-- The third request inserted and answered but not yet received: three
answered requests against two published calls and one in flight, both bounds
reached. -/
theorem answered_le_published_three :
    ∃ s pr, run (Sys.init 1) (twoPublishedOneSent ++ [.push]) = some s ∧
      s.producers[0]? = some pr ∧ pr.ack = true ∧ (s.answered 0).length = 3 ∧
      (published pr.returns).length = 2 ∧ pr.events = true ∧ pr.phase.inFlight = true ∧
      ((s.answered 0).length ≤ (published pr.returns).length + 1 ∧
        (pr.events = true →
          (s.answered 0).length ≤ (published pr.returns).length + pr.phase.inFlight.toNat)) := by
  have key : (run (Sys.init 1) (twoPublishedOneSent ++ [.push])).bind (fun s => s.producers[0]?.map
      fun pr => (pr.ack, (s.answered 0).length, (published pr.returns).length, pr.events,
        pr.phase.inFlight)) = some (true, 3, 2, true, true) := rfl
  obtain ⟨s, pr, hrun, hp, hf⟩ := exists_run_producer key
  simp only [Prod.mk.injEq] at hf
  obtain ⟨hack, h3, h2, hev, hfl⟩ := hf
  exact ⟨s, pr, hrun, hp, hack, h3, h2, hev, hfl,
    answered_le_published ((Reachable.init 1).run hrun) hp hack⟩

/-- A `Publish` whose request the broker answers just before the queue
closes, and whose second select then takes the closing case. -/
def answeredThenClosed : List (Act Unit) :=
  [.newProducer true none, .call 0 .publish (), .selectSend 0, .push, .closeQueue, .selectClosing 0]

/-- The only call of the producer returned `(0, false)`, yet the broker
inserted its request and answered it with entry 0. -/
theorem publish_returns_false_for_inserted :
    ∃ s : Sys Unit, Reachable s ∧ ∃ pr, s.producers[0]? = some pr ∧ pr.phase = .idle ∧
      pr.returns = [(⟨(), 0, some 0, 1, 0⟩, 0, false)] ∧ s.entries = [⟨(), 0, some 0, 1, 0⟩] ∧
      (s.answered 0).length = 1 ∧ (published pr.returns).length = 0 := by
  have key : (run (Sys.init 1) answeredThenClosed).map
      (fun s => (s.producers[0]?.map fun pr => (pr.phase, pr.returns), s.entries)) =
      some (some (.idle, [(⟨(), 0, some 0, 1, 0⟩, 0, false)]), [⟨(), 0, some 0, 1, 0⟩]) :=
    rfl
  obtain ⟨s, hs, hf⟩ := Reachable.of_run_map key
  simp only [Prod.mk.injEq] at hf
  obtain ⟨⟨pr, hp, hph⟩, he⟩ := And.imp_left Option.map_eq_some'.mp hf
  simp only [Prod.mk.injEq] at hph
  exact ⟨s, hs, pr, hp, hph.1, hph.2, he, by simp [Sys.answered, he], by simp [hph.2]⟩

end Libbeat.Memqueue
