import Libbeat.Memqueue.Progress

/-!
# Calls and inserts in the same order

The push channel is one FIFO shared by every producer, `ACK` or forgetful.
The calls of one producer run one after another, each sends before it can be
answered, and a call returns `(id, true)` only after the broker inserted its
request, so the requests of a producer's successful calls are inserted in
the order of the calls: their entry indices increase. Unlike the producer
IDs of `ProducerIDs` this holds for forgetful producers too.
-/

namespace Libbeat.Memqueue

variable {E : Type}

open Producer
open scoped List

/-- A producer's successful calls are inserted in call order, and the request
its current call waits on comes after them in the channel or the entries. -/
structure InOrder (entries chan : List (PushRequest E)) (pr : Producer E) : Prop where
  inserted : (published pr.returns).map (·.1) <+ entries
  waiting : ∀ c req, pr.phase = .waiting c req →
    (published pr.returns).map (·.1) ++ [req] <+ entries ++ chan

theorem InOrder.mono {e c e' c' : List (PushRequest E)} {pr : Producer E} (h : InOrder e c pr)
    (he : e <+: e') (hc : e ++ c <+ e' ++ c') : InOrder e' c' pr :=
  ⟨h.inserted.trans he.sublist, fun c req hw => (h.waiting c req hw).trans hc⟩

/-- A step that keeps a producer's phase out of the second select and its
successful calls keeps its order. -/
theorem InOrder.idle {e c : List (PushRequest E)} {pr x : Producer E} (h : InOrder e c pr)
    (hph : x.phase.waitingReq = none)
    (hret : published x.returns = published pr.returns) : InOrder e c x :=
  ⟨hret ▸ h.inserted, fun c req hw => by simp [hw] at hph⟩

/-- The last element of a sublist of `e ++ c` that is not in `c` sits in `e`. -/
theorem concat_sublist_of_not_mem {α : Type} {l e c : List α} {a : α} (h : l ++ [a] <+ e ++ c)
    (ha : a ∉ c) : l ++ [a] <+ e := by
  obtain ⟨l₁, l₂, heq, h₁, h₂⟩ := List.sublist_append_iff.mp h
  rcases List.eq_nil_or_concat l₂ with rfl | ⟨L, b, rfl⟩
  · simpa [heq] using h₁
  · have hab : a = b := by simpa [← List.append_assoc] using congrArg List.getLast? heq
    exact absurd (h₂.subset (by simp [hab])) ha

/-- The requests sent and inserted are distinct. -/
theorem EntryInv.sent_nodup {s : Sys E} (h : EntryInv s) : (s.entries ++ s.pushChan).Nodup :=
  ((List.nodup_append.mp (by rw [← List.map_append]; exact h.respNodup)).1).of_map _

theorem Reachable.inOrder {s : Sys E} (hs : Reachable s) :
    ∀ (q : Nat) pr, s.producers[q]? = some pr → InOrder s.entries s.pushChan pr := by
  induction hs with
  | init => simp [Sys.init]
  | @step s₀ _ a hs hstep h =>
    cases moves_of_step hstep with
    | newProducer ack enc =>
      exact forall_newProducer h ⟨by simp [newProducer, published], nofun⟩
    | begin c e hp hph => exact forall_setProducer hp h ((h _ _ hp).idle rfl rfl)
    | @send p pr c req hp hph _ =>
      have hmono : ∀ (q : Nat) y, s₀.producers[q]? = some y →
          InOrder s₀.entries (s₀.pushChan ++ [req]) y := fun q y hq =>
        (h q y hq).mono (List.prefix_refl _) (by simp)
      refine forall_setProducer hp hmono ⟨(h p pr hp).inserted, ?_⟩
      rintro c' req' ⟨⟩
      rw [← List.append_assoc]
      exact ((h p pr hp).inserted.trans (List.sublist_append_left _ _)).append
        (List.Sublist.refl _)
    | done hp _ _ | closing hp _ _ | closingWait hp _ _ | drop hp _ _ _ =>
      exact forall_setProducer hp h ((h _ _ hp).idle (by simp) (by simp [published]))
    | @resp p pr c req id hp hph hid =>
      have he := hs.entryInv
      obtain ⟨i, hi, -⟩ := he.answer_of_sent ((he.agrees p pr hp).waiting c req hph) hid
      have hin : req ∈ s₀.entries := List.getElem?_mem hi
      have hnot : req ∉ s₀.pushChan := fun hc =>
        (List.nodup_append.mp he.sent_nodup).2.2 hin hc
      refine forall_setProducer hp h ⟨?_, fun c' req' hw => by simp at hw⟩
      simpa [published] using concat_sublist_of_not_mem ((h p pr hp).waiting c req hph) hnot
    | close hp _ => exact forall_setProducer hp h ⟨(h _ _ hp).inserted, (h _ _ hp).waiting⟩
    | @push req rest hc _ =>
      intro q y hq
      exact (h q y hq).mono (List.prefix_append _ _) (by simp [hc])
    | closeQueue _ => exact h

/-- Each producer's calls that returned `(id, true)` had their requests
inserted in the order of the calls: their entry indices increase. -/
theorem published_in_call_order {s : Sys E} (hs : Reachable s) {p : Nat} {pr : Producer E}
    (hp : s.producers[p]? = some pr) : (published pr.returns).map (·.1) <+ s.entries :=
  (hs.inOrder p pr hp).inserted

/-- Two published calls, inserted as entries 0 and 1. -/
theorem published_in_call_order_two :
    ∃ s pr, run (Sys.init 1) twoPublishedOneSent = some s ∧ s.producers[0]? = some pr ∧
      ((published pr.returns).map (·.1)).length = 2 ∧
      (published pr.returns).map (·.1) <+ s.entries := by
  have key : (run (Sys.init 1) twoPublishedOneSent).bind (fun s => s.producers[0]?.map
      fun pr => ((published pr.returns).map (·.1)).length) = some 2 := rfl
  obtain ⟨s, pr, hrun, hp, hf⟩ := exists_run_producer key
  exact ⟨s, pr, hrun, hp, hf, published_in_call_order ((Reachable.init 1).run hrun) hp⟩

end Libbeat.Memqueue
