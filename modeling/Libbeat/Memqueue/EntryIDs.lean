import Libbeat.Memqueue.ProducerIDs

/-!
# Entry IDs

The broker answers each request it inserts with the request's index in the
queue, `nextEntryID`, on the response channel the request carries, and a call
reads its answer from the channel of its own request. The answers do not mix
because each call takes a fresh channel (`nextResp`): the requests at a first
select, in the push channel or inserted all carry different ones. So a call
that returns `(id, true)` returns the index at which the broker inserted its
own event.
-/

namespace Libbeat.Memqueue

variable {E : Type}

open Producer
open scoped List

/-- The request a call holds before its send. -/
def Phase.unsent : Phase E → Option (PushRequest E)
  | .selecting _ req => some req
  | _ => none

@[simp] theorem Phase.unsent_idle : (Phase.idle : Phase E).unsent = none := rfl

@[simp] theorem Phase.unsent_selecting (c : Call) (req : PushRequest E) :
    (Phase.selecting c req).unsent = some req := rfl

@[simp] theorem Phase.unsent_waiting (c : Call) (req : PushRequest E) :
    (Phase.waiting c req).unsent = none := rfl

/-- The requests calls have made and not dropped: inserted, in the push
channel, or at a first select. -/
def Sys.live (s : Sys E) : List (PushRequest E) :=
  s.entries ++ s.pushChan ++ s.producers.filterMap (·.phase.unsent)

/-- Replacing one element changes a `flatMap` by the images of the two. -/
theorem flatMap_set_perm {α β : Type} (f : α → List β) (x : α) :
    ∀ {l : List α} {p : Nat} {a : α}, l[p]? = some a →
      (l.set p x).flatMap f ++ f a ~ l.flatMap f ++ f x
  | b :: l, 0, a, h => by
    obtain rfl : b = a := by simpa using h
    simp only [List.set_cons_zero, List.flatMap_cons, List.append_assoc]
    exact (List.perm_append_comm.append_left _).trans
      ((List.perm_append_comm_assoc _ _ _).trans (List.perm_append_comm.append_left _))
  | b :: l, k + 1, a, h => by
    simp only [List.set_cons_succ, List.flatMap_cons, List.append_assoc]
    exact (flatMap_set_perm f x (by simpa using h)).append_left _

theorem filterMap_set_perm {α β : Type} (f : α → Option β) (x : α) {l : List α} {p : Nat} {a : α}
    (h : l[p]? = some a) :
    (l.set p x).filterMap f ++ (f a).toList ~ l.filterMap f ++ (f x).toList := by
  simpa only [List.filterMap_eq_flatMap_toList] using flatMap_set_perm (fun a => (f a).toList) x h

theorem live_setProducer {s : Sys E} {p : Nat} {pr : Producer E} (hp : s.producers[p]? = some pr)
    (x : Producer E) :
    (s.setProducer p x).live ++ pr.phase.unsent.toList ~ s.live ++ x.phase.unsent.toList := by
  simpa only [Sys.live, Sys.setProducer, List.append_assoc] using
    (filterMap_set_perm (·.phase.unsent) x hp).append_left (s.entries ++ s.pushChan)

/-- A step of one producer that drops its unsent request or keeps it creates
no live request. -/
theorem live_setProducer_subperm {s : Sys E} {p : Nat} {pr x : Producer E}
    (hp : s.producers[p]? = some pr)
    (hx : x.phase.unsent = none ∨ x.phase.unsent = pr.phase.unsent) :
    (s.setProducer p x).live <+~ s.live := by
  have h := live_setProducer hp x
  rcases hx with hx | hx
  · rw [hx, Option.toList_none, List.append_nil] at h
    exact ((List.sublist_append_left _ _).subperm).trans h.subperm
  · rw [hx] at h
    exact (List.perm_append_right_iff _).mp h |>.subperm

theorem nodup_map_of_subperm {α β : Type} {l₁ l₂ : List α} (h : l₁ <+~ l₂) (f : α → β)
    (hn : (l₂.map f).Nodup) : (l₁.map f).Nodup :=
  let ⟨_, hp, hs⟩ := h
  (hp.map f).nodup_iff.mp ((hs.map f).nodup hn)

/-- A producer's calls agree with the broker: a call at its second select has
its request in the push channel or inserted, and every call that returned
`(id, true)` returned the index of its inserted request. -/
structure Agrees (entries chan : List (PushRequest E)) (pr : Producer E) : Prop where
  waiting : ∀ c req, pr.phase = .waiting c req → req ∈ entries ++ chan
  returns : ∀ r ∈ published pr.returns, ∃ i, entries[i]? = some r.1 ∧ r.2.1 = UInt64.ofNat i

theorem Agrees.mono {e c e' c' : List (PushRequest E)} {pr : Producer E} (h : Agrees e c pr)
    (he : e <+: e') (hc : ∀ r ∈ e ++ c, r ∈ e' ++ c') : Agrees e' c' pr := by
  refine ⟨fun c req hph => hc _ (h.waiting c req hph), fun r hr => ?_⟩
  obtain ⟨i, hi, hid⟩ := h.returns r hr
  obtain ⟨t, rfl⟩ := he
  exact ⟨i, by rw [List.getElem?_append_left (List.getElem?_eq_some_iff.mp hi).1, hi], hid⟩

theorem Agrees.finish {e c : List (PushRequest E)} {pr : Producer E} (h : Agrees e c pr)
    (req : PushRequest E) (id : EntryID) (b : Bool)
    (hid : b = true → ∃ i, e[i]? = some req ∧ id = UInt64.ofNat i) :
    Agrees e c (pr.finish req id b) := by
  refine ⟨by simp, fun r hr => ?_⟩
  simp only [finish_returns, published_append, published_singleton, List.mem_append] at hr
  rcases hr with hr | hr
  · exact h.returns r hr
  · split at hr
    · obtain rfl := List.mem_singleton.mp hr
      exact hid ‹_›
    · simp at hr

theorem Agrees.fail {e c : List (PushRequest E)} {pr : Producer E} (h : Agrees e c pr)
    (req : PushRequest E) : Agrees e c (pr.fail req) :=
  ⟨by simp, (h.finish req 0 false nofun).returns⟩

theorem Agrees.setProducer {s : Sys E} {e c : List (PushRequest E)} {p : Nat} {pr x : Producer E}
    (hp : s.producers[p]? = some pr)
    (h : ∀ (q : Nat) y, s.producers[q]? = some y → Agrees e c y) (hx : Agrees e c x) :
    ∀ (q : Nat) y, (s.setProducer p x).producers[q]? = some y → Agrees e c y := by
  intro q y hq
  simp only [Sys.setProducer, List.getElem?_set] at hq
  split at hq
  · simp only [(List.getElem?_eq_some_iff.mp hp).1, if_true, Option.some.injEq] at hq
    exact hq ▸ hx
  · exact h q y hq

/-- What the broker's answers rest on: the next entry ID is the queue's length,
the live requests carry distinct channels below `nextResp`, a filled channel
holds the index of the inserted request that carries it, and every producer
agrees with the broker. -/
structure EntryInv (s : Sys E) : Prop where
  nextEntry : s.nextEntryID = UInt64.ofNat s.entries.length
  respNodup : (s.live.map (·.resp)).Nodup
  respFresh : ∀ r ∈ s.live, r.resp < s.nextResp
  answer : ∀ n id, s.resps n = some id →
    ∃ i req, s.entries[i]? = some req ∧ req.resp = n ∧ id = UInt64.ofNat i
  agrees : ∀ (q : Nat) pr, s.producers[q]? = some pr → Agrees s.entries s.pushChan pr

/-- A producer step that creates no live request keeps the invariant. -/
theorem EntryInv.setProducer {s : Sys E} {p : Nat} {pr x : Producer E} (h : EntryInv s)
    (hp : s.producers[p]? = some pr)
    (hx : x.phase.unsent = none ∨ x.phase.unsent = pr.phase.unsent)
    (hagrees : Agrees s.entries s.pushChan x) : EntryInv (s.setProducer p x) :=
  have hsub := live_setProducer_subperm hp hx
  ⟨h.nextEntry, nodup_map_of_subperm hsub _ h.respNodup,
    fun r hr => h.respFresh r (hsub.subset hr),
    h.answer, Agrees.setProducer hp h.agrees hagrees⟩

theorem EntryInv.newProducer {s : Sys E} (h : EntryInv s) (ack : Bool)
    (encoder : Option (E → E × Nat)) :
    EntryInv { s with producers := s.producers ++ [Memqueue.newProducer ack encoder] } := by
  have hlive :
      ({ s with producers := s.producers ++ [Memqueue.newProducer ack encoder] } : Sys E).live =
        s.live := by
    simp [Sys.live, List.filterMap_append, Memqueue.newProducer]
  refine ⟨h.nextEntry, hlive ▸ h.respNodup, hlive ▸ h.respFresh, h.answer, fun q y hq => ?_⟩
  by_cases hlt : q < s.producers.length
  · exact h.agrees q y (by rwa [List.getElem?_append_left hlt] at hq)
  · rw [List.getElem?_append_right (Nat.le_of_not_lt hlt)] at hq
    obtain rfl := List.mem_singleton.mp (List.getElem?_mem hq)
    exact ⟨by simp [Memqueue.newProducer], by simp [Memqueue.newProducer, published]⟩

theorem EntryInv.begin {s : Sys E} {p : Nat} {pr : Producer E} (h : EntryInv s)
    (hp : s.producers[p]? = some pr) (hph : pr.phase = .idle) (c : Call) (event : E) :
    EntryInv { s.setProducer p
        { pr with phase := .selecting c (pr.encode (pr.makePushRequest p s.nextResp event)) } with
      nextResp := s.nextResp + 1 } := by
  set req := pr.encode (pr.makePushRequest p s.nextResp event)
  have hperm : (s.setProducer p { pr with phase := .selecting c req }).live ~ s.live ++ [req] := by
    simpa [hph] using live_setProducer hp { pr with phase := .selecting c req }
  have hresp : req.resp = s.nextResp := by simp [req]
  refine ⟨h.nextEntry, ?_, fun r hr => ?_, h.answer,
    Agrees.setProducer hp h.agrees ⟨by simp, (h.agrees p pr hp).returns⟩⟩
  · refine (hperm.map _).nodup_iff.mpr ?_
    rw [List.map_append, List.nodup_append]
    refine ⟨h.respNodup, List.nodup_singleton _, ?_⟩
    simp only [List.map_cons, List.map_nil, List.disjoint_singleton, List.mem_map, not_exists,
      not_and, hresp]
    exact fun r hr heq => (heq ▸ h.respFresh r hr).ne rfl
  · rcases List.mem_append.mp (hperm.mem_iff.mp hr) with hr | hr
    · exact Nat.lt_succ_of_lt (h.respFresh r hr)
    · obtain rfl := List.mem_singleton.mp hr
      exact hresp ▸ Nat.lt_succ_self _

theorem EntryInv.send {s : Sys E} {p : Nat} {pr : Producer E} {c : Call} {req : PushRequest E}
    (h : EntryInv s) (hp : s.producers[p]? = some pr) (hph : pr.phase = .selecting c req) :
    EntryInv { s.setProducer p { pr with phase := .waiting c req, sent := pr.sent ++ [req] } with
      pushChan := s.pushChan ++ [req] } := by
  set x := { pr with phase := .waiting c req, sent := pr.sent ++ [req] }
  have hperm :
      ({ s.setProducer p x with pushChan := s.pushChan ++ [req] } : Sys E).live ~ s.live := by
    have h₁ := live_setProducer hp x
    simp only [hph, Phase.unsent_selecting, Phase.unsent_waiting, x, Option.toList_some,
      Option.toList_none, List.append_nil] at h₁
    refine List.Perm.trans ?_ h₁
    simp only [Sys.live, Sys.setProducer, List.append_assoc]
    exact ((List.perm_append_comm : [req] ++ _ ~ _).append_left _).append_left _
  have hmem : ∀ r ∈ s.entries ++ s.pushChan, r ∈ s.entries ++ (s.pushChan ++ [req]) := by
    simp only [← List.append_assoc]; exact fun r => List.mem_append_left _
  refine ⟨h.nextEntry, (hperm.map _).nodup_iff.mpr h.respNodup,
    fun r hr => h.respFresh r (hperm.mem_iff.mp hr), h.answer,
    Agrees.setProducer hp (fun q y hq => (h.agrees q y hq).mono (List.prefix_refl _) hmem)
      ⟨?_, (h.agrees p pr hp).returns⟩⟩
  rintro c' req' ⟨⟩
  simp [x]

/-- A sent request whose channel holds an answer was inserted at the index
the answer names: the channels of live requests are distinct. -/
theorem EntryInv.answer_of_sent {s : Sys E} (h : EntryInv s) {req : PushRequest E} {id : EntryID}
    (hsent : req ∈ s.entries ++ s.pushChan) (hid : s.resps req.resp = some id) :
    ∃ i, s.entries[i]? = some req ∧ id = UInt64.ofNat i := by
  obtain ⟨i, req', hi, hresp, rfl⟩ := h.answer _ _ hid
  have hlive : ∀ r ∈ s.entries ++ s.pushChan, r ∈ s.live :=
    fun r hr => List.mem_append_left _ hr
  have heq : req' = req := List.inj_on_of_nodup_map h.respNodup
    (hlive _ (List.mem_append_left _ (List.getElem?_mem hi))) (hlive _ hsent) hresp
  exact ⟨i, heq ▸ hi, rfl⟩

theorem EntryInv.resp {s : Sys E} {p : Nat} {pr : Producer E} {c : Call} {req : PushRequest E}
    {id : EntryID} (h : EntryInv s) (hp : s.producers[p]? = some pr)
    (hph : pr.phase = .waiting c req) (hid : s.resps req.resp = some id) :
    EntryInv { s.setProducer p (pr.finish req id true) with
      resps := Function.update s.resps req.resp none } := by
  have hagrees := (h.agrees p pr hp).finish req id true fun _ =>
    h.answer_of_sent ((h.agrees p pr hp).waiting c req hph) hid
  have h' := h.setProducer hp (.inl (by simp)) hagrees
  refine ⟨h'.nextEntry, h'.respNodup, h'.respFresh, fun n id' hn => ?_, h'.agrees⟩
  dsimp only at hn ⊢
  rw [Function.update_apply] at hn
  split at hn
  · cases hn
  · exact h.answer n id' hn

theorem EntryInv.push {s : Sys E} {req : PushRequest E} {rest : List (PushRequest E)}
    (h : EntryInv s) (hc : s.pushChan = req :: rest) :
    EntryInv { s with
      pushChan := rest
      entries := s.entries ++ [req]
      resps := Function.update s.resps req.resp (some s.nextEntryID)
      nextEntryID := s.nextEntryID + 1 } := by
  have hlive :
      ({ s with pushChan := rest, entries := s.entries ++ [req] } : Sys E).live = s.live := by
    simp [Sys.live, hc]
  refine ⟨by simp [h.nextEntry, ofNat_add_one], hlive ▸ h.respNodup, hlive ▸ h.respFresh,
    fun n id hn => ?_,
    fun q pr hq => (h.agrees q pr hq).mono (List.prefix_append _ _) (by simp [hc])⟩
  dsimp only at hn ⊢
  rw [Function.update_apply] at hn
  split at hn
  · subst_vars
    cases hn
    exact ⟨s.entries.length, req, by simp, rfl, h.nextEntry⟩
  · obtain ⟨i, r, hi, hr, rfl⟩ := h.answer n id hn
    exact ⟨i, r, by rw [List.getElem?_append_left (List.getElem?_eq_some_iff.mp hi).1, hi], hr,
      rfl⟩

theorem Reachable.entryInv {s : Sys E} (hs : Reachable s) : EntryInv s := by
  induction hs with
  | init => exact ⟨rfl, by simp [Sys.live, Sys.init], by simp [Sys.live, Sys.init],
      by simp [Sys.init], by simp [Sys.init]⟩
  | step a _ hstep h =>
    cases moves_of_step hstep with
    | newProducer ack enc => exact h.newProducer ack enc
    | begin c e hp hph => exact h.begin hp hph c e
    | send hp hph _ => exact h.send hp hph
    | done hp _ _ | closing hp _ _ | closingWait hp _ _ =>
      exact h.setProducer hp (.inl (by simp)) ((h.agrees _ _ hp).fail _)
    | drop hp _ _ _ =>
      exact h.setProducer hp (.inl (by simp))
        ((h.agrees _ _ hp).finish _ 0 false nofun)
    | resp hp hph hid => exact h.resp hp hph hid
    | close hp _ =>
      have ha := h.agrees _ _ hp
      exact h.setProducer hp (.inr rfl) ⟨ha.waiting, ha.returns⟩
    | push hc _ => exact h.push hc
    | closeQueue _ => exact ⟨h.nextEntry, h.respNodup, h.respFresh, h.answer, h.agrees⟩

/-- Every call that returned `(id, true)` returned the index at which the
broker inserted its own request: the answers of the broker reach the calls
that sent the requests they answer. -/
theorem published_id_is_entry_index {s : Sys E} (hs : Reachable s) {p : Nat} {pr : Producer E}
    (hp : s.producers[p]? = some pr) :
    ∀ r ∈ published pr.returns, ∃ i, s.entries[i]? = some r.1 ∧ r.2.1 = UInt64.ofNat i :=
  (hs.entryInv.agrees p pr hp).returns

/-- Two published calls, answered with entries 0 and 1. -/
theorem published_id_is_entry_index_two :
    ∃ s pr, run (Sys.init 1) twoPublishedOneSent = some s ∧ s.producers[0]? = some pr ∧
      (published pr.returns).map (·.2.1) = [0, 1] ∧
      ∀ r ∈ published pr.returns, ∃ i, s.entries[i]? = some r.1 ∧ r.2.1 = UInt64.ofNat i := by
  have key : (run (Sys.init 1) twoPublishedOneSent).bind (fun s => s.producers[0]?.map
      fun pr => (published pr.returns).map (·.2.1)) = some [0, 1] := rfl
  obtain ⟨s, pr, hrun, hp, hf⟩ := exists_run_producer key
  exact ⟨s, pr, hrun, hp, hf, published_id_is_entry_index ((Reachable.init 1).run hrun) hp⟩

end Libbeat.Memqueue
