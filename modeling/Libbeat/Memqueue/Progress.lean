import Libbeat.Memqueue.EntryIDs
import Mathlib.Data.List.Perm.Subperm

/-!
# Who holds a sent request

After its send a request is held by the call that made it: while the call
waits at its second select, and after the call returned `(id, true)`, in its
producer's returns. These held requests carry distinct response channels,
since each was a live request when it was sent. So no inserted event is
claimed by two calls that returned `(id, true)` (`claimed_subperm_entries`),
and a waiting call whose request the broker inserted finds its answer on its
response channel (`OwnInv.ready`), which `Ring` uses for progress.
-/

namespace Libbeat.Memqueue

variable {E : Type}

open Producer
open scoped List

/-- The request a call waits on at its second select. -/
def Phase.waitingReq : Phase E → Option (PushRequest E)
  | .waiting _ req => some req
  | _ => none

@[simp] theorem Phase.waitingReq_idle : (Phase.idle : Phase E).waitingReq = none := rfl

@[simp] theorem Phase.waitingReq_selecting (c : Call) (req : PushRequest E) :
    (Phase.selecting c req).waitingReq = none := rfl

@[simp] theorem Phase.waitingReq_waiting (c : Call) (req : PushRequest E) :
    (Phase.waiting c req).waitingReq = some req := rfl

/-- The sent requests a producer's calls hold: the one its current call waits
on, and those of its calls that returned `(id, true)`. -/
def Producer.owned (pr : Producer E) : List (PushRequest E) :=
  pr.phase.waitingReq.toList ++ (published pr.returns).map (·.1)

def Sys.owned (s : Sys E) : List (PushRequest E) :=
  s.producers.flatMap Producer.owned

/-- The requests of every call that returned `(id, true)`. -/
def Sys.claimed (s : Sys E) : List (PushRequest E) :=
  s.producers.flatMap fun pr => (published pr.returns).map (·.1)

theorem claimed_sublist_owned (s : Sys E) : s.claimed <+ s.owned := by
  unfold Sys.claimed Sys.owned
  induction s.producers with
  | nil => exact List.Sublist.slnil
  | cons pr ps ih =>
    simp only [List.flatMap_cons, Producer.owned]
    exact (List.sublist_append_right _ _).append ih

theorem owned_setProducer {s : Sys E} {p : Nat} {pr : Producer E} (hp : s.producers[p]? = some pr)
    (x : Producer E) : (s.setProducer p x).owned ++ pr.owned ~ s.owned ++ x.owned :=
  flatMap_set_perm Producer.owned x hp

/-- The producer at `q` after one producer's record is replaced. -/
theorem setProducer_getElem? {s : Sys E} {p q : Nat} {pr x y : Producer E}
    (hp : s.producers[p]? = some pr) (hq : (s.setProducer p x).producers[q]? = some y) :
    (q = p ∧ y = x) ∨ (q ≠ p ∧ s.producers[q]? = some y) := by
  by_cases hqp : q = p
  · subst hqp
    exact .inl ⟨rfl, by simpa [Sys.setProducer, (List.getElem?_eq_some_iff.mp hp).1] using hq.symm⟩
  · exact .inr ⟨hqp, by simpa [Sys.setProducer, List.getElem?_set, Ne.symm hqp] using hq⟩

/-- A property of every producer survives replacing one record by a record
that has it. -/
theorem forall_setProducer {P : Producer E → Prop} {s : Sys E} {p : Nat} {pr x : Producer E}
    (hp : s.producers[p]? = some pr) (h : ∀ (q : Nat) y, s.producers[q]? = some y → P y)
    (hx : P x) : ∀ (q : Nat) y, (s.setProducer p x).producers[q]? = some y → P y := by
  intro q y hq
  rcases setProducer_getElem? hp hq with ⟨-, rfl⟩ | ⟨-, hq⟩
  · exact hx
  · exact h q y hq

/-- A property of every producer survives adding a new producer that has it. -/
theorem forall_newProducer {P : Producer E → Prop} {ps : List (Producer E)} {ack : Bool}
    {encoder : Option (E → E × Nat)} (h : ∀ (q : Nat) y, ps[q]? = some y → P y)
    (hnew : P (newProducer ack encoder)) :
    ∀ (q : Nat) y, (ps ++ [newProducer ack encoder])[q]? = some y → P y := by
  intro q y hq
  rw [List.getElem?_append] at hq
  split at hq
  · exact h q y hq
  · obtain rfl := List.mem_singleton.mp (List.getElem?_mem hq)
    exact hnew

/-- A call waiting on a request that the broker inserted finds an answer on
its channel. -/
def Ready (entries : List (PushRequest E)) (resps : RespChan → Option EntryID)
    (pr : Producer E) : Prop :=
  ∀ c req, pr.phase = .waiting c req → req ∈ entries → ∃ id, resps req.resp = some id

theorem ready_of_not_waiting {entries : List (PushRequest E)} {resps : RespChan → Option EntryID}
    {pr : Producer E} (h : pr.phase.waitingReq = none) : Ready entries resps pr :=
  fun c req hph => by simp [hph] at h

/-- The requests held by calls are distinct, and a waiting call whose request
was inserted has its answer waiting. -/
structure OwnInv (s : Sys E) : Prop where
  ownedNodup : (s.owned.map (·.resp)).Nodup
  ready : ∀ (q : Nat) pr, s.producers[q]? = some pr → Ready s.entries s.resps pr

section

variable {s : Sys E} (h : EntryInv s)
include h

/-- A held request was sent: it is inserted or in the push channel. -/
theorem EntryInv.owned_sent : ∀ r ∈ s.owned, r ∈ s.entries ++ s.pushChan := by
  intro r hr
  obtain ⟨pr, hmem, hr⟩ := List.mem_flatMap.mp hr
  obtain ⟨q, hq⟩ := List.mem_iff_getElem?.mp hmem
  rcases List.mem_append.mp hr with hr | hr
  · cases hph : pr.phase <;> simp only [Producer.owned, hph, Phase.waitingReq_idle,
      Phase.waitingReq_selecting, Phase.waitingReq_waiting, Option.toList_none,
      Option.toList_some, List.mem_singleton, List.not_mem_nil] at hr
    subst hr
    exact (h.agrees q pr hq).waiting _ _ hph
  · obtain ⟨ret, hret, rfl⟩ := List.mem_map.mp hr
    obtain ⟨i, hi, -⟩ := (h.agrees q pr hq).returns ret hret
    exact List.mem_append_left _ (List.getElem?_mem hi)

/-- A request at its first select shares its channel with no sent request. -/
theorem EntryInv.unsent_fresh {p : Nat} {pr : Producer E} {c : Call} {req : PushRequest E}
    (hp : s.producers[p]? = some pr) (hph : pr.phase = .selecting c req) :
    ∀ r ∈ s.entries ++ s.pushChan, r.resp ≠ req.resp := by
  have hunsent : req ∈ s.producers.filterMap (·.phase.unsent) :=
    List.mem_filterMap.mpr ⟨pr, List.getElem?_mem hp, by simp [hph]⟩
  have hnd : ((s.entries ++ s.pushChan).map (·.resp) ++
      (s.producers.filterMap (·.phase.unsent)).map (·.resp)).Nodup := by
    rw [← List.map_append]; exact h.respNodup
  exact fun r hr heq => (List.nodup_append.mp hnd).2.2 (List.mem_map.mpr ⟨r, hr, rfl⟩)
    (List.mem_map.mpr ⟨req, hunsent, heq.symm⟩)

end

/-- Held requests of two different producers carry different channels. -/
theorem owned_resp_ne {s : Sys E} (hno : (s.owned.map (·.resp)).Nodup) {p q : Nat}
    {pr pr' : Producer E} (hp : s.producers[p]? = some pr) (hq : s.producers[q]? = some pr')
    (hqp : q ≠ p) {r r' : PushRequest E} (hr : r ∈ pr.owned) (hr' : r' ∈ pr'.owned) :
    r'.resp ≠ r.resp := by
  let cleared : Producer E := { pr with phase := .idle, returns := [] }
  have hperm : (s.setProducer p cleared).owned ++ pr.owned ~ s.owned := by
    simpa [cleared, Producer.owned, published] using owned_setProducer hp cleared
  have hnd : ((s.setProducer p cleared).owned.map (·.resp) ++ pr.owned.map (·.resp)).Nodup := by
    rw [← List.map_append]; exact (hperm.map _).nodup_iff.mpr hno
  have hr'' : r' ∈ (s.setProducer p cleared).owned :=
    List.mem_flatMap.mpr ⟨pr', List.getElem?_mem ((List.getElem?_set_ne (Ne.symm hqp)).trans hq), hr'⟩
  exact fun heq => (List.nodup_append.mp hnd).2.2 (List.mem_map.mpr ⟨r', hr'', rfl⟩)
    (List.mem_map.mpr ⟨r, hr, heq.symm⟩)

/-- A producer step whose new record holds no request the old one did not,
and keeps `Ready`, keeps the invariant. -/
theorem OwnInv.setProducer {s : Sys E} {p : Nat} {pr x : Producer E} (h : OwnInv s)
    (hp : s.producers[p]? = some pr) (hx : x.owned <+~ pr.owned)
    (hready : Ready s.entries s.resps x) : OwnInv (s.setProducer p x) := by
  have hsub : (s.setProducer p x).owned <+~ s.owned :=
    (List.subperm_append_right pr.owned).mp
      ((owned_setProducer hp x).subperm.trans ((List.subperm_append_left _).mpr hx))
  exact ⟨nodup_map_of_subperm hsub _ h.ownedNodup, forall_setProducer hp h.ready hready⟩

theorem OwnInv.setProducer_same {s : Sys E} {p : Nat} {pr x : Producer E} (h : OwnInv s)
    (hp : s.producers[p]? = some pr) (hx : x.owned = pr.owned)
    (hready : Ready s.entries s.resps x) : OwnInv (s.setProducer p x) :=
  h.setProducer hp (by rw [hx]) hready

theorem OwnInv.begin {s : Sys E} {p : Nat} {pr : Producer E} (h : OwnInv s)
    (hp : s.producers[p]? = some pr) (hph : pr.phase = .idle) (c : Call) (event : E) :
    OwnInv { s.setProducer p
        { pr with phase := .selecting c (pr.encode (pr.makePushRequest p s.nextResp event)) } with
      nextResp := s.nextResp + 1 } :=
  have h' : OwnInv (s.setProducer p
      { pr with phase := .selecting c (pr.encode (pr.makePushRequest p s.nextResp event)) }) :=
    h.setProducer_same hp (by simp [Producer.owned, hph]) (ready_of_not_waiting rfl)
  ⟨h'.ownedNodup, h'.ready⟩

theorem OwnInv.send {s : Sys E} {p : Nat} {pr : Producer E} {c : Call} {req : PushRequest E}
    (h : OwnInv s) (he : EntryInv s) (hp : s.producers[p]? = some pr)
    (hph : pr.phase = .selecting c req) :
    OwnInv { s.setProducer p { pr with phase := .waiting c req, sent := pr.sent ++ [req] } with
      pushChan := s.pushChan ++ [req] } := by
  set x := { pr with phase := .waiting c req, sent := pr.sent ++ [req] }
  have hfresh := he.unsent_fresh hp hph
  have hperm : (s.setProducer p x).owned ~ s.owned ++ [req] := by
    have h₁ := owned_setProducer hp x
    simp only [x, Producer.owned, hph, Phase.waitingReq_selecting, Phase.waitingReq_waiting,
      Option.toList_none, Option.toList_some, List.nil_append, List.singleton_append] at h₁
    exact (List.perm_append_right_iff _).mp (h₁.trans (by simp))
  refine ⟨(hperm.map _).nodup_iff.mpr ?_, forall_setProducer hp h.ready ?_⟩
  · rw [List.map_append, List.nodup_append]
    refine ⟨h.ownedNodup, List.nodup_singleton _, ?_⟩
    simp only [List.map_cons, List.map_nil, List.disjoint_singleton, List.mem_map, not_exists,
      not_and]
    exact fun r hr => hfresh r (he.owned_sent r hr)
  · rintro c' req' ⟨⟩ hin
    exact absurd rfl (hfresh req (List.mem_append_left _ hin))

theorem OwnInv.resp {s : Sys E} {p : Nat} {pr : Producer E} {c : Call} {req : PushRequest E}
    {id : EntryID} (h : OwnInv s) (hp : s.producers[p]? = some pr)
    (hph : pr.phase = .waiting c req) :
    OwnInv { s.setProducer p (pr.finish req id true) with
      resps := Function.update s.resps req.resp none } := by
  have hx : (pr.finish req id true).owned <+~ pr.owned := by
    simp only [Producer.owned, hph, finish_phase, finish_returns, published_append,
      published_singleton, if_true, List.map_append, Phase.waitingReq_idle,
      Phase.waitingReq_waiting, Option.toList_none, Option.toList_some, List.nil_append,
      List.map_cons, List.map_nil, List.singleton_append]
    exact List.perm_append_comm.subperm
  have h' := h.setProducer hp hx (ready_of_not_waiting (by simp))
  refine ⟨h'.ownedNodup, fun q y hq c' req' hw hin => ?_⟩
  rcases setProducer_getElem? hp hq with ⟨-, rfl⟩ | ⟨hqp, hq⟩
  · simp at hw
  · obtain ⟨id', hid'⟩ := h.ready q y hq c' req' hw hin
    have hne := owned_resp_ne h.ownedNodup hp hq hqp
      (show req ∈ pr.owned by simp [Producer.owned, hph])
      (show req' ∈ y.owned by simp [Producer.owned, hw])
    exact ⟨id', by simpa [Function.update_apply, hne] using hid'⟩

theorem OwnInv.push {s : Sys E} {req : PushRequest E} {rest : List (PushRequest E)}
    (h : OwnInv s) :
    OwnInv { s with
      pushChan := rest
      entries := s.entries ++ [req]
      resps := Function.update s.resps req.resp (some s.nextEntryID)
      nextEntryID := s.nextEntryID + 1 } := by
  refine ⟨h.ownedNodup, fun q y hq c r hw hin => ?_⟩
  by_cases hr : r.resp = req.resp
  · exact ⟨s.nextEntryID, by simp [Function.update_apply, hr]⟩
  · rcases List.mem_append.mp hin with hin | hin
    · obtain ⟨id, hid⟩ := h.ready q y hq c r hw hin
      exact ⟨id, by simpa [Function.update_apply, hr] using hid⟩
    · exact absurd (by rw [List.mem_singleton.mp hin]) hr

theorem Reachable.ownInv {s : Sys E} (hs : Reachable s) : OwnInv s := by
  induction hs with
  | init => exact ⟨by simp [Sys.owned, Sys.init], by simp [Sys.init]⟩
  | step a hs hstep h =>
    cases moves_of_step hstep with
    | newProducer ack enc =>
      exact ⟨by simpa [Sys.owned, Producer.owned, newProducer, published] using h.ownedNodup,
        forall_newProducer h.ready (ready_of_not_waiting rfl)⟩
    | begin c e hp hph => exact h.begin hp hph c e
    | send hp hph _ => exact h.send hs.entryInv hp hph
    | done hp hph _ | closing hp hph _ | drop hp hph _ _ =>
      exact h.setProducer_same hp (by simp [Producer.owned, hph, published])
        (ready_of_not_waiting (by simp))
    | closingWait hp hph _ =>
      exact h.setProducer hp
        (by simpa [Producer.owned, hph, published] using (List.sublist_cons_self _ _).subperm)
        (ready_of_not_waiting (by simp))
    | resp hp hph _ => exact h.resp hp hph
    | close hp _ =>
      exact h.setProducer_same hp rfl fun c req hw => h.ready _ _ hp c req hw
    | push _ _ => exact h.push
    | closeQueue _ => exact ⟨h.ownedNodup, h.ready⟩

/-- No inserted event is claimed by two calls that returned `(id, true)`: the
requests of all such calls, over all producers, are distinct inserted
requests, a sub-multiset of the broker's entries. -/
theorem claimed_subperm_entries {s : Sys E} (hs : Reachable s) : s.claimed <+~ s.entries := by
  have hnd : s.claimed.Nodup :=
    (((claimed_sublist_owned s).map (·.resp)).nodup hs.ownInv.ownedNodup).of_map _
  refine hnd.subperm fun r hr => ?_
  obtain ⟨pr, hmem, hr⟩ := List.mem_flatMap.mp hr
  obtain ⟨q, hq⟩ := List.mem_iff_getElem?.mp hmem
  obtain ⟨ret, hret, rfl⟩ := List.mem_map.mp hr
  obtain ⟨i, hi, -⟩ := (hs.entryInv.agrees q pr hq).returns ret hret
  exact List.getElem?_mem hi

/-- Two published calls, so two claimed entries. -/
theorem claimed_subperm_entries_two :
    ∃ s, run (Sys.init 1) twoPublishedOneSent = some s ∧ s.claimed.length = 2 ∧
      s.claimed <+~ s.entries := by
  have key : (run (Sys.init 1) twoPublishedOneSent).map (·.claimed.length) = some 2 := rfl
  obtain ⟨s, hrun, hlen⟩ := Option.map_eq_some'.mp key
  exact ⟨s, hrun, hlen, claimed_subperm_entries ((Reachable.init 1).run hrun)⟩

end Libbeat.Memqueue
