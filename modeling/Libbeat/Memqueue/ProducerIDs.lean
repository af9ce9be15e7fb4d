import Libbeat.Memqueue.Broker
import Mathlib.Data.List.Nodup

/-!
# Producer IDs

`ackProducer.makePushRequest` numbers a request `producedCount + 1`, and
`Publish` / `TryPublish` increment `producedCount` only when the call returns
`(id, true)`. A call that wrote its request and still fails takes the
queue-closing case, which also sets `st.events` to nil, so the producer
writes nothing after it. Hence the requests an ACK producer writes carry
`1, 2, …, n` in order, every published call carries one more than the calls
published before it, and, the push channel being FIFO, the requests the broker
inserted for the producer carry `1, …, k`, which is what the broker's
coalesced ACK counting relies on. The numbers are 64-bit: they are `1, …, n`
modulo `2^64`, and repeat after `2^64` writes (`producer_ids_wrap`).
-/

namespace Libbeat.Memqueue

variable {E : Type}

open Producer

/-- The producer IDs `1, 2, …, n`, as 64-bit values. -/
def ids (n : Nat) : List ProducerID := (List.range n).map fun i => UInt64.ofNat (i + 1)

@[simp] theorem length_ids (n : Nat) : (ids n).length = n := by simp [ids]

theorem ofNat_add_one (n : Nat) : UInt64.ofNat n + 1 = UInt64.ofNat (n + 1) := by
  apply UInt64.eq_of_toBitVec_eq
  show BitVec.ofNat 64 n + BitVec.ofNat 64 1 = BitVec.ofNat 64 (n + 1)
  rw [BitVec.ofNat_add]

/-- Appending the request numbered one past the first `n`. -/
theorem ids_append {l : List ProducerID} {n : Nat} (h : l = ids n) :
    l ++ [UInt64.ofNat n + 1] = ids (n + 1) := by
  simp [h, ids, List.range_succ, ofNat_add_one]

theorem take_ids {k n : Nat} (h : k ≤ n) : (ids n).take k = ids k := by
  simp [ids, ← List.map_take, List.take_range, Nat.min_eq_left h]

/-- A prefix of a list numbered `1, …, n` is numbered `1, …, k`. -/
theorem ids_of_append {α : Type} {f : α → ProducerID} {l₁ l₂ : List α} {n : Nat}
    (h : (l₁ ++ l₂).map f = ids n) : l₁.map f = ids l₁.length := by
  have hk : l₁.length ≤ n := by
    have := congrArg List.length h
    simp only [List.map_append, List.length_append, List.length_map, length_ids] at this
    omega
  rw [← take_ids hk, ← h, List.map_append, List.take_left' (List.length_map _ _)]

/-- `2^64 + 1` writes repeat the first ID. -/
theorem ids_not_nodup : ¬ (ids (UInt64.size + 1)).Nodup := fun h =>
  absurd (List.inj_on_of_nodup_map h (by simp : 0 ∈ List.range (UInt64.size + 1))
    (by simp : UInt64.size ∈ List.range (UInt64.size + 1)) rfl) (by decide)

/-- The ID bookkeeping of an ACK producer. -/
structure Producer.IDInv (pr : Producer E) : Prop where
  sentIDs : pr.sent.map (·.producerID) = ids pr.sent.length
  publishedIDs : (published pr.returns).map (·.1.producerID) = ids (published pr.returns).length
  publishedSent : ∀ r ∈ published pr.returns, r.1 ∈ pr.sent
  count : pr.producedCount = UInt64.ofNat (published pr.returns).length
  selecting : ∀ c req, pr.phase = .selecting c req → req.producerID = pr.producedCount + 1
  waiting : ∀ c req, pr.phase = .waiting c req →
    pr.events = true ∧ req.producerID = pr.producedCount + 1 ∧ pr.sent.getLast? = some req
  balanced : pr.events = true →
    pr.sent.length = (published pr.returns).length + pr.phase.inFlight.toNat
  bounded : pr.sent.length ≤ (published pr.returns).length + 1

theorem Producer.IDInv.newProducer (ack : Bool) (encoder : Option (E → E × Nat)) :
    (newProducer ack encoder).IDInv :=
  ⟨rfl, rfl, nofun, rfl, nofun, nofun, fun _ => rfl, Nat.zero_le _⟩

/-- Every step of an ACK producer keeps its ID bookkeeping. -/
theorem Producer.IDInv.local {q : Nat} {pr x : Producer E} (hl : Local q pr x) (hack : pr.ack = true)
    (h : pr.IDInv) : x.IDInv := by
  cases hl with
  | begin c e r hph =>
    refine { h with selecting := ?_, waiting := nofun, balanced := ?_ }
    · rintro c' req ⟨⟩
      simp [makePushRequest_producerID _ _ _ _ hack]
    · intro he
      simpa [hph, Phase.inFlight] using h.balanced he
  | @send c req hph he =>
    have hlen : pr.sent.length = (published pr.returns).length := by
      simpa [hph, Phase.inFlight] using h.balanced he
    have hid := h.selecting c req hph
    refine ⟨?_, h.publishedIDs, ?_, h.count, nofun, ?_, ?_, by simp [hlen]⟩
    · simpa [hid, h.count, ← hlen] using ids_append h.sentIDs
    · exact fun r hr => List.mem_append_left _ (h.publishedSent r hr)
    · rintro c' req' ⟨⟩
      exact ⟨he, hid, List.getLast?_concat _⟩
    · intro _
      simp [hlen, Phase.inFlight]
  | fail _ =>
    exact ⟨h.sentIDs, by simpa using h.publishedIDs, by simpa using h.publishedSent,
      by simpa using h.count, nofun, nofun, nofun, by simpa using h.bounded⟩
  | @drop req hph =>
    refine ⟨h.sentIDs, by simpa using h.publishedIDs, by simpa using h.publishedSent,
      by simpa using h.count, nofun, nofun, fun he => ?_, by simpa using h.bounded⟩
    simpa [hph, Phase.inFlight] using h.balanced he
  | @resp c req id hph =>
    obtain ⟨he, hid, hlast⟩ := h.waiting c req hph
    have hlen := h.balanced he
    simp only [hph, Phase.inFlight, Bool.toNat_true] at hlen
    refine ⟨h.sentIDs, ?_, ?_, ?_, nofun, nofun, fun _ => by simpa [Phase.inFlight] using hlen,
      by simp [hlen]⟩
    · simpa [hid, h.count] using ids_append h.publishedIDs
    · simp only [finish_returns, published_append, published_singleton, if_true,
        List.mem_append, List.mem_singleton, finish_sent]
      rintro r (hr | rfl)
      · exact h.publishedSent r hr
      · exact List.mem_of_getLast?_eq_some hlast
    · simp [hack, h.count, ofNat_add_one]
  | close => exact ⟨h.sentIDs, h.publishedIDs, h.publishedSent, h.count, h.selecting, h.waiting,
      h.balanced, h.bounded⟩

theorem Reachable.idInv {s : Sys E} (hs : Reachable s) {p : Nat} {pr : Producer E}
    (hp : s.producers[p]? = some pr) (hack : pr.ack = true) : pr.IDInv :=
  hs.producers (P := fun _ pr => pr.ack = true → pr.IDInv)
    (fun _ _ _ _ => Producer.IDInv.newProducer _ _)
    (fun _ _ _ hl ih hack => (ih (hl.ack ▸ hack)).local hl (hl.ack ▸ hack))
    p pr hp hack

/-- A producer's current request names it: ACK producer `q` writes
`producer := q`, a forgetful one no producer. -/
def Producer.Owns (q : Nat) (pr : Producer E) : Prop :=
  ∀ c req, (pr.phase = .selecting c req ∨ pr.phase = .waiting c req) →
    req.producer = if pr.ack then some q else none

theorem Producer.Owns.local {q : Nat} {pr x : Producer E} (hl : Local q pr x) (h : pr.Owns q) :
    x.Owns q := by
  cases hl with
  | begin c e r _ =>
    intro c' req h'
    simp only [reduceCtorEq, or_false, Phase.selecting.injEq] at h'
    obtain ⟨rfl, rfl⟩ := h'
    simp
  | @send c req hph _ =>
    intro c' req' h'
    simp only [reduceCtorEq, false_or, Phase.waiting.injEq] at h'
    obtain ⟨rfl, rfl⟩ := h'
    exact h c req (.inl hph)
  | close => exact h
  | _ => simp [Producer.Owns]

theorem Reachable.owns {s : Sys E} (hs : Reachable s) {q : Nat} {pr : Producer E}
    (hq : s.producers[q]? = some pr) : pr.Owns q :=
  hs.producers (P := fun q pr => pr.Owns q) (fun _ _ _ _ _ h => by simp [newProducer] at h)
    (fun _ _ _ hl h => h.local hl) q pr hq

/-- What ACK producer `p` of `ps` has written; nothing for any other index. -/
def written (ps : List (Producer E)) (p : Nat) : List (PushRequest E) :=
  match ps[p]? with
  | some pr => if pr.ack then pr.sent else []
  | none => []

theorem written_set {ps : List (Producer E)} {p q : Nat} {pr : Producer E}
    (hp : ps[p]? = some pr) (x : Producer E) :
    written (ps.set p x) q = if p = q then (if x.ack then x.sent else []) else written ps q := by
  have hlt : p < ps.length := (List.getElem?_eq_some_iff.mp hp).1
  by_cases hpq : p = q
  · subst hpq; simp [written, hlt]
  · simp [written, List.getElem?_set_ne hpq, hpq]

theorem written_append_newProducer (ps : List (Producer E)) (ack : Bool)
    (encoder : Option (E → E × Nat)) (q : Nat) :
    written (ps ++ [newProducer ack encoder]) q = written ps q := by
  unfold written
  rcases Nat.lt_trichotomy q ps.length with h | rfl | h
  · rw [List.getElem?_append_left h]
  · simp [newProducer]
  · rw [List.getElem?_eq_none (by simp; omega), List.getElem?_eq_none (by omega)]

/-- A step of a producer that keeps its kind and what it wrote keeps `written`. -/
theorem written_set_same {ps : List (Producer E)} {p : Nat} {pr x : Producer E}
    (hp : ps[p]? = some pr) (hack : x.ack = pr.ack) (hsent : x.sent = pr.sent) (q : Nat) :
    written (ps.set p x) q = written ps q := by
  rw [written_set hp]
  split
  · subst_vars; simp [written, hp, hack, hsent]
  · rfl

/-- The push channel is FIFO between the producers and the broker: what each
ACK producer wrote is, in order, what the broker inserted from it followed by
what still waits in the channel. -/
def FifoInv (s : Sys E) : Prop :=
  ∀ p, (s.entries ++ s.pushChan).filter (·.producer == some p) = written s.producers p

theorem Reachable.fifo {s : Sys E} (hs : Reachable s) : FifoInv s := by
  induction hs with
  | init => intro p; simp [Sys.init, written]
  | step a hs hstep ih =>
    intro q
    cases moves_of_step hstep with
    | newProducer ack enc => simpa [written_append_newProducer] using ih q
    | @send p pr c req hp hph _ =>
      have hown := hs.owns hp c req (.inl hph)
      simp only [Sys.setProducer, ← List.append_assoc, List.filter_append, ih q, written_set hp]
      by_cases hpq : p = q
      · subst hpq
        cases hack : pr.ack <;> simp [written, hp, hack, hown]
      · have : (req.producer == some q) = false := by
          rw [hown]; split <;> simp [hpq]
        simp [hpq, List.filter_singleton, this]
    | push hc _ =>
      simpa [hc] using ih q
    | closeQueue _ => exact ih q
    | begin _ _ hp _ | done hp _ _ | closing hp _ _ | closingWait hp _ _ | drop hp _ _ _
      | resp hp _ _ | close hp _ =>
      simpa [Sys.setProducer, written_set_same hp] using ih q

/-- In every reachable state, an ACK producer has written its requests
numbered `1, 2, …, n` (as 64-bit values) in order, its calls that returned
`(id, true)` carry `1, 2, …, k` in order and each of them wrote its request,
and the broker has inserted its requests numbered `1, …, j`, oldest first. -/
theorem ack_producer_ids_consecutive {s : Sys E} (hs : Reachable s) {p : Nat} {pr : Producer E}
    (hp : s.producers[p]? = some pr) (hack : pr.ack = true) :
    pr.sent.map (·.producerID) = ids pr.sent.length ∧
    (published pr.returns).map (·.1.producerID) = ids (published pr.returns).length ∧
    (∀ r ∈ published pr.returns, r.1 ∈ pr.sent) ∧
    (s.entries.filter (·.producer == some p)).map (·.producerID) =
      ids (s.entries.filter (·.producer == some p)).length := by
  have h := hs.idInv hp hack
  have hw : (s.entries.filter (·.producer == some p) ++ s.pushChan.filter (·.producer == some p)).map
      (·.producerID) = ids pr.sent.length := by
    rw [← List.filter_append, hs.fifo p]
    simpa [written, hp, hack] using h.sentIDs
  exact ⟨h.sentIDs, h.publishedIDs, h.publishedSent, ids_of_append hw⟩

/-- An ACK producer whose first two `Publish` calls the broker answered and
whose third request waits in the push channel. -/
def twoPublishedOneSent : List (Act Unit) :=
  [.newProducer true none,
    .call 0 .publish (), .selectSend 0, .push, .selectResp 0,
    .call 0 .publish (), .selectSend 0, .push, .selectResp 0,
    .call 0 .publish (), .selectSend 0]

/-- Three requests written, two calls published, two requests inserted. -/
theorem ack_producer_ids_consecutive_two :
    ∃ s pr, run (Sys.init 1) twoPublishedOneSent = some s ∧ s.producers[0]? = some pr ∧
      pr.ack = true ∧ pr.sent.length = 3 ∧ (published pr.returns).length = 2 ∧
      (s.entries.filter (·.producer == some 0)).length = 2 ∧
      (pr.sent.map (·.producerID) = ids pr.sent.length ∧
        (published pr.returns).map (·.1.producerID) = ids (published pr.returns).length ∧
        (∀ r ∈ published pr.returns, r.1 ∈ pr.sent) ∧
        (s.entries.filter (·.producer == some 0)).map (·.producerID) =
          ids (s.entries.filter (·.producer == some 0)).length) := by
  have key : (run (Sys.init 1) twoPublishedOneSent).bind (fun s => s.producers[0]?.map
      fun pr => (pr.ack, pr.sent.length, (published pr.returns).length,
        (s.entries.filter (·.producer == some 0)).length)) = some (true, 3, 2, 2) := rfl
  obtain ⟨s, pr, hrun, hp, hf⟩ := exists_run_producer key
  simp only [Prod.mk.injEq] at hf
  obtain ⟨hack, h3, h2, h2'⟩ := hf
  exact ⟨s, pr, hrun, hp, hack, h3, h2, h2',
    ack_producer_ids_consecutive ((Reachable.init 1).run hrun) hp hack⟩

/-- One `Publish` that the broker answers: the call, its send, the broker's
insert and the receive of the response. -/
def publishOnce (p : Nat) (event : E) : List (Act E) :=
  [.call p .publish event, .selectSend p, .push, .selectResp p]

/-- `n` answered `Publish` calls in a row. -/
def publishMany (p : Nat) (event : E) : Nat → List (Act E)
  | 0 => []
  | n + 1 => publishOnce p event ++ publishMany p event n

/-- The queue is open with an empty push channel that has room, and `p` is an
idle ACK producer that has written `n` requests. -/
structure Idle (p n : Nat) (s : Sys E) : Prop where
  chan : s.pushChan = []
  open_ : s.closing = false
  room : 0 < s.chanSize
  producer : ∃ pr, s.producers[p]? = some pr ∧ pr.ack = true ∧ pr.events = true ∧
    pr.phase = .idle ∧ pr.sent.length = n

theorem run_publishOnce {p n : Nat} {s : Sys E} (h : Idle p n s) (event : E) :
    ∃ s', run s (publishOnce p event) = some s' ∧ Idle p (n + 1) s' := by
  obtain ⟨pr, hp, hack, hev, hph, hn⟩ := h.producer
  have hlt : p < s.producers.length := (List.getElem?_eq_some_iff.mp hp).1
  simp only [run, publishOnce, step, hp, Sys.begin, Sys.setProducer, h.chan, h.open_,
    Option.some_bind, hph, hev, Sys.sendCase, Sys.sendReady, Bool.and_eq_true, decide_eq_true_eq,
    Sys.brokerPush, Sys.respCase, Option.bind_some, List.length_set, hlt, List.getElem?_eq_getElem,
    List.getElem_set_self, List.length_nil, h.room, and_true, List.nil_append, List.set_set,
    if_true, if_false, Bool.false_eq_true, Producer.encode_resp, Producer.makePushRequest_resp,
    Function.update_apply, Function.update_idem, Option.map_some', Option.some.injEq,
    exists_eq_left']
  exact ⟨rfl, rfl, h.room, _, List.getElem?_set_self hlt, by simp [hack], rfl, rfl, by simp [hn]⟩

theorem run_publishMany {p n : Nat} {s : Sys E} (h : Idle p n s) (event : E) (k : Nat) :
    ∃ s', run s (publishMany p event k) = some s' ∧ Idle p (n + k) s' := by
  induction k generalizing n s with
  | zero => exact ⟨s, rfl, h⟩
  | succ k ih =>
    obtain ⟨s₁, h₁, hi₁⟩ := run_publishOnce h event
    obtain ⟨s₂, h₂, hi₂⟩ := ih hi₁
    exact ⟨s₂, by rw [publishMany, run_append, h₁, Option.some_bind, h₂], by
      simpa [Nat.add_assoc, Nat.add_comm 1 k] using hi₂⟩

/-- After `2^64 + 1` answered `Publish` calls the producer's 64-bit IDs repeat:
the request written last carries the same ID as the first one. -/
theorem producer_ids_wrap :
    ∃ s : Sys Unit, Reachable s ∧ ∃ pr ∈ s.producers, pr.ack = true ∧
      ¬ (pr.sent.map (·.producerID)).Nodup := by
  have hs₀ : Reachable ({ Sys.init 1 with producers := [newProducer true none] } : Sys Unit) :=
    .step (.newProducer true none) (.init 1) rfl
  have hi₀ : Idle 0 0 ({ Sys.init 1 with producers := [newProducer true none] } : Sys Unit) :=
    ⟨rfl, rfl, Nat.one_pos, _, rfl, rfl, rfl, rfl, rfl⟩
  obtain ⟨s, hrun, hi⟩ := run_publishMany hi₀ () (UInt64.size + 1)
  obtain ⟨pr, hp, hack, -, -, hn⟩ := hi.producer
  have hs := hs₀.run hrun
  refine ⟨s, hs, pr, List.getElem?_mem hp, hack, ?_⟩
  rw [(hs.idInv hp hack).sentIDs, hn]
  exact ids_not_nodup

end Libbeat.Memqueue
