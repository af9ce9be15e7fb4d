import Libbeat.Memqueue.Progress

/-!
# The broker's ring

Modelled from the spec: the broker's run loop is not among the sources.
`Sys` lets the broker insert whenever the push channel holds a request, the
most permissive broker, which every safety result about `Sys` covers. The
spec's broker keeps its events in a ring of `events` entries and takes no
request while `head - acked = events`; space comes back when the consumer
acknowledges a batch. `Ring` adds the ring's `events` and `acked` to the
state, lets the broker's insert through only while the ring has a free entry,
and adds the consumer's step, which acknowledges the oldest held entry (the
consumer's `Get` and the batch's `Done` taken as one step).

Every state `Ring` reaches is one `Sys` reaches (`ring_refines_sys`), so every
invariant of `Sys` holds of it, and the ring keeps the spec's bound
`acked ≤ head`, `head - acked ≤ events`. Progress needs the consumer once the
ring is full: with at least one entry, a call waiting at its second select on
an open queue returns `(id, true)` by steps of the broker, the consumer and
its own receive (`waiting_call_answered`), and so does a call at its first
select when the push channel has room (`call_can_succeed`).
-/

namespace Libbeat.Memqueue

variable {E : Type}

/-- The queue with the broker's ring of `events` entries, of which the first
`acked` inserted ones the consumer acknowledged. -/
structure Ring (E : Type) where
  sys : Sys E
  events : Nat
  acked : Nat

/-- A step of `Sys`, or the consumer acknowledging the oldest held entry. -/
inductive RingAct (E : Type) where
  | act (a : Act E)
  | ack

namespace Ring

def init (chanSize events : Nat) : Ring E := ⟨Sys.init chanSize, events, 0⟩

/-- `head - acked`: the entries the ring holds. -/
def held (r : Ring E) : Nat := r.sys.entries.length - r.acked

/-- The broker takes a request only while the ring has a free entry. -/
def allows (r : Ring E) : Act E → Bool
  | .push => decide (r.held < r.events)
  | _ => true

def step (r : Ring E) : RingAct E → Option (Ring E)
  | .act a => if r.allows a then (Memqueue.step r.sys a).map ({ r with sys := · }) else none
  | .ack => if r.acked < r.sys.entries.length then some { r with acked := r.acked + 1 } else none

def run (r : Ring E) : List (RingAct E) → Option (Ring E)
  | [] => some r
  | a :: as => (r.step a).bind (run · as)

inductive Reachable : Ring E → Prop
  | init (chanSize events : Nat) : Reachable (init chanSize events)
  | step {r r' : Ring E} (a : RingAct E) : Reachable r → r.step a = some r' → Reachable r'

theorem step_act {r : Ring E} {a : Act E} {s : Sys E} (ha : r.allows a = true)
    (h : Memqueue.step r.sys a = some s) : r.step (.act a) = some { r with sys := s } := by
  simp [step, ha, h]

/-- What a step of the ring does: a step of `Sys` the ring allows, or an
acknowledgement of a held entry. -/
theorem step_cases {r r' : Ring E} {a : RingAct E} (h : r.step a = some r') :
    (∃ b s, a = .act b ∧ r.allows b = true ∧ Memqueue.step r.sys b = some s ∧
      r' = { r with sys := s }) ∨
    (a = .ack ∧ r.acked < r.sys.entries.length ∧ r' = { r with acked := r.acked + 1 }) := by
  cases a with
  | act b =>
    simp only [step] at h
    split_ifs at h with hb
    obtain ⟨s, hs, rfl⟩ := Option.map_eq_some'.mp h
    exact .inl ⟨b, s, rfl, hb, hs, rfl⟩
  | ack =>
    simp only [step] at h
    split_ifs at h with hlt
    cases h
    exact .inr ⟨rfl, hlt, rfl⟩

theorem run_append (r : Ring E) (as bs : List (RingAct E)) :
    r.run (as ++ bs) = (r.run as).bind (run · bs) := by
  induction as generalizing r with
  | nil => rfl
  | cons a as ih =>
    simp only [List.cons_append, run]
    cases r.step a <;> simp [ih]

theorem run_singleton (r : Ring E) (a : RingAct E) : r.run [a] = r.step a := by
  rw [run]; cases r.step a <;> rfl

theorem Reachable.run {r r' : Ring E} (hr : Reachable r) :
    ∀ {as : List (RingAct E)}, r.run as = some r' → Reachable r'
  | [], h => by cases h; exact hr
  | a :: as, h => by
    simp only [Ring.run, Option.bind_eq_some] at h
    obtain ⟨r₁, h₁, h⟩ := h
    exact (hr.step a h₁).run h

/-- The consumer acknowledges `n` held entries, one at a time. -/
theorem run_acks (n : Nat) : ∀ {r : Ring E}, r.acked + n ≤ r.sys.entries.length →
    r.run (List.replicate n .ack) = some { r with acked := r.acked + n } := by
  induction n with
  | zero => intro r _; rfl
  | succ n ih =>
    intro r h
    have hlt : r.acked < r.sys.entries.length := by omega
    rw [List.replicate_succ, run, step, if_pos hlt, Option.some_bind,
      ih (r := { r with acked := r.acked + 1 }) (by simp only; omega), Nat.add_right_comm,
      Nat.add_assoc]

/-- The consumer acknowledges every held entry, then the broker inserts. -/
theorem run_acks_push {r : Ring E} {s : Sys E} (hack : r.acked ≤ r.sys.entries.length)
    (hcap : 0 < r.events) (h : Memqueue.step r.sys .push = some s) :
    r.run (List.replicate (r.sys.entries.length - r.acked) .ack ++ [.act .push]) =
      some { r with acked := r.sys.entries.length, sys := s } := by
  have hpush : ({ r with acked := r.sys.entries.length } : Ring E).step (.act .push) =
      some { r with acked := r.sys.entries.length, sys := s } :=
    step_act (by simp [allows, held, hcap]) h
  rw [run_append, run_acks _ (by omega), Nat.add_sub_cancel' hack, Option.some_bind, run_singleton,
    hpush]

end Ring

/-- A step of `Sys` leaves the entries alone, but for the broker's insert. -/
theorem Moves.entries {s s' : Sys E} {a : Act E} (h : Moves s a s') :
    s'.entries = s.entries ∨ ∃ req, a = .push ∧ s'.entries = s.entries ++ [req] := by
  cases h with
  | @push req _ _ _ => exact .inr ⟨req, rfl, rfl⟩
  | _ => exact .inl rfl

/-- A ring step is a step of `Sys` or leaves `Sys` alone, and keeps the bound. -/
theorem Ring.Reachable.inv {r : Ring E} (hr : Ring.Reachable r) :
    Memqueue.Reachable r.sys ∧ r.acked ≤ r.sys.entries.length ∧ r.held ≤ r.events := by
  induction hr with
  | init n events =>
    exact ⟨.init n, by simp [Ring.init, Sys.init], by simp [Ring.held, Ring.init, Sys.init]⟩
  | step a _ hstep ih =>
    obtain ⟨hs, hack, hheld⟩ := ih
    rcases Ring.step_cases hstep with ⟨b, s, rfl, hb, hsb, rfl⟩ | ⟨rfl, hlt, rfl⟩
    · refine ⟨hs.step b hsb, ?_⟩
      rcases (moves_of_step hsb).entries with he | ⟨req, rfl, he⟩
      · simp only [Ring.held, he]
        exact ⟨hack, hheld⟩
      · simp only [Ring.allows, decide_eq_true_eq, Ring.held] at hb
        simp only [Ring.held, he, List.length_append, List.length_singleton]
        omega
    · simp only [Ring.held] at hheld ⊢
      exact ⟨hs, by omega, by omega⟩

/-- While the queue is open and the ring has an entry, the broker takes the
requests at the head of the push channel in order, the consumer acknowledging
everything held before each insert; no producer moves. -/
theorem Ring.run_push_prefix (pre : List (PushRequest E)) :
    ∀ {r : Ring E} {rest : List (PushRequest E)}, Ring.Reachable r → 0 < r.events →
      r.sys.closing = false → r.sys.pushChan = pre ++ rest →
      ∃ as r', (∀ a ∈ as, a = .act .push ∨ a = .ack) ∧ r.run as = some r' ∧
        r'.sys.pushChan = rest ∧ r'.sys.entries = r.sys.entries ++ pre ∧
        r'.sys.producers = r.sys.producers ∧ r'.sys.closing = false ∧
        r'.sys.chanSize = r.sys.chanSize ∧ r'.events = r.events := by
  induction pre with
  | nil => intro r rest _ _ hcl h; exact ⟨[], r, by simp, rfl, h, by simp, rfl, hcl, rfl, rfl⟩
  | cons a pre ih =>
    intro r rest hr hcap hcl h
    have hrun₁ := Ring.run_acks_push hr.inv.2.1 hcap
      (step_of_moves (.push (h.trans (List.cons_append a pre rest)) hcl))
    obtain ⟨as, r', has, hrun, hc, he, hprod, hcl', hsize, hev⟩ := ih (hr.run hrun₁) hcap hcl rfl
    refine ⟨List.replicate (r.sys.entries.length - r.acked) .ack ++ .act .push :: as, r', ?_, ?_,
      hc, by simp [he], hprod, hcl', hsize, hev⟩
    · simp only [List.mem_append, List.mem_replicate, List.mem_cons]
      rintro x (⟨-, rfl⟩ | rfl | hx)
      exacts [.inr rfl, .inl rfl, has x hx]
    · rw [← List.singleton_append, ← List.append_assoc, Ring.run_append, hrun₁, Option.some_bind,
        hrun]

/-- A call waiting at its second select on an open queue with a ring of at
least one entry is answered after the broker inserted the requests up to its
own, the consumer acknowledging held entries before each insert, and its own
receive. -/
theorem answer_after_acks {r : Ring E} (hr : Ring.Reachable r) (hcap : 0 < r.events) {p : Nat}
    {pr : Producer E} {c : Call} {req : PushRequest E} (hp : r.sys.producers[p]? = some pr)
    (hph : pr.phase = .waiting c req) (hcl : r.sys.closing = false) :
    ∃ as r' id, (∀ a ∈ as, a = .act .push ∨ a = .ack ∨ a = .act (.selectResp p)) ∧
      r.run as = some r' ∧ r'.sys.producers[p]? = some (pr.finish req id true) ∧
      r'.sys.entries.length ≤ r.sys.entries.length + r.sys.pushChan.length ∧
      ∃ i, r'.sys.entries[i]? = some req ∧ id = UInt64.ofNat i := by
  have hs := hr.inv.1
  obtain ⟨as₁, r₁, has₁, hrun₁, hprod, hin, hlen⟩ : ∃ as₁ r₁,
      (∀ a ∈ as₁, a = .act .push ∨ a = .ack) ∧ r.run as₁ = some r₁ ∧
      r₁.sys.producers = r.sys.producers ∧ req ∈ r₁.sys.entries ∧
      r₁.sys.entries.length ≤ r.sys.entries.length + r.sys.pushChan.length := by
    rcases List.mem_append.mp ((hs.entryInv.agrees p pr hp).waiting c req hph) with hin | hin
    · exact ⟨[], r, by simp, rfl, rfl, hin, Nat.le_add_right _ _⟩
    · obtain ⟨pre, post, hsplit⟩ := List.append_of_mem hin
      obtain ⟨as₁, r₁, has₁, hrun, -, he, hprod, -⟩ :=
        Ring.run_push_prefix (pre ++ [req]) hr hcap hcl
          (show r.sys.pushChan = pre ++ [req] ++ post by simp [hsplit])
      exact ⟨as₁, r₁, has₁, hrun, hprod, by simp [he], by simp [he, hsplit]⟩
  have hs₁ := (hr.run hrun₁).inv.1
  have hp₁ : r₁.sys.producers[p]? = some pr := hprod ▸ hp
  obtain ⟨id, hid⟩ := hs₁.ownInv.ready p pr hp₁ c req hph hin
  obtain ⟨i, hi, rfl⟩ := hs₁.entryInv.answer_of_sent (List.mem_append_left _ hin) hid
  have hrun : r.run (as₁ ++ [.act (.selectResp p)]) = r₁.step (.act (.selectResp p)) := by
    rw [Ring.run_append, hrun₁, Option.some_bind, Ring.run_singleton]
  rw [Ring.step_act (r := r₁) (a := .selectResp p) rfl (step_of_moves (.resp hp₁ hph hid))] at hrun
  refine ⟨_, _, _, ?_, hrun, List.getElem?_set_self (List.getElem?_eq_some_iff.mp hp₁).1, hlen, i,
    hi, rfl⟩
  simp only [List.mem_append, List.mem_singleton]
  rintro a (ha | rfl)
  · exact (has₁ a ha).imp_right .inl
  · exact .inr (.inr rfl)

/-- A call waiting at its second select on an open queue whose ring has at
least one entry returns `(id, true)`, `id` the index of its event, by steps of
the broker, the consumer and its own receive; the broker inserts at most the
requests of the push channel. -/
theorem waiting_call_answered {r : Ring E} (hr : Ring.Reachable r) (hcap : 0 < r.events)
    {p : Nat} {pr : Producer E} {c : Call} {req : PushRequest E}
    (hp : r.sys.producers[p]? = some pr) (hph : pr.phase = .waiting c req)
    (hcl : r.sys.closing = false) :
    ∃ as r' id, (∀ a ∈ as, a = .act .push ∨ a = .ack ∨ a = .act (.selectResp p)) ∧
      r.run as = some r' ∧ r'.sys.producers[p]? = some (pr.finish req id true) ∧
      r'.sys.entries.length ≤ r.sys.entries.length + r.sys.pushChan.length ∧
      ∃ i, r'.sys.entries[i]? = some req ∧ id = UInt64.ofNat i :=
  answer_after_acks hr hcap hp hph hcl

/-- An ACK producer's second `Publish` waits with its request in the channel
while its first event fills the one-entry ring. -/
def fullRingWaiting : List (RingAct Unit) :=
  [.act (.newProducer true none), .act (.call 0 .publish ()), .act (.selectSend 0), .act .push,
    .act (.selectResp 0), .act (.call 0 .publish ()), .act (.selectSend 0)]

theorem waiting_call_answered_full :
    ∃ r pr, (Ring.init 1 1).run fullRingWaiting = some r ∧ r.held = r.events ∧
      0 < r.events ∧ r.sys.producers[0]? = some pr ∧
      pr.phase = .waiting .publish ⟨(), 0, some 0, 2, 1⟩ ∧ r.sys.closing = false ∧
      ∃ as r' id, (∀ a ∈ as, a = .act .push ∨ a = .ack ∨ a = .act (.selectResp 0)) ∧
        r.run as = some r' ∧
        r'.sys.producers[0]? = some (pr.finish ⟨(), 0, some 0, 2, 1⟩ id true) ∧
        r'.sys.entries.length ≤ r.sys.entries.length + r.sys.pushChan.length ∧
        ∃ i, r'.sys.entries[i]? = some ⟨(), 0, some 0, 2, 1⟩ ∧ id = UInt64.ofNat i := by
  have key : ((Ring.init 1 1).run fullRingWaiting).bind (fun r => r.sys.producers[0]?.map
      fun pr => (r.held, r.events, pr.phase, r.sys.closing)) =
      some (1, 1, .waiting .publish ⟨(), 0, some 0, 2, 1⟩, false) := rfl
  obtain ⟨r, hrun, hm⟩ := Option.bind_eq_some.mp key
  obtain ⟨pr, hp, hf⟩ := Option.map_eq_some'.mp hm
  simp only [Prod.mk.injEq] at hf
  obtain ⟨hheld, hev, hph, hcl⟩ := hf
  have hcap : 0 < r.events := by rw [hev]; exact Nat.one_pos
  exact ⟨r, pr, hrun, hheld.trans hev.symm, hcap, hp, hph, hcl,
    waiting_call_answered ((Ring.Reachable.init 1 1).run hrun) hcap hp hph hcl⟩

/-- On an open queue whose ring has an entry and whose push channel has a
slot, a call at its first select whose producer still writes can always
return `(id, true)`, `id` the index of its event, by steps of the broker, the
consumer and the call alone: the broker empties the channel, the call sends,
the broker inserts up to its request, the call receives. -/
theorem call_can_succeed {r : Ring E} (hr : Ring.Reachable r) (hcap : 0 < r.events) {p : Nat}
    {pr : Producer E} {c : Call} {req : PushRequest E} (hp : r.sys.producers[p]? = some pr)
    (hph : pr.phase = .selecting c req) (hev : pr.events = true) (hcl : r.sys.closing = false)
    (hbuf : 0 < r.sys.chanSize) :
    ∃ as r' id, (∀ a ∈ as, a = .act .push ∨ a = .ack ∨ a = .act (.selectSend p) ∨
        a = .act (.selectResp p)) ∧ r.run as = some r' ∧
      (∃ pr', r'.sys.producers[p]? = some pr' ∧ pr'.phase = .idle ∧
        pr'.returns = pr.returns ++ [(req, id, true)]) ∧
      ∃ i, r'.sys.entries[i]? = some req ∧ id = UInt64.ofNat i := by
  obtain ⟨as₁, r₁, has₁, hrun₁, hc₁, -, hprod₁, hcl₁, hsize₁, hev₁⟩ :=
    Ring.run_push_prefix r.sys.pushChan hr hcap hcl (List.append_nil _).symm
  have hp₁ : r₁.sys.producers[p]? = some pr := hprod₁ ▸ hp
  have hready : r₁.sys.sendReady pr = true := by simp [Sys.sendReady, hev, hc₁, hsize₁, hbuf]
  have hstep₂ := Ring.step_act (r := r₁) (a := .selectSend p) rfl
    (step_of_moves (.send hp₁ hph hready))
  obtain ⟨as₃, r', id, has₃, hrun₃, hp', -, hentry⟩ :=
    answer_after_acks ((hr.run hrun₁).step _ hstep₂) (hev₁.symm ▸ hcap)
      (List.getElem?_set_self (List.getElem?_eq_some_iff.mp hp₁).1) rfl hcl₁
  refine ⟨as₁ ++ .act (.selectSend p) :: as₃, r', id, ?_, ?_, ⟨_, hp', by simp, by simp⟩, hentry⟩
  · simp only [List.mem_append, List.mem_cons]
    rintro a (ha | rfl | ha)
    · exact (has₁ a ha).imp_right .inl
    · exact .inr (.inr (.inl rfl))
    · rcases has₃ a ha with h | h | h
      exacts [.inl h, .inr (.inl h), .inr (.inr (.inr h))]
  · rw [Ring.run_append, hrun₁, Option.some_bind]
    simp only [Ring.run, hstep₂, Option.some_bind]
    exact hrun₃

/-- Producer 0's first event fills the one-entry ring, producer 1's request
fills the one-slot channel, and producer 0's second `Publish` is at its first
select. -/
def fullRingSelecting : List (RingAct Unit) :=
  [.act (.newProducer true none), .act (.newProducer true none), .act (.call 0 .publish ()),
    .act (.selectSend 0), .act .push, .act (.selectResp 0), .act (.call 1 .publish ()),
    .act (.selectSend 1), .act (.call 0 .publish ())]

theorem call_can_succeed_full :
    ∃ r pr, (Ring.init 1 1).run fullRingSelecting = some r ∧ r.held = r.events ∧
      r.sys.pushChan.length = r.sys.chanSize ∧ 0 < r.events ∧ r.sys.producers[0]? = some pr ∧
      pr.phase = .selecting .publish ⟨(), 0, some 0, 2, 2⟩ ∧ pr.events = true ∧
      r.sys.closing = false ∧ 0 < r.sys.chanSize ∧
      ∃ as r' id, (∀ a ∈ as, a = .act .push ∨ a = .ack ∨ a = .act (.selectSend 0) ∨
          a = .act (.selectResp 0)) ∧ r.run as = some r' ∧
        (∃ pr', r'.sys.producers[0]? = some pr' ∧ pr'.phase = .idle ∧
          pr'.returns = pr.returns ++ [(⟨(), 0, some 0, 2, 2⟩, id, true)]) ∧
        ∃ i, r'.sys.entries[i]? = some ⟨(), 0, some 0, 2, 2⟩ ∧ id = UInt64.ofNat i := by
  have key : ((Ring.init 1 1).run fullRingSelecting).bind (fun r => r.sys.producers[0]?.map
      fun pr => (r.held, r.events, r.sys.pushChan.length, r.sys.chanSize, pr.phase, pr.events,
        r.sys.closing)) =
      some (1, 1, 1, 1, .selecting .publish ⟨(), 0, some 0, 2, 2⟩, true, false) := rfl
  obtain ⟨r, hrun, hm⟩ := Option.bind_eq_some.mp key
  obtain ⟨pr, hp, hf⟩ := Option.map_eq_some'.mp hm
  simp only [Prod.mk.injEq] at hf
  obtain ⟨hheld, hev, hlen, hsize, hph, hevents, hcl⟩ := hf
  have hcap : 0 < r.events := by rw [hev]; exact Nat.one_pos
  have hbuf : 0 < r.sys.chanSize := by rw [hsize]; exact Nat.one_pos
  exact ⟨r, pr, hrun, hheld.trans hev.symm, hlen.trans hsize.symm, hcap, hp, hph, hevents, hcl,
    hbuf, call_can_succeed ((Ring.Reachable.init 1 1).run hrun) hcap hp hph hevents hcl hbuf⟩

end Libbeat.Memqueue
