import Libbeat.Memqueue.Broker

/-!
# Returning without the broker

Which calls can return by steps of their own, with no step of the broker and
no queue closing. At its first select a `TryPublish` always has a ready case:
the send when the push channel has room, and otherwise `<-st.done` or
`default`, both returning `(0, false)`; after `Close` every call still at its
first select can take `<-st.done`. The second select, which every call
reaches once its request is in the push channel, waits only for the response
and for `queueClosing`: neither `done` nor `default` is among its cases, so the
call stays there until the broker answers or the queue closes. Once the queue
closes, every call can return by steps of its own.
-/

namespace Libbeat.Memqueue

variable {E : Type}

/-- The steps of the broker and of queue closing. -/
def Act.isQueue : Act E → Bool
  | .push | .closeQueue => true
  | _ => false

/-- Producer `p`'s call can return by a schedule with no step of the broker
and no queue closing. -/
def ReturnsAlone (s : Sys E) (p : Nat) : Prop :=
  ∃ as s', (∀ a ∈ as, a.isQueue = false) ∧ run s as = some s' ∧
    ∃ pr, s'.producers[p]? = some pr ∧ pr.phase = .idle

/-- Producer `p` waits at its second select, with no answer on its response
channel and the queue open. -/
def Stuck (s : Sys E) (p : Nat) (c : Call) (req : PushRequest E) : Prop :=
  (∃ pr, s.producers[p]? = some pr ∧ pr.phase = .waiting c req) ∧
    s.resps req.resp = none ∧ s.closing = false

theorem setProducer_ne {s : Sys E} {p q : Nat} (x : Producer E) (h : q ≠ p) :
    (s.setProducer q x).producers[p]? = s.producers[p]? :=
  List.getElem?_set_ne h

/-- No step other than the broker's and queue closing unsticks a waiting call. -/
theorem Stuck.moves {s s' : Sys E} {p : Nat} {c : Call} {req : PushRequest E} {a : Act E}
    (h : Stuck s p c req) (hm : Moves s a s') (ha : a.isQueue = false) : Stuck s' p c req := by
  obtain ⟨⟨pr, hp, hph⟩, hr, hcl⟩ := h
  have hlt : p < s.producers.length := (List.getElem?_eq_some_iff.mp hp).1
  have keep : ∀ {q : Nat} {y : Producer E} {pr' : Producer E}, s.producers[q]? = some pr' →
      (q = p → pr'.phase = .waiting c req → y.phase = .waiting c req) →
      ∃ x, (s.setProducer q y).producers[p]? = some x ∧ x.phase = .waiting c req := by
    intro q y pr' hq hy
    by_cases hqp : q = p
    · subst hqp
      cases hp.symm.trans hq
      exact ⟨y, List.getElem?_set_self hlt, hy rfl hph⟩
    · exact ⟨pr, (setProducer_ne y hqp).trans hp, hph⟩
  cases hm with
  | newProducer ack enc =>
    exact ⟨⟨pr, by simpa [List.getElem?_append_left hlt] using hp, hph⟩, hr, hcl⟩
  | begin _ _ hq hph' | send hq hph' _ | done hq hph' _ | closing hq hph' _ | drop hq hph' _ _ =>
    exact ⟨keep hq fun _ h' => by simp [hph'] at h', hr, hcl⟩
  | closingWait _ _ hc => simp [hc] at hcl
  | @resp q pr' c' req' id hq hph' hid =>
    refine ⟨keep hq fun hqp h' => ?_, by simp [Function.update_apply, hr], hcl⟩
    subst hqp
    cases hp.symm.trans hq
    cases hph.symm.trans hph'
    simp [hr] at hid
  | close hq _ => exact ⟨keep hq fun _ h' => h', hr, hcl⟩
  | push | closeQueue => simp [Act.isQueue] at ha

theorem Stuck.run {s s' : Sys E} {p : Nat} {c : Call} {req : PushRequest E} (h : Stuck s p c req) :
    ∀ {as : List (Act E)}, (∀ a ∈ as, a.isQueue = false) → run s as = some s' → Stuck s' p c req
  | [], _, hrun => by cases hrun; exact h
  | a :: as, has, hrun => by
    simp only [Memqueue.run, Option.bind_eq_some] at hrun
    obtain ⟨s₁, h₁, hrun⟩ := hrun
    exact (h.moves (moves_of_step h₁) (has a (.head _))).run (fun b hb => has b (.tail _ hb)) hrun

theorem Stuck.not_returnsAlone {s : Sys E} {p : Nat} {c : Call} {req : PushRequest E}
    (h : Stuck s p c req) : ¬ ReturnsAlone s p := by
  rintro ⟨as, s', has, hrun, pr, hp, hidle⟩
  obtain ⟨⟨pr', hp', hph⟩, -, -⟩ := h.run has hrun
  cases hp.symm.trans hp'
  simp [hidle] at hph

theorem setProducer_self {s : Sys E} {p : Nat} {pr : Producer E} (hp : s.producers[p]? = some pr)
    (x : Producer E) : (s.setProducer p x).producers[p]? = some x :=
  List.getElem?_set_self (List.getElem?_eq_some_iff.mp hp).1

/-- A call that can return alone after one step of its own can return alone. -/
theorem ReturnsAlone.cons {s s' : Sys E} {p : Nat} {a : Act E} (h : step s a = some s')
    (ha : a.isQueue = false) (h' : ReturnsAlone s' p) : ReturnsAlone s p := by
  obtain ⟨as, s'', has, hrun, hidle⟩ := h'
  exact ⟨a :: as, s'', List.forall_mem_cons.mpr ⟨ha, has⟩, by simp [run, h, hrun], hidle⟩

/-- A call returns alone when a step of its own makes its producer idle. -/
theorem returnsAlone_of_moves {s : Sys E} {p : Nat} {pr x : Producer E} {a : Act E}
    (hp : s.producers[p]? = some pr) (hm : Moves s a (s.setProducer p x))
    (ha : a.isQueue = false) (hidle : x.phase = .idle) : ReturnsAlone s p :=
  ReturnsAlone.cons (step_of_moves hm) ha ⟨[], _, by simp, rfl, x, setProducer_self hp x, hidle⟩

theorem returnsAlone_of_waiting {s : Sys E} {p : Nat} {pr : Producer E} {c : Call}
    {req : PushRequest E} (hp : s.producers[p]? = some pr) (hph : pr.phase = .waiting c req)
    (hcl : s.closing = true) : ReturnsAlone s p :=
  returnsAlone_of_moves hp (.closingWait hp hph hcl) rfl rfl

/-- Once the queue closes every call can return by steps of its own: through
the closing case, after one send for a `TryPublish` whose first select has
neither a free slot's alternative nor `done`. -/
theorem closing_unblocks_calls {s : Sys E} {p : Nat} {pr : Producer E}
    (hp : s.producers[p]? = some pr) (hcl : s.closing = true) (hcall : pr.phase ≠ .idle) :
    ReturnsAlone s p := by
  cases hph : pr.phase with
  | idle => exact absurd hph hcall
  | waiting c req => exact returnsAlone_of_waiting hp hph hcl
  | selecting c req =>
    cases c with
    | publish => exact returnsAlone_of_moves hp (.closing hp hph hcl) rfl rfl
    | tryPublish =>
      cases hd : pr.done
      · cases hr : s.sendReady pr
        · exact returnsAlone_of_moves hp (.drop hp hph hr hd) rfl rfl
        · let sent := { pr with phase := .waiting .tryPublish req, sent := pr.sent ++ [req] }
          obtain ⟨s₁, h₁, hp₁, hcl₁⟩ : ∃ s₁, step s (.selectSend p) = some s₁ ∧
              s₁.producers[p]? = some sent ∧ s₁.closing = true :=
            ⟨_, step_of_moves (.send hp hph hr), setProducer_self hp sent, hcl⟩
          exact .cons h₁ rfl (returnsAlone_of_waiting hp₁ rfl hcl₁)
      · exact returnsAlone_of_moves hp (.done hp hph hd) rfl rfl

theorem closing_unblocks_calls_waiting :
    let pr : Producer Unit := { newProducer true none with phase := .waiting .publish ⟨(), 0, some 0, 1, 0⟩ }
    let s : Sys Unit := { Sys.init 1 with closing := true, producers := [pr] }
    s.producers[0]? = some pr ∧ s.closing = true ∧ pr.phase ≠ .idle ∧ ReturnsAlone s 0 :=
  ⟨rfl, rfl, nofun, closing_unblocks_calls rfl rfl nofun⟩

/-- Producer `p`'s `Publish` at its first select finds the push channel full
(or its events channel nil), with its producer and the queue open. -/
def Blocked (s : Sys E) (p : Nat) (pr : Producer E) : Prop :=
  s.producers[p]? = some pr ∧ s.sendReady pr = false ∧ s.closing = false

/-- `Blocked` reads only `p`'s record, the channel's length and room, and
`closingChan`; a longer channel stays full. -/
theorem Blocked.of_le {s s' : Sys E} {p : Nat} {pr : Producer E} (h : Blocked s p pr)
    (hp : s'.producers[p]? = s.producers[p]?) (hc : s.pushChan.length ≤ s'.pushChan.length)
    (hsize : s'.chanSize = s.chanSize) (hcl : s'.closing = s.closing) : Blocked s' p pr := by
  obtain ⟨hp₀, hfull, hcl₀⟩ := h
  refine ⟨hp.trans hp₀, ?_, hcl.trans hcl₀⟩
  simp only [Sys.sendReady, Bool.and_eq_false_iff, decide_eq_false_iff_not, not_lt] at hfull ⊢
  rw [hsize]
  exact hfull.imp_right fun h => h.trans hc

/-- No step but the broker's, queue closing and the producer's own `Close`
unblocks a blocked `Publish`: its own other cases are not ready, and the
other producers' steps leave its record alone and only lengthen the channel. -/
theorem Blocked.moves {s s' : Sys E} {p : Nat} {pr : Producer E} {req : PushRequest E}
    {a : Act E} (h : Blocked s p pr) (hph : pr.phase = .selecting .publish req)
    (hd : pr.done = false) (hm : Moves s a s') (ha : a.isQueue = false) (hc : a ≠ .close p) :
    Blocked s' p pr := by
  have same : ∀ {q : Nat} {prq : Producer E}, s.producers[q]? = some prq → q = p → prq = pr :=
    fun hq hqp => by subst hqp; exact Option.some.inj (hq.symm.trans h.1)
  cases hm with
  | newProducer ack enc =>
    exact h.of_le (List.getElem?_append_left (List.getElem?_eq_some_iff.mp h.1).1) le_rfl rfl rfl
  | @begin q prq c e hq hph' =>
    by_cases hqp : q = p
    · simp [same hq hqp, hph] at hph'
    · exact h.of_le (setProducer_ne _ hqp) le_rfl rfl rfl
  | @send q prq c r hq hph' hr =>
    by_cases hqp : q = p
    · rw [same hq hqp, h.2.1] at hr; cases hr
    · exact h.of_le (setProducer_ne _ hqp) (by simp) rfl rfl
  | @done q prq c r hq hph' hd' =>
    by_cases hqp : q = p
    · rw [same hq hqp, hd] at hd'; cases hd'
    · exact h.of_le (setProducer_ne _ hqp) le_rfl rfl rfl
  | closing _ _ hcl | closingWait _ _ hcl => rw [h.2.2] at hcl; cases hcl
  | @drop q prq r hq hph' _ _ =>
    by_cases hqp : q = p
    · simp [same hq hqp, hph] at hph'
    · exact h.of_le (setProducer_ne _ hqp) le_rfl rfl rfl
  | @resp q prq c r id hq hph' _ =>
    by_cases hqp : q = p
    · simp [same hq hqp, hph] at hph'
    · exact h.of_le (setProducer_ne _ hqp) le_rfl rfl rfl
  | @close q prq hq _ =>
    by_cases hqp : q = p
    · exact absurd (congrArg Act.close hqp) hc
    · exact h.of_le (setProducer_ne _ hqp) le_rfl rfl rfl
  | push | closeQueue => simp [Act.isQueue] at ha

/-- A `Publish` at its first select that finds the push channel full, with its
producer and the queue open, stays there under every schedule without a step
of the broker, queue closing or its producer's `Close`: its record never
changes and the channel stays full. -/
theorem publish_blocks_when_full {p : Nat} {pr : Producer E} {req : PushRequest E}
    (hph : pr.phase = .selecting .publish req) (hd : pr.done = false) :
    ∀ {as : List (Act E)} {s s' : Sys E}, s.producers[p]? = some pr → s.sendReady pr = false →
      s.closing = false → (∀ a ∈ as, a.isQueue = false ∧ a ≠ .close p) → run s as = some s' →
      s'.producers[p]? = some pr ∧ s'.sendReady pr = false ∧ s'.closing = false
  | [], _, _, hp, hfull, hcl, _, hrun => by cases hrun; exact ⟨hp, hfull, hcl⟩
  | a :: as, s, s', hp, hfull, hcl, has, hrun => by
    simp only [Memqueue.run, Option.bind_eq_some] at hrun
    obtain ⟨s₁, h₁, hrun⟩ := hrun
    obtain ⟨ha, hc⟩ := has a (.head _)
    obtain ⟨hp₁, hfull₁, hcl₁⟩ :=
      Blocked.moves ⟨hp, hfull, hcl⟩ hph hd (moves_of_step h₁) ha hc
    exact publish_blocks_when_full hph hd hp₁ hfull₁ hcl₁ (fun b hb => has b (.tail _ hb)) hrun

/-- Producer 0's `Publish` finds the one-slot channel full with producer 1's
request; producer 1 then calls again and a new producer starts. -/
theorem publish_blocks_when_full_full :
    let req : PushRequest Unit := ⟨(), 0, some 0, 1, 0⟩
    let pr : Producer Unit := { newProducer true none with phase := .selecting .publish req }
    let s : Sys Unit := { Sys.init 1 with
      producers := [pr, { newProducer true none with sent := [⟨(), 1, some 1, 1, 0⟩] }]
      pushChan := [⟨(), 1, some 1, 1, 0⟩], nextResp := 2 }
    let as : List (Act Unit) := [.call 1 .publish (), .newProducer false none]
    ∃ s', run s as = some s' ∧ s'.producers.length = 3 ∧
      (s.producers[0]? = some pr ∧ s.sendReady pr = false ∧ s.closing = false ∧
        (∀ a ∈ as, a.isQueue = false ∧ a ≠ .close 0) ∧
        (s'.producers[0]? = some pr ∧ s'.sendReady pr = false ∧ s'.closing = false)) := by
  intro req pr s as
  have key : (run s as).map (·.producers.length) = some 3 := rfl
  obtain ⟨s', hrun, hlen⟩ := Option.map_eq_some'.mp key
  have has : ∀ a ∈ as, a.isQueue = false ∧ a ≠ .close 0 := by simp [as, Act.isQueue]
  exact ⟨s', hrun, hlen, rfl, rfl, rfl, has,
    publish_blocks_when_full (s := s) rfl rfl rfl rfl rfl has hrun⟩

/-- What producer `p`'s call can do without the broker or queue closing: a
`TryPublish` at its first select sends when the push channel has room and
otherwise returns `(0, false)` at once; once `done` is closed a call at its
first select can return `(0, false)`; a call at its second select with no
answer and the queue open stays there under every such schedule. -/
def CallProgress (s : Sys E) (p : Nat) (pr : Producer E) : Prop :=
  (∀ req, pr.phase = .selecting .tryPublish req →
    (s.sendReady pr = true ∧ (step s (.selectSend p)).isSome) ∨
    (s.sendReady pr = false ∧ (step s (.selectDone p) = some (s.setProducer p (pr.fail req)) ∨
      step s (.selectDefault p) = some (s.setProducer p (pr.finish req 0 false))))) ∧
  (∀ c req, pr.phase = .selecting c req → pr.done = true →
    step s (.selectDone p) = some (s.setProducer p (pr.fail req))) ∧
  (∀ c req, pr.phase = .waiting c req → s.resps req.resp = none → s.closing = false →
    ∀ as s', (∀ a ∈ as, a.isQueue = false) → run s as = some s' →
      ∃ pr', s'.producers[p]? = some pr' ∧ pr'.phase = .waiting c req)

theorem call_waits_only_at_second_select {s : Sys E} {p : Nat} {pr : Producer E}
    (hp : s.producers[p]? = some pr) : CallProgress s p pr := by
  refine ⟨fun req hph => ?_, fun c req hph hd => step_of_moves (.done hp hph hd),
    fun c req hph hr hcl as s' has hrun => (Stuck.run ⟨⟨pr, hp, hph⟩, hr, hcl⟩ has hrun).1⟩
  cases hr : s.sendReady pr
  · cases hd : pr.done
    · exact .inr ⟨rfl, .inr (step_of_moves (.drop hp hph hr hd))⟩
    · exact .inr ⟨rfl, .inl (step_of_moves (.done hp hph hd))⟩
  · exact .inl ⟨rfl, by rw [step_of_moves (.send hp hph hr)]; rfl⟩

/-- The three cases: a `TryPublish` at its first select, a closed producer's
`Publish` at its first select, and a `Publish` waiting at its second select
with its request in the channel and no answer. -/
theorem call_waits_only_at_second_select_cases :
    let req : PushRequest Unit := ⟨(), 0, some 0, 1, 0⟩
    let tryCall : Producer Unit := { newProducer true none with phase := .selecting .tryPublish req }
    let closedCall : Producer Unit :=
      { newProducer true none with phase := .selecting .publish req, done := true }
    let waitingCall : Producer Unit :=
      { newProducer true none with phase := .waiting .publish req, sent := [req] }
    let s₁ : Sys Unit := { Sys.init 1 with producers := [tryCall], nextResp := 1 }
    let s₂ : Sys Unit := { Sys.init 1 with producers := [closedCall], nextResp := 1 }
    let s₃ : Sys Unit :=
      { Sys.init 1 with producers := [waitingCall], pushChan := [req], nextResp := 1 }
    (s₁.producers[0]? = some tryCall ∧ s₁.sendReady tryCall = true ∧ CallProgress s₁ 0 tryCall) ∧
    (s₂.producers[0]? = some closedCall ∧ closedCall.done = true ∧
      CallProgress s₂ 0 closedCall) ∧
    (s₃.producers[0]? = some waitingCall ∧ s₃.resps req.resp = none ∧ s₃.closing = false ∧
      CallProgress s₃ 0 waitingCall) :=
  ⟨⟨rfl, rfl, call_waits_only_at_second_select rfl⟩, ⟨rfl, rfl, call_waits_only_at_second_select rfl⟩,
    ⟨rfl, rfl, rfl, call_waits_only_at_second_select rfl⟩⟩

/-- A closed producer whose `TryPublish` took the send case while the broker
is not receiving. -/
def closedTryPublish : List (Act Unit) :=
  [.newProducer true none, .call 0 .tryPublish (), .selectSend 0, .close 0]

/-- A reachable state with a `TryPublish` of a closed producer that cannot
return without a step of the broker or queue closing. -/
theorem tryPublish_waits_after_close :
    ∃ s : Sys Unit, Reachable s ∧ ∃ pr req, s.producers[0]? = some pr ∧
      pr.phase = .waiting .tryPublish req ∧ pr.done = true ∧ ¬ ReturnsAlone s 0 := by
  have key : (run (Sys.init 1) closedTryPublish).map
      (fun s => (s.producers[0]?.map fun pr => (pr.phase, pr.done), s.resps 0, s.closing)) =
      some (some (.waiting .tryPublish ⟨(), 0, some 0, 1, 0⟩, true), none, false) := by
    decide
  obtain ⟨s, hs, hf⟩ := Reachable.of_run_map key
  simp only [Prod.mk.injEq] at hf
  obtain ⟨hpr, hr, hcl⟩ := hf
  obtain ⟨pr, hp, hph⟩ := Option.map_eq_some'.mp hpr
  simp only [Prod.mk.injEq] at hph
  exact ⟨s, hs, pr, _, hp, hph.1, hph.2, Stuck.not_returnsAlone ⟨⟨pr, hp, hph.1⟩, hr, hcl⟩⟩

/-- A call at its second select has sent, so its producer's events channel
was not nil. -/
theorem Reachable.waiting_events {s : Sys E} (hs : Reachable s) :
    ∀ (q : Nat) pr, s.producers[q]? = some pr →
      ∀ c req, pr.phase = .waiting c req → pr.events = true :=
  hs.producers (P := fun _ pr => ∀ c req, pr.phase = .waiting c req → pr.events = true)
    (fun _ _ _ _ _ h => by simp [newProducer] at h)
    (fun _ pr x hl ih c req hx => by
      cases hl with
      | send _ he => exact he
      | close => exact ih c req hx
      | _ => simp at hx)

/-- A producer step keeps a nil events channel nil, writes nothing and
publishes nothing. -/
theorem Local.silent {q : Nat} {pr x : Producer E} (hl : Local q pr x) (hev : pr.events = false)
    (hw : ∀ c req, pr.phase = .waiting c req → pr.events = true) :
    x.events = false ∧ x.sent = pr.sent ∧
      Producer.published x.returns = Producer.published pr.returns := by
  cases hl with
  | send _ he => simp [hev] at he
  | resp _ hph => simp [hw _ _ hph] at hev
  | fail _ => simp [Producer.published]
  | drop _ => simp [hev, Producer.published]
  | begin | close => exact ⟨hev, rfl, rfl⟩

theorem Moves.producers_length {s s' : Sys E} {a : Act E} (h : Moves s a s') :
    s.producers.length ≤ s'.producers.length := by
  cases h <;> simp [Sys.setProducer]

/-- Once a call returned `(0, false)` through `done` or `queueClosing` and set
`st.events` to nil, its producer never writes to the push channel again and
none of its later calls returns `(id, true)`, under every schedule. -/
theorem nil_events_stop_writes {p : Nat} {pr : Producer E} :
    ∀ {as : List (Act E)} {s s' : Sys E}, Reachable s → s.producers[p]? = some pr →
      pr.events = false → run s as = some s' →
      ∃ pr', s'.producers[p]? = some pr' ∧ pr'.events = false ∧ pr'.sent = pr.sent ∧
        Producer.published pr'.returns = Producer.published pr.returns
  | [], s, _, _, hp, hev, hrun => by cases hrun; exact ⟨pr, hp, hev, rfl, rfl⟩
  | a :: as, s, s', hs, hp, hev, hrun => by
    obtain ⟨s₁, h₁, hrun⟩ := Option.bind_eq_some.mp hrun
    have hm := moves_of_step h₁
    have hlt : p < s₁.producers.length :=
      Nat.lt_of_lt_of_le (List.getElem?_eq_some_iff.mp hp).1 hm.producers_length
    obtain ⟨pr₁, hp₁, hsilent⟩ : ∃ pr₁, s₁.producers[p]? = some pr₁ ∧
        pr₁.events = false ∧ pr₁.sent = pr.sent ∧
          Producer.published pr₁.returns = Producer.published pr.returns := by
      refine ⟨_, List.getElem?_eq_getElem hlt, ?_⟩
      rcases hm.producer (List.getElem?_eq_getElem hlt) with h | ⟨pr₀, h, hl⟩ | ⟨h, -⟩
      · cases hp.symm.trans h; exact ⟨hev, rfl, rfl⟩
      · cases hp.symm.trans h; exact hl.silent hev (hs.waiting_events p pr hp)
      · simp [hp] at h
    obtain ⟨pr', hp', hev', hsent, hpub⟩ := nil_events_stop_writes (hs.step a h₁) hp₁ hsilent.1 hrun
    exact ⟨pr', hp', hev', hsent.trans hsilent.2.1, hpub.trans hsilent.2.2⟩

/-- A `Publish` that found the queue closing at its first select: the
producer's events channel is now nil. -/
def closedPublish : List (Act Unit) :=
  [.newProducer true none, .closeQueue, .call 0 .publish (), .selectClosing 0]

theorem nil_events_stop_writes_closed :
    ∃ s : Sys Unit, Reachable s ∧ ∃ pr, s.producers[0]? = some pr ∧ pr.events = false ∧
      ∀ (as : List (Act Unit)) s', run s as = some s' →
        ∃ pr', s'.producers[0]? = some pr' ∧ pr'.events = false ∧ pr'.sent = pr.sent ∧
          Producer.published pr'.returns = Producer.published pr.returns := by
  have key : (run (Sys.init 1) closedPublish).map (fun s => s.producers[0]?.map (·.events)) =
      some (some false) := rfl
  obtain ⟨s, hs, hf⟩ := Reachable.of_run_map key
  obtain ⟨pr, hp, hev⟩ := Option.map_eq_some'.mp hf
  exact ⟨s, hs, pr, hp, hev, fun _ _ hrun => nil_events_stop_writes hs hp hev hrun⟩

end Libbeat.Memqueue
