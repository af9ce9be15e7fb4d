import Libbeat.Memqueue.Producer
import Mathlib.Logic.Function.Basic

/-!
# Producers and the broker, interleaved

The shared state of the memory queue as the producers see it: the broker's
buffered `pushChan` of capacity `chanSize`, its `closingChan`, the response
channels, and every producer. The broker's run loop is not among the sources;
it is modelled from the spec as the most permissive party that answers push
requests: at any moment it may take the oldest request from `pushChan`, insert
it under the next `EntryID` and answer on the request's response channel, all
in one step, or do nothing for as long as it likes. Once `closingChan` is
closed it takes no further requests. Every safety result proved of this
broker holds of the spec's, whose ring of `events` entries only removes
behaviours (`Ring`); progress is proved of `Ring`.

An `Act` is one step of one goroutine, with the scheduler's choice written
in it: which case a `select` takes among its ready cases. `step` is a partial
function, `none` when the chosen case is not ready. `Moves` lists what each
step does, and `step_iff_moves` ties the two together; all invariants are
proved by cases on `Moves`.
-/

namespace Libbeat.Memqueue

/-- The queue as the producers see it. `entries` are the requests the broker
inserted, in `EntryID` order; `nextResp` names the next response channel. -/
structure Sys (E : Type) where
  chanSize : Nat
  pushChan : List (PushRequest E) := []
  closing : Bool := false
  nextEntryID : EntryID := 0
  entries : List (PushRequest E) := []
  resps : RespChan → Option EntryID := fun _ => none
  nextResp : RespChan := 0
  producers : List (Producer E) := []

/-- One step of one goroutine. `selectX p` is producer `p`'s current `select`
taking case `X`: `Send` is `st.events <- req`, `Done` is `<-st.done`,
`Closing` is `<-st.queueClosing`, `Default` is `TryPublish`'s `default`, and
`Resp` is `<-req.resp`. -/
inductive Act (E : Type) where
  | newProducer (ack : Bool) (encoder : Option (E → E × Nat))
  | call (p : Nat) (call : Call) (event : E)
  | selectSend (p : Nat)
  | selectDone (p : Nat)
  | selectClosing (p : Nat)
  | selectDefault (p : Nat)
  | selectResp (p : Nat)
  | close (p : Nat)
  | push
  | closeQueue

variable {E : Type}

namespace Sys

def init (chanSize : Nat) : Sys E := { chanSize }

def setProducer (s : Sys E) (p : Nat) (pr : Producer E) : Sys E :=
  { s with producers := s.producers.set p pr }

/-- `st.events <- req` is ready: the channel is not nil and has room. -/
def sendReady (s : Sys E) (pr : Producer E) : Bool :=
  pr.events && decide (s.pushChan.length < s.chanSize)

/-- `Publish` / `TryPublish`: `makePushRequest` on a new response channel,
then the encoder, then the first `select`. -/
def begin (s : Sys E) (p : Nat) (c : Call) (event : E) (pr : Producer E) : Option (Sys E) :=
  match pr.phase with
  | .idle =>
    let req := pr.encode (pr.makePushRequest p s.nextResp event)
    some { s.setProducer p { pr with phase := .selecting c req } with nextResp := s.nextResp + 1 }
  | _ => none

def sendCase (s : Sys E) (p : Nat) (pr : Producer E) : Option (Sys E) :=
  match pr.phase with
  | .selecting c req =>
    if s.sendReady pr then
      some { s.setProducer p { pr with phase := .waiting c req, sent := pr.sent ++ [req] } with
        pushChan := s.pushChan ++ [req] }
    else none
  | _ => none

def doneCase (s : Sys E) (p : Nat) (pr : Producer E) : Option (Sys E) :=
  match pr.phase with
  | .selecting _ req => if pr.done then some (s.setProducer p (pr.fail req)) else none
  | _ => none

/-- `<-st.queueClosing`: a case of `publish`'s first select and of both second
selects, not of `tryPublish`'s first one. -/
def closingCase (s : Sys E) (p : Nat) (pr : Producer E) : Option (Sys E) :=
  match pr.phase with
  | .selecting .publish req | .waiting _ req =>
    if s.closing then some (s.setProducer p (pr.fail req)) else none
  | _ => none

/-- `default` runs only when no case of `tryPublish`'s first select is ready. -/
def defaultCase (s : Sys E) (p : Nat) (pr : Producer E) : Option (Sys E) :=
  match pr.phase with
  | .selecting .tryPublish req =>
    if !s.sendReady pr && !pr.done then some (s.setProducer p (pr.finish req 0 false)) else none
  | _ => none

/-- `resp := <-req.resp` is ready exactly when the channel holds a value. -/
def respCase (s : Sys E) (p : Nat) (pr : Producer E) : Option (Sys E) :=
  match pr.phase with
  | .waiting _ req =>
    (s.resps req.resp).map fun id =>
      { s.setProducer p (pr.finish req id true) with
        resps := Function.update s.resps req.resp none }
  | _ => none

/-- `openState.Close`: `close(st.done)`, which panics on a closed channel. -/
def closeProducer (s : Sys E) (p : Nat) (pr : Producer E) : Option (Sys E) :=
  if pr.done then none else some (s.setProducer p { pr with done := true })

/-- Modelled from the spec: the broker takes the oldest push request, inserts
it under the next `EntryID` and answers on its response channel. This broker
has no capacity bound, the most permissive one; `Ring` adds the spec's ring
of `events` entries. -/
def brokerPush (s : Sys E) : Option (Sys E) :=
  match s.pushChan with
  | req :: rest =>
    if s.closing then none
    else some { s with
      pushChan := rest
      entries := s.entries ++ [req]
      resps := Function.update s.resps req.resp (some s.nextEntryID)
      nextEntryID := s.nextEntryID + 1 }
  | [] => none

/-- Modelled from the spec: the queue's `Close` closes `closingChan` once. -/
def closeQueue (s : Sys E) : Option (Sys E) :=
  if s.closing then none else some { s with closing := true }

end Sys

open Sys in
def step (s : Sys E) : Act E → Option (Sys E)
  | .newProducer ack encoder => some { s with producers := s.producers ++ [newProducer ack encoder] }
  | .call p c event => s.producers[p]?.bind (s.begin p c event)
  | .selectSend p => s.producers[p]?.bind (s.sendCase p)
  | .selectDone p => s.producers[p]?.bind (s.doneCase p)
  | .selectClosing p => s.producers[p]?.bind (s.closingCase p)
  | .selectDefault p => s.producers[p]?.bind (s.defaultCase p)
  | .selectResp p => s.producers[p]?.bind (s.respCase p)
  | .close p => s.producers[p]?.bind (s.closeProducer p)
  | .push => s.brokerPush
  | .closeQueue => s.closeQueue

/-- What one step does, case by case: `step_iff_moves` shows that a step does
this and nothing else. -/
inductive Moves : Sys E → Act E → Sys E → Prop
  | newProducer (s : Sys E) (ack : Bool) (encoder : Option (E → E × Nat)) :
      Moves s (.newProducer ack encoder)
        { s with producers := s.producers ++ [newProducer ack encoder] }
  | begin {s : Sys E} {p : Nat} {pr : Producer E} (c : Call) (event : E) :
      s.producers[p]? = some pr → pr.phase = .idle →
      Moves s (.call p c event)
        { s.setProducer p
            { pr with phase := .selecting c (pr.encode (pr.makePushRequest p s.nextResp event)) } with
          nextResp := s.nextResp + 1 }
  | send {s : Sys E} {p : Nat} {pr : Producer E} {c : Call} {req : PushRequest E} :
      s.producers[p]? = some pr → pr.phase = .selecting c req → s.sendReady pr = true →
      Moves s (.selectSend p)
        { s.setProducer p { pr with phase := .waiting c req, sent := pr.sent ++ [req] } with
          pushChan := s.pushChan ++ [req] }
  | done {s : Sys E} {p : Nat} {pr : Producer E} {c : Call} {req : PushRequest E} :
      s.producers[p]? = some pr → pr.phase = .selecting c req → pr.done = true →
      Moves s (.selectDone p) (s.setProducer p (pr.fail req))
  | closing {s : Sys E} {p : Nat} {pr : Producer E} {req : PushRequest E} :
      s.producers[p]? = some pr → pr.phase = .selecting .publish req → s.closing = true →
      Moves s (.selectClosing p) (s.setProducer p (pr.fail req))
  | closingWait {s : Sys E} {p : Nat} {pr : Producer E} {c : Call} {req : PushRequest E} :
      s.producers[p]? = some pr → pr.phase = .waiting c req → s.closing = true →
      Moves s (.selectClosing p) (s.setProducer p (pr.fail req))
  | drop {s : Sys E} {p : Nat} {pr : Producer E} {req : PushRequest E} :
      s.producers[p]? = some pr → pr.phase = .selecting .tryPublish req →
      s.sendReady pr = false → pr.done = false →
      Moves s (.selectDefault p) (s.setProducer p (pr.finish req 0 false))
  | resp {s : Sys E} {p : Nat} {pr : Producer E} {c : Call} {req : PushRequest E} {id : EntryID} :
      s.producers[p]? = some pr → pr.phase = .waiting c req → s.resps req.resp = some id →
      Moves s (.selectResp p)
        { s.setProducer p (pr.finish req id true) with
          resps := Function.update s.resps req.resp none }
  | close {s : Sys E} {p : Nat} {pr : Producer E} :
      s.producers[p]? = some pr → pr.done = false →
      Moves s (.close p) (s.setProducer p { pr with done := true })
  | push {s : Sys E} {req : PushRequest E} {rest : List (PushRequest E)} :
      s.pushChan = req :: rest → s.closing = false →
      Moves s .push
        { s with
          pushChan := rest
          entries := s.entries ++ [req]
          resps := Function.update s.resps req.resp (some s.nextEntryID)
          nextEntryID := s.nextEntryID + 1 }
  | closeQueue {s : Sys E} : s.closing = false → Moves s .closeQueue { s with closing := true }

theorem moves_of_step {s s' : Sys E} {a : Act E} (h : step s a = some s') : Moves s a s' := by
  cases a with
  | newProducer ack enc => cases h; exact .newProducer s ack enc
  | push =>
    simp only [step, Sys.brokerPush] at h
    split at h
    next hc =>
      split at h
      next => cases h
      next hcl => cases h; exact .push hc (by simpa using hcl)
    next => cases h
  | closeQueue =>
    simp only [step, Sys.closeQueue] at h
    split at h
    next => cases h
    next hc => cases h; exact .closeQueue (by simpa using hc)
  | call p c e =>
    obtain ⟨pr, hp, h⟩ := Option.bind_eq_some.mp h
    unfold Sys.begin at h
    split at h
    next hph => cases h; exact .begin c e hp hph
    next => cases h
  | selectSend p =>
    obtain ⟨pr, hp, h⟩ := Option.bind_eq_some.mp h
    unfold Sys.sendCase at h
    split at h
    next hph => split at h <;> cases h; exact .send hp hph ‹_›
    next => cases h
  | selectDone p =>
    obtain ⟨pr, hp, h⟩ := Option.bind_eq_some.mp h
    unfold Sys.doneCase at h
    split at h
    next hph => split at h <;> cases h; exact .done hp hph ‹_›
    next => cases h
  | selectClosing p =>
    obtain ⟨pr, hp, h⟩ := Option.bind_eq_some.mp h
    unfold Sys.closingCase at h
    split at h
    next hph => split at h <;> cases h; exact .closing hp hph ‹_›
    next hph => split at h <;> cases h; exact .closingWait hp hph ‹_›
    next => cases h
  | selectDefault p =>
    obtain ⟨pr, hp, h⟩ := Option.bind_eq_some.mp h
    unfold Sys.defaultCase at h
    split at h
    next hph =>
      split at h
      next hr =>
        cases h
        simp only [Bool.and_eq_true, Bool.not_eq_true'] at hr
        exact .drop hp hph hr.1 hr.2
      next => cases h
    next => cases h
  | selectResp p =>
    obtain ⟨pr, hp, h⟩ := Option.bind_eq_some.mp h
    unfold Sys.respCase at h
    split at h
    next hph =>
      obtain ⟨id, hid, rfl⟩ := Option.map_eq_some'.mp h
      exact .resp hp hph hid
    next => cases h
  | close p =>
    obtain ⟨pr, hp, h⟩ := Option.bind_eq_some.mp h
    unfold Sys.closeProducer at h
    split at h
    next => cases h
    next hd => cases h; exact .close hp (by simpa using hd)

theorem step_of_moves {s s' : Sys E} {a : Act E} (h : Moves s a s') : step s a = some s' := by
  cases h <;> simp_all [step, Sys.begin, Sys.sendCase, Sys.doneCase, Sys.closingCase,
    Sys.defaultCase, Sys.respCase, Sys.closeProducer, Sys.brokerPush, Sys.closeQueue]

theorem step_iff_moves {s s' : Sys E} {a : Act E} : step s a = some s' ↔ Moves s a s' :=
  ⟨moves_of_step, step_of_moves⟩

/-- Run a schedule of steps in order. -/
def run (s : Sys E) : List (Act E) → Option (Sys E)
  | [] => some s
  | a :: as => (step s a).bind (run · as)

/-- The states reachable from an empty queue under some schedule. -/
inductive Reachable : Sys E → Prop
  | init (chanSize : Nat) : Reachable (Sys.init chanSize)
  | step {s s' : Sys E} (a : Act E) : Reachable s → step s a = some s' → Reachable s'

theorem Reachable.run {s s' : Sys E} (hs : Reachable s) :
    ∀ {as : List (Act E)}, Memqueue.run s as = some s' → Reachable s'
  | [], h => by cases h; exact hs
  | a :: as, h => by
    simp only [Memqueue.run, Option.bind_eq_some] at h
    obtain ⟨s₁, h₁, h⟩ := h
    exact (hs.step a h₁).run h

/-- What a schedule from the initial state shows of its end state holds of a
reachable state. -/
theorem Reachable.of_run_map {α : Type} {n : Nat} {as : List (Act E)} {f : Sys E → α} {v : α}
    (h : (Memqueue.run (Sys.init n) as).map f = some v) : ∃ s, Reachable s ∧ f s = v :=
  let ⟨s, hrun, hf⟩ := Option.map_eq_some'.mp h
  ⟨s, (Reachable.init n).run hrun, hf⟩

/-- A producer of the state a schedule reaches, with what the schedule shows of
the two. -/
theorem exists_run_producer {α : Type} {s₀ : Sys E} {as : List (Act E)} {q : Nat}
    {f : Sys E → Producer E → α} {v : α}
    (h : (Memqueue.run s₀ as).bind (fun s => s.producers[q]?.map (f s)) = some v) :
    ∃ s pr, Memqueue.run s₀ as = some s ∧ s.producers[q]? = some pr ∧ f s pr = v := by
  obtain ⟨s, hrun, hm⟩ := Option.bind_eq_some.mp h
  obtain ⟨pr, hp, hf⟩ := Option.map_eq_some'.mp hm
  exact ⟨s, pr, hrun, hp, hf⟩

@[simp] theorem run_nil (s : Sys E) : run s [] = some s := rfl

theorem run_append (s : Sys E) (as bs : List (Act E)) :
    run s (as ++ bs) = (run s as).bind (run · bs) := by
  induction as generalizing s with
  | nil => rfl
  | cons a as ih =>
    simp only [List.cons_append, run]
    cases step s a <;> simp [ih]

/-- What a step of producer `p` does to its own record: the producer's state
machine, with the guards that its record decides. -/
inductive Local (p : Nat) : Producer E → Producer E → Prop
  | begin {pr : Producer E} (c : Call) (event : E) (resp : RespChan) :
      pr.phase = .idle →
      Local p pr { pr with phase := .selecting c (pr.encode (pr.makePushRequest p resp event)) }
  | send {pr : Producer E} {c : Call} {req : PushRequest E} :
      pr.phase = .selecting c req → pr.events = true →
      Local p pr { pr with phase := .waiting c req, sent := pr.sent ++ [req] }
  | fail {pr : Producer E} {c : Call} {req : PushRequest E} :
      pr.phase = .selecting c req ∨ pr.phase = .waiting c req → Local p pr (pr.fail req)
  | drop {pr : Producer E} {req : PushRequest E} :
      pr.phase = .selecting .tryPublish req → Local p pr (pr.finish req 0 false)
  | resp {pr : Producer E} {c : Call} {req : PushRequest E} (id : EntryID) :
      pr.phase = .waiting c req → Local p pr (pr.finish req id true)
  | close {pr : Producer E} : Local p pr { pr with done := true }

theorem Local.ack {p : Nat} {pr x : Producer E} (h : Local p pr x) : x.ack = pr.ack := by
  cases h <;> rfl

/-- How the producer at `q` after a step relates to the one before. -/
def ProducerAfter (before : Option (Producer E)) (q : Nat) (x : Producer E) : Prop :=
  before = some x ∨ (∃ pr, before = some pr ∧ Local q pr x) ∨
    (before = none ∧ ∃ ack enc, x = newProducer ack enc)

theorem setProducer_after {s : Sys E} {p q : Nat} {pr y x : Producer E}
    (hp : s.producers[p]? = some pr) (hl : Local p pr y)
    (hq : (s.setProducer p y).producers[q]? = some x) : ProducerAfter s.producers[q]? q x := by
  simp only [Sys.setProducer, List.getElem?_set] at hq
  split at hq
  next hpq =>
    subst hpq
    have hlt : p < s.producers.length := (List.getElem?_eq_some_iff.mp hp).1
    simp only [hlt, if_true, Option.some.injEq] at hq
    exact .inr (.inl ⟨pr, hp, hq ▸ hl⟩)
  next => exact .inl hq

theorem Moves.producer {s s' : Sys E} {a : Act E} (h : Moves s a s') {q : Nat} {x : Producer E}
    (hq : s'.producers[q]? = some x) : ProducerAfter s.producers[q]? q x := by
  cases h with
  | newProducer ack enc =>
    rw [List.getElem?_append] at hq
    split at hq
    next => exact .inl hq
    next hlt =>
      have hnone : s.producers[q]? = none := List.getElem?_eq_none (by omega)
      rcases Nat.lt_or_ge (q - s.producers.length) 1 with h1 | h1
      · simp only [h1, List.getElem?_eq_getElem, List.length_singleton, Option.some.injEq] at hq
        exact .inr (.inr ⟨hnone, ack, enc, by simpa using hq.symm⟩)
      · rw [List.getElem?_eq_none_iff.mpr (by simpa using h1)] at hq; cases hq
  | begin c e hp hph => exact setProducer_after hp (.begin c e _ hph) hq
  | send hp hph hr =>
    simp only [Sys.sendReady, Bool.and_eq_true] at hr
    exact setProducer_after hp (.send hph hr.1) hq
  | done hp hph _ | closing hp hph _ => exact setProducer_after hp (.fail (.inl hph)) hq
  | closingWait hp hph _ => exact setProducer_after hp (.fail (.inr hph)) hq
  | drop hp hph _ _ => exact setProducer_after hp (.drop hph) hq
  | resp hp hph _ => exact setProducer_after hp (.resp _ hph) hq
  | close hp _ => exact setProducer_after hp .close hq
  | push _ _ | closeQueue _ => exact .inl hq

/-- A property of one producer that every new producer has and every step of
its own keeps holds of every producer of every reachable state. -/
theorem Reachable.producers {P : Nat → Producer E → Prop}
    (hnew : ∀ q ack enc, P q (newProducer ack enc)) (hlocal : ∀ q pr x, Local q pr x → P q pr → P q x)
    {s : Sys E} (hs : Reachable s) : ∀ q x, s.producers[q]? = some x → P q x := by
  induction hs with
  | init => simp [Sys.init]
  | step a _ hstep ih =>
    intro q x hq
    rcases (moves_of_step hstep).producer hq with h | ⟨pr, h, hl⟩ | ⟨_, ack, enc, rfl⟩
    · exact ih q x h
    · exact hlocal q pr x hl (ih q pr h)
    · exact hnew q ack enc

end Libbeat.Memqueue
