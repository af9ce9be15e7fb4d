import Mathlib.Data.List.Basic

/-!
# Memory queue producers

The producer side of the memory queue (`memqueue/internal_api.go`). A producer
is an `ackProducer` when the client gave an ACK callback and a
`forgetfulProducer` otherwise; both wrap an `openState` holding the broker's
push channel, the producer's own `done` channel and the queue's closing
channel. `Publish` and `TryPublish` build a `pushRequest` with a fresh
one-slot response channel, apply the optional encoder and then run the two
nested selects of `openState.publish` / `openState.tryPublish`.

A call is split at its selects: `Phase.selecting` is the first select, with
the request built, and `Phase.waiting` the second one, after the request went
into the push channel. The two lists `sent` and `returns` are history: they
record what the producer wrote into the push channel and what each call
returned, and are read only by the statements.
-/

namespace Libbeat.Memqueue

/-- `queue.EntryID`: the broker's 64-bit index of an entry. -/
abbrev EntryID := UInt64

/-- `producerID`: the 64-bit index of an event within one producer. -/
abbrev ProducerID := UInt64

/-- A response channel `make(chan queue.EntryID, 1)`, named by allocation order. -/
abbrev RespChan := Nat

/-- `pushRequest`; `producer` is the index of the `ackProducer`, `none` for a
forgetful one. -/
structure PushRequest (E : Type) where
  event : E
  eventSize : Nat
  producer : Option Nat
  producerID : ProducerID
  resp : RespChan
  deriving DecidableEq, Repr

/-- Which producer method a call is. -/
inductive Call where
  | publish
  | tryPublish
  deriving DecidableEq, Repr

/-- Where a producer's goroutine is. -/
inductive Phase (E : Type) where
  | idle
  | selecting (call : Call) (req : PushRequest E)
  | waiting (call : Call) (req : PushRequest E)
  deriving DecidableEq, Repr

/-- The call's request went into the push channel and the call waits. -/
def Phase.inFlight {E : Type} : Phase E → Bool
  | .waiting _ _ => true
  | _ => false

/-- An `ackProducer` (`ack`) or `forgetfulProducer` with its `openState`.
`events` is false once `st.events` was set to nil, `done` once `Close` ran. -/
structure Producer (E : Type) where
  ack : Bool
  producedCount : UInt64 := 0
  events : Bool := true
  done : Bool := false
  encoder : Option (E → E × Nat)
  phase : Phase E := .idle
  sent : List (PushRequest E) := []
  returns : List (PushRequest E × EntryID × Bool) := []

variable {E : Type}

/-- `newProducer`: an `ackProducer` exactly when an ACK callback is given. -/
def newProducer (ack : Bool) (encoder : Option (E → E × Nat)) : Producer E :=
  { ack, encoder }

namespace Producer

/-- `makePushRequest` of both producer kinds; `self` is the producer's index
and `resp` the freshly made response channel. The ACK producer adds 1 so that
the default `lastACK` of 0 is a valid initial state. -/
def makePushRequest (pr : Producer E) (self : Nat) (resp : RespChan) (event : E) :
    PushRequest E :=
  if pr.ack then
    { event, eventSize := 0, producer := some self, producerID := pr.producedCount + 1, resp }
  else { event, eventSize := 0, producer := none, producerID := 0, resp }

/-- The encoder step at the top of `openState.publish` and `tryPublish`. -/
def encode (pr : Producer E) (req : PushRequest E) : PushRequest E :=
  match pr.encoder with
  | some enc => { req with event := (enc req.event).1, eventSize := (enc req.event).2 }
  | none => req

/-- A call returns `(id, published)`; `ackProducer` counts a published event. -/
def finish (pr : Producer E) (req : PushRequest E) (id : EntryID) (published : Bool) :
    Producer E :=
  { pr with
    phase := .idle
    producedCount := if pr.ack && published then pr.producedCount + 1 else pr.producedCount
    returns := pr.returns ++ [(req, id, published)] }

/-- The failing branches `st.events = nil; return 0, false`. -/
def fail (pr : Producer E) (req : PushRequest E) : Producer E :=
  { pr.finish req 0 false with events := false }

/-- The returns `(req, id, true)` among `rs`: the calls that published. -/
def published (rs : List (PushRequest E × EntryID × Bool)) :
    List (PushRequest E × EntryID × Bool) :=
  rs.filter (·.2.2)

@[simp] theorem published_append (rs rs' : List (PushRequest E × EntryID × Bool)) :
    published (rs ++ rs') = published rs ++ published rs' := List.filter_append ..

@[simp] theorem published_singleton (req : PushRequest E) (id : EntryID) (b : Bool) :
    published [(req, id, b)] = if b then [(req, id, b)] else [] := by
  cases b <;> rfl

@[simp] theorem makePushRequest_resp (pr : Producer E) (self : Nat) (resp : RespChan) (e : E) :
    (pr.makePushRequest self resp e).resp = resp := by
  unfold makePushRequest; split <;> rfl

@[simp] theorem makePushRequest_producer (pr : Producer E) (self : Nat) (resp : RespChan)
    (e : E) : (pr.makePushRequest self resp e).producer = if pr.ack then some self else none := by
  unfold makePushRequest; split <;> simp_all

theorem makePushRequest_producerID (pr : Producer E) (self : Nat) (resp : RespChan) (e : E)
    (h : pr.ack = true) : (pr.makePushRequest self resp e).producerID = pr.producedCount + 1 := by
  simp [makePushRequest, h]

@[simp] theorem encode_resp (pr : Producer E) (req : PushRequest E) :
    (pr.encode req).resp = req.resp := by
  unfold encode; split <;> rfl

@[simp] theorem encode_producer (pr : Producer E) (req : PushRequest E) :
    (pr.encode req).producer = req.producer := by
  unfold encode; split <;> rfl

@[simp] theorem encode_producerID (pr : Producer E) (req : PushRequest E) :
    (pr.encode req).producerID = req.producerID := by
  unfold encode; split <;> rfl

@[simp] theorem finish_phase (pr : Producer E) (req : PushRequest E) (id : EntryID) (b : Bool) :
    (pr.finish req id b).phase = .idle := rfl

@[simp] theorem finish_events (pr : Producer E) (req : PushRequest E) (id : EntryID) (b : Bool) :
    (pr.finish req id b).events = pr.events := rfl

@[simp] theorem finish_ack (pr : Producer E) (req : PushRequest E) (id : EntryID) (b : Bool) :
    (pr.finish req id b).ack = pr.ack := rfl

@[simp] theorem finish_sent (pr : Producer E) (req : PushRequest E) (id : EntryID) (b : Bool) :
    (pr.finish req id b).sent = pr.sent := rfl

@[simp] theorem finish_done (pr : Producer E) (req : PushRequest E) (id : EntryID) (b : Bool) :
    (pr.finish req id b).done = pr.done := rfl

@[simp] theorem finish_returns (pr : Producer E) (req : PushRequest E) (id : EntryID) (b : Bool) :
    (pr.finish req id b).returns = pr.returns ++ [(req, id, b)] := rfl

@[simp] theorem finish_producedCount (pr : Producer E) (req : PushRequest E) (id : EntryID)
    (b : Bool) : (pr.finish req id b).producedCount =
      if pr.ack && b then pr.producedCount + 1 else pr.producedCount := rfl

@[simp] theorem fail_phase (pr : Producer E) (req : PushRequest E) : (pr.fail req).phase = .idle :=
  rfl

@[simp] theorem fail_events (pr : Producer E) (req : PushRequest E) : (pr.fail req).events = false :=
  rfl

@[simp] theorem fail_ack (pr : Producer E) (req : PushRequest E) : (pr.fail req).ack = pr.ack := rfl

@[simp] theorem fail_sent (pr : Producer E) (req : PushRequest E) : (pr.fail req).sent = pr.sent :=
  rfl

@[simp] theorem fail_done (pr : Producer E) (req : PushRequest E) : (pr.fail req).done = pr.done :=
  rfl

@[simp] theorem fail_returns (pr : Producer E) (req : PushRequest E) :
    (pr.fail req).returns = pr.returns ++ [(req, 0, false)] := rfl

@[simp] theorem fail_producedCount (pr : Producer E) (req : PushRequest E) :
    (pr.fail req).producedCount = pr.producedCount := by
  simp [fail]

end Producer

end Libbeat.Memqueue
