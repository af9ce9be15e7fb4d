import Mathlib.Data.List.Sort

/-!
# Disk queue startup

`NewQueue` (`diskqueue/queue.go`) checks the settings, creates the queue
directory, loads the last read position from the state file, opens the state
file for writing, scans the segment files and reconciles the two: segments
older than the position go to `acked`, to be deleted, and a position older
than every remaining segment moves to the start of the first one. The result
is the queue's `diskQueueSegments` and the position handed to
`newDiskQueueACKs`.

The file system calls are inputs here: `Startup` holds what each returned.
The metrics (`observer.Restore`, the count in the log line) and the helper
loops that `NewQueue` starts are left out; nothing below reads them.
-/

namespace Libbeat.Diskqueue

abbrev SegmentID := UInt64

/-- `queuePosition`: the next frame to read. -/
structure QueuePosition where
  segmentID : SegmentID
  frameIndex : UInt64
  byteIndex : UInt64
  deriving DecidableEq, Repr

/-- `queueSegment`, by the one field `NewQueue` reconciles on. -/
structure QueueSegment where
  id : SegmentID
  deriving DecidableEq, Repr

/-- The `Settings` fields `NewQueue` checks. -/
structure Settings where
  maxBufferSize : UInt64
  maxSegmentSize : UInt64
  deriving DecidableEq, Repr

/-- What `NewQueue`'s file system calls return: the errors of `os.MkdirAll`
and `os.OpenFile`, the position `queuePositionFromPath` returned (its error
is only logged), and `scanExistingSegments`. -/
structure Startup where
  mkdirAll : Option String
  position : QueuePosition
  openStateFile : Option String
  scan : Except String (List QueueSegment)

/-- `diskQueueSegments` as `NewQueue` fills it. -/
structure DiskQueueSegments where
  reading : List QueueSegment
  acked : List QueueSegment
  nextID : SegmentID
  nextReadPosition : UInt64
  deriving DecidableEq, Repr

/-- The startup state: the segments and the ACK tracker's position. -/
structure DiskQueue where
  segments : DiskQueueSegments
  ackPosition : QueuePosition
  deriving DecidableEq, Repr

/-- The errors `NewQueue` returns; `scan` passes `scanExistingSegments`'s on. -/
inductive NewQueueError where
  | bufferSize (maxBufferSize maxSegmentSize : UInt64)
  | directory (err : String)
  | stateFile (err : String)
  | scan (err : String)
  deriving DecidableEq, Repr

def NewQueueError.message : NewQueueError → String
  | .bufferSize b m =>
    s!"disk queue buffer size ({b}) must be at least twice the segment size ({m})"
  | .directory err => s!"couldn\x27t create disk queue directory: {err}"
  | .stateFile err => s!"couldn\x27t write to state file: {err}"
  | .scan err => err

/-- A state file from an older version may lack `frameIndex`: the offset
within the segment is then reset. -/
def resetByteIndex (pos : QueuePosition) : QueuePosition :=
  if pos.frameIndex = 0 then { pos with byteIndex := 0 } else pos

/-- `nextSegmentID`: the first ID after the existing segments, 0 if none. -/
def nextSegmentID (initialSegments : List QueueSegment) : SegmentID :=
  match initialSegments.getLast? with
  | some last => last.id + 1
  | none => 0

/-- The loop moving the segments older than `readSegmentID` to `acked`. -/
def ackOlder (readSegmentID : SegmentID) :
    List QueueSegment → List QueueSegment → List QueueSegment × List QueueSegment
  | acked, s :: rest =>
    if s.id < readSegmentID then ackOlder readSegmentID (acked ++ [s]) rest else (acked, s :: rest)
  | acked, [] => (acked, [])

/-- A position older than all remaining segments moves to the first one. -/
def advance (pos : QueuePosition) (readSegmentID : SegmentID) :
    List QueueSegment → QueuePosition
  | s :: _ => if readSegmentID < s.id then { segmentID := s.id, frameIndex := 0, byteIndex := 0 }
    else pos
  | [] => pos

/-- The reconciliation of `NewQueue`, from the loaded position on. -/
def startup (position : QueuePosition) (initialSegments : List QueueSegment) : DiskQueue :=
  let nextReadPosition := resetByteIndex position
  let readSegmentID := nextReadPosition.segmentID
  let split := ackOlder readSegmentID [] initialSegments
  let nextReadPosition := advance nextReadPosition readSegmentID split.2
  { segments :=
      { reading := split.2
        acked := split.1
        nextID := nextSegmentID initialSegments
        nextReadPosition := nextReadPosition.byteIndex }
    ackPosition := nextReadPosition }

def newQueue (settings : Settings) (env : Startup) : Except NewQueueError DiskQueue := do
  if 0 < settings.maxBufferSize ∧ settings.maxBufferSize < settings.maxSegmentSize * 2 then
    throw (.bufferSize settings.maxBufferSize settings.maxSegmentSize)
  if let some err := env.mkdirAll then throw (.directory err)
  if let some err := env.openStateFile then throw (.stateFile err)
  let initialSegments ← env.scan.mapError .scan
  pure (startup env.position initialSegments)

/-- `NewQueue` succeeds exactly when the settings pass and every file system
call succeeds, and then returns the reconciled startup state. -/
theorem newQueue_eq_ok {settings : Settings} {env : Startup} {dq : DiskQueue} :
    newQueue settings env = .ok dq ↔
      ¬ (0 < settings.maxBufferSize ∧ settings.maxBufferSize < settings.maxSegmentSize * 2) ∧
      env.mkdirAll = none ∧ env.openStateFile = none ∧
      ∃ segs, env.scan = .ok segs ∧ dq = startup env.position segs := by
  rcases env with ⟨mk, pos, op, scan⟩
  by_cases hb : 0 < settings.maxBufferSize ∧ settings.maxBufferSize < settings.maxSegmentSize * 2
  · simp [newQueue, hb, bind, Except.bind, throw, throwThe, MonadExceptOf.throw]
  · cases mk <;> cases op <;> cases scan <;>
      simp [newQueue, hb, bind, Except.bind, throw, throwThe, MonadExceptOf.throw, pure,
        Except.pure, Except.mapError, eq_comm]

/-- `NewQueue` fails at its first failing check, with that check's error. -/
theorem newQueue_eq_error {settings : Settings} {env : Startup} {e : NewQueueError} :
    newQueue settings env = .error e ↔
      (0 < settings.maxBufferSize ∧ settings.maxBufferSize < settings.maxSegmentSize * 2) ∧
        e = .bufferSize settings.maxBufferSize settings.maxSegmentSize ∨
      ¬ (0 < settings.maxBufferSize ∧ settings.maxBufferSize < settings.maxSegmentSize * 2) ∧
        ((∃ err, env.mkdirAll = some err ∧ e = .directory err) ∨
         env.mkdirAll = none ∧ ((∃ err, env.openStateFile = some err ∧ e = .stateFile err) ∨
         env.openStateFile = none ∧ ∃ err, env.scan = .error err ∧ e = .scan err)) := by
  rcases env with ⟨mk, pos, op, scan⟩
  by_cases hb : 0 < settings.maxBufferSize ∧ settings.maxBufferSize < settings.maxSegmentSize * 2
  · simp [newQueue, hb, bind, Except.bind, throw, throwThe, MonadExceptOf.throw, eq_comm]
  · cases mk <;> cases op <;> cases scan <;>
      simp [newQueue, hb, bind, Except.bind, throw, throwThe, MonadExceptOf.throw, pure,
        Except.pure, Except.mapError, eq_comm]

end Libbeat.Diskqueue
