import Libbeat.Diskqueue.NewQueue

/-!
# Reconciling the position with the segments

What `NewQueue`'s reconciliation guarantees for every restored position and
every sorted list of scanned segments: the segments are split, in order, into
those older than the position (`acked`) and the rest (`reading`); the position
never moves back, lands on the first remaining segment when there is one, and
has a zero byte offset whenever its frame index is zero.

When no scanned segment is at or past the position, `reading` is empty and the
restored position is kept as it is, offset included, while `nextSegmentID`
only looks at the scanned segments. The first segment this session creates
can then have an ID below the position, and the restored offset is applied to
it (`newQueue_position_past_segments`).
-/

namespace Libbeat.Diskqueue

theorem id_lt_iff (a b : SegmentID) : a < b ↔ a.toNat < b.toNat := Iff.rfl

theorem id_le_iff (a b : SegmentID) : a ≤ b ↔ a.toNat ≤ b.toNat := Iff.rfl

@[simp] theorem resetByteIndex_segmentID (pos : QueuePosition) :
    (resetByteIndex pos).segmentID = pos.segmentID := by
  unfold resetByteIndex; split <;> rfl

theorem resetByteIndex_byteIndex (pos : QueuePosition) :
    (resetByteIndex pos).frameIndex = 0 → (resetByteIndex pos).byteIndex = 0 := by
  unfold resetByteIndex; split <;> simp_all

/-- The loop's two lists are, in order, its acked list and its input. -/
theorem ackOlder_append (r : SegmentID) (acked segs : List QueueSegment) :
    (ackOlder r acked segs).1 ++ (ackOlder r acked segs).2 = acked ++ segs := by
  induction segs generalizing acked with
  | nil => rfl
  | cons s rest ih =>
    simp only [ackOlder]
    split
    · simp [ih]
    · rfl

theorem ackOlder_acked (r : SegmentID) (acked segs : List QueueSegment) :
    ∀ a ∈ (ackOlder r acked segs).1, a ∈ acked ∨ a.id < r := by
  induction segs generalizing acked with
  | nil => exact fun a ha => .inl ha
  | cons s rest ih =>
    simp only [ackOlder]
    split
    next hs =>
      intro a ha
      rcases ih _ a ha with h | h
      · rcases List.mem_append.mp h with h | h
        · exact .inl h
        · exact .inr (List.mem_singleton.mp h ▸ hs)
      · exact .inr h
    next => exact fun a ha => .inl ha

theorem ackOlder_suffix (r : SegmentID) (acked segs : List QueueSegment) :
    (ackOlder r acked segs).2 <:+ segs := by
  induction segs generalizing acked with
  | nil => exact List.suffix_refl _
  | cons s rest ih =>
    simp only [ackOlder]
    split
    · exact (ih _).trans (List.suffix_cons s rest)
    · exact List.suffix_refl _

/-- The loop stops at the first segment not older than `r`. -/
theorem ackOlder_head (r : SegmentID) (acked segs : List QueueSegment) {b : QueueSegment}
    {rest : List QueueSegment} (h : (ackOlder r acked segs).2 = b :: rest) : r ≤ b.id := by
  induction segs generalizing acked with
  | nil => cases h
  | cons s rest' ih =>
    simp only [ackOlder] at h
    split at h
    · exact ih _ h
    · cases h; exact UInt64.not_lt.mp ‹_›

/-- Every segment of a sorted suffix starting at or past `r` is at or past `r`. -/
theorem ackOlder_reading (r : SegmentID) (acked : List QueueSegment) {segs : List QueueSegment}
    (hs : segs.Sorted (·.id < ·.id)) : ∀ b ∈ (ackOlder r acked segs).2, r ≤ b.id := by
  have hsorted := hs.sublist (ackOlder_suffix r acked segs).sublist
  generalize hrd : (ackOlder r acked segs).2 = reading at hsorted
  intro b hb
  cases reading with
  | nil => cases hb
  | cons first rest =>
    have hfirst := ackOlder_head r acked segs hrd
    rcases List.mem_cons.mp hb with rfl | hb
    · exact hfirst
    · have := (List.sorted_cons.mp hsorted).1 b hb
      rw [id_le_iff] at hfirst ⊢; rw [id_lt_iff] at this; omega

/-- The position after the advance: kept, or the start of the first segment
when that one is newer. -/
theorem advance_cases (pos : QueuePosition) (r : SegmentID) (reading : List QueueSegment) :
    advance pos r reading = pos ∨ ∃ first rest, reading = first :: rest ∧ r < first.id ∧
      advance pos r reading = { segmentID := first.id, frameIndex := 0, byteIndex := 0 } := by
  cases reading with
  | nil => exact .inl rfl
  | cons first rest =>
    simp only [advance]
    split
    next h => exact .inr ⟨first, rest, rfl, h, rfl⟩
    next => exact .inl rfl

@[simp] theorem startup_nextReadPosition (p : QueuePosition) (segs : List QueueSegment) :
    (startup p segs).segments.nextReadPosition = (startup p segs).ackPosition.byteIndex := rfl

/-- With segments left to read, the position lands on the first of them: kept
when it is already there, its start otherwise. -/
theorem startup_ackPosition_head (p : QueuePosition) (segs : List QueueSegment)
    {first : QueueSegment} {rest : List QueueSegment}
    (hrd : (startup p segs).segments.reading = first :: rest) :
    (startup p segs).ackPosition.segmentID = first.id ∧
    (startup p segs).ackPosition = if first.id = p.segmentID then resetByteIndex p
      else { segmentID := first.id, frameIndex := 0, byteIndex := 0 } := by
  simp only [startup, resetByteIndex_segmentID] at hrd ⊢
  have hle := ackOlder_head _ _ _ hrd
  rw [hrd]
  by_cases hlt : p.segmentID < first.id
  · simp [advance, hlt, (UInt64.ne_of_lt hlt).symm]
  · have heq : first.id = p.segmentID := by
      rw [id_le_iff] at hle; rw [id_lt_iff] at hlt
      exact UInt64.toNat.inj (by omega)
    simp [advance, hlt, heq]

theorem startup_byteIndex (p : QueuePosition) (segs : List QueueSegment) :
    (startup p segs).ackPosition.frameIndex = 0 → (startup p segs).ackPosition.byteIndex = 0 := by
  simp only [startup, resetByteIndex_segmentID]
  rcases advance_cases (resetByteIndex p) p.segmentID
      (ackOlder p.segmentID [] segs).2 with h | ⟨_, _, _, _, h⟩
  · rw [h]; exact resetByteIndex_byteIndex p
  · rw [h]; exact fun _ => rfl

/-- The reconciled state for a sorted list of segments. -/
theorem startup_reconciles (p : QueuePosition) {segs : List QueueSegment}
    (hsorted : segs.Sorted (·.id < ·.id)) :
    (startup p segs).segments.acked ++ (startup p segs).segments.reading = segs ∧
    (∀ a ∈ (startup p segs).segments.acked, a.id < p.segmentID) ∧
    (∀ b ∈ (startup p segs).segments.reading, p.segmentID ≤ b.id) ∧
    p.segmentID ≤ (startup p segs).ackPosition.segmentID ∧
    (∀ first rest, (startup p segs).segments.reading = first :: rest →
      (startup p segs).ackPosition.segmentID = first.id ∧
      (startup p segs).ackPosition = if first.id = p.segmentID then resetByteIndex p
        else { segmentID := first.id, frameIndex := 0, byteIndex := 0 }) ∧
    ((startup p segs).ackPosition.frameIndex = 0 → (startup p segs).ackPosition.byteIndex = 0) := by
  have hacked := ackOlder_acked p.segmentID [] segs
  have hread := ackOlder_reading p.segmentID [] hsorted
  refine ⟨by simpa [startup] using ackOlder_append _ _ _,
    fun a ha => (hacked a (by simpa [startup] using ha)).resolve_left nofun,
    fun b hb => hread b (by simpa [startup] using hb), ?_,
    fun _ _ => startup_ackPosition_head p segs, startup_byteIndex p segs⟩
  simp only [startup, resetByteIndex_segmentID]
  rcases advance_cases (resetByteIndex p) p.segmentID (ackOlder p.segmentID [] segs).2 with
    h | ⟨first, rest, -, hlt, h⟩
  · simp [h]
  · rw [h, id_le_iff]; rw [id_lt_iff] at hlt; exact Nat.le_of_lt hlt

/-- For every restored position and every sorted list of scanned segments,
the startup state of `NewQueue` splits the segments in order into `acked`,
older than the position, and `reading`, at or past it; the position never
moves back, lands on the first segment of `reading` when there is one, and has
a zero byte offset whenever its frame index is zero. -/
theorem newQueue_reconciles {settings : Settings} {env : Startup} {segs : List QueueSegment}
    {dq : DiskQueue} (hscan : env.scan = .ok segs) (hsorted : segs.Sorted (·.id < ·.id))
    (hok : newQueue settings env = .ok dq) :
    dq.segments.acked ++ dq.segments.reading = segs ∧
    (∀ a ∈ dq.segments.acked, a.id < env.position.segmentID) ∧
    (∀ b ∈ dq.segments.reading, env.position.segmentID ≤ b.id) ∧
    env.position.segmentID ≤ dq.ackPosition.segmentID ∧
    (∀ first rest, dq.segments.reading = first :: rest →
      dq.ackPosition.segmentID = first.id ∧
      dq.ackPosition = if first.id = env.position.segmentID then resetByteIndex env.position
        else { segmentID := first.id, frameIndex := 0, byteIndex := 0 }) ∧
    (dq.ackPosition.frameIndex = 0 → dq.ackPosition.byteIndex = 0) := by
  obtain ⟨-, -, -, segs', hscan', rfl⟩ := newQueue_eq_ok.mp hok
  cases hscan.symm.trans hscan'
  exact startup_reconciles env.position hsorted

theorem newQueue_reconciles_mid_segment :
    let env : Startup := ⟨none, ⟨1, 2, 30⟩, none, .ok [⟨0⟩, ⟨1⟩, ⟨3⟩]⟩
    let dq : DiskQueue := ⟨⟨[⟨1⟩, ⟨3⟩], [⟨0⟩], 4, 30⟩, ⟨1, 2, 30⟩⟩
    env.scan = .ok [⟨0⟩, ⟨1⟩, ⟨3⟩] ∧ [(⟨0⟩ : QueueSegment), ⟨1⟩, ⟨3⟩].Sorted (·.id < ·.id) ∧
      newQueue ⟨0, 0⟩ env = .ok dq ∧
      dq.segments.acked ++ dq.segments.reading = [⟨0⟩, ⟨1⟩, ⟨3⟩] ∧
      (∀ a ∈ dq.segments.acked, a.id < env.position.segmentID) ∧
      (∀ b ∈ dq.segments.reading, env.position.segmentID ≤ b.id) ∧
      env.position.segmentID ≤ dq.ackPosition.segmentID ∧
      (∀ first rest, dq.segments.reading = first :: rest →
        dq.ackPosition.segmentID = first.id ∧
        dq.ackPosition = if first.id = env.position.segmentID then resetByteIndex env.position
          else { segmentID := first.id, frameIndex := 0, byteIndex := 0 }) ∧
      (dq.ackPosition.frameIndex = 0 → dq.ackPosition.byteIndex = 0) :=
  have hsorted : [(⟨0⟩ : QueueSegment), ⟨1⟩, ⟨3⟩].Sorted (·.id < ·.id) := by decide
  have hok : newQueue ⟨0, 0⟩ ⟨none, ⟨1, 2, 30⟩, none, .ok [⟨0⟩, ⟨1⟩, ⟨3⟩]⟩ =
      .ok ⟨⟨[⟨1⟩, ⟨3⟩], [⟨0⟩], 4, 30⟩, ⟨1, 2, 30⟩⟩ := rfl
  ⟨rfl, hsorted, hok, newQueue_reconciles rfl hsorted hok⟩

theorem resetByteIndex_of_zero {pos : QueuePosition} (h : pos.frameIndex = 0 → pos.byteIndex = 0) :
    resetByteIndex pos = pos := by
  unfold resetByteIndex
  split
  next h0 => cases pos; simp_all
  next => rfl

/-- Reconciling what a start reconciled, with its `acked` segments deleted,
changes nothing but `acked` and `nextID`. -/
theorem startup_restart (p : QueuePosition) (segs : List QueueSegment) :
    startup (startup p segs).ackPosition (startup p segs).segments.reading =
      { segments := { (startup p segs).segments with
          acked := [], nextID := nextSegmentID (startup p segs).segments.reading }
        ackPosition := (startup p segs).ackPosition } := by
  have hreset := resetByteIndex_of_zero (startup_byteIndex p segs)
  have hhead : ∀ first rest, (startup p segs).segments.reading = first :: rest →
      (startup p segs).ackPosition.segmentID = first.id :=
    fun _ _ h => (startup_ackPosition_head p segs h).1
  have hnext := startup_nextReadPosition p segs
  generalize startup p segs = dq at hreset hhead hnext ⊢
  cases hrd : dq.segments.reading with
  | nil => simp [startup, hreset, hnext, hrd, ackOlder, advance]
  | cons first rest =>
    have hlt : ¬ first.id < first.id := Nat.lt_irrefl _
    simp [startup, hreset, hnext, hrd, hhead _ _ hrd, ackOlder, hlt, advance]

/-- Restarting from the position a start reconciled, with the segments it
acked deleted, finds the same segments to read, nothing to delete, and the
same position and offset. -/
theorem newQueue_restart_stable {settings settings' : Settings} {env env' : Startup}
    {dq dq' : DiskQueue} (hok : newQueue settings env = .ok dq)
    (hpos : env'.position = dq.ackPosition) (hscan : env'.scan = .ok dq.segments.reading)
    (hok' : newQueue settings' env' = .ok dq') :
    dq'.segments.reading = dq.segments.reading ∧ dq'.segments.acked = [] ∧
      dq'.ackPosition = dq.ackPosition ∧
      dq'.segments.nextReadPosition = dq.segments.nextReadPosition := by
  obtain ⟨-, -, -, segs, -, rfl⟩ := newQueue_eq_ok.mp hok
  obtain ⟨-, -, -, segs', hscan', rfl⟩ := newQueue_eq_ok.mp hok'
  cases hscan.symm.trans hscan'
  rw [hpos, startup_restart]
  exact ⟨rfl, rfl, rfl, rfl⟩

theorem newQueue_restart_stable_mid_segment :
    let dq : DiskQueue := ⟨⟨[⟨1⟩, ⟨3⟩], [⟨0⟩], 4, 30⟩, ⟨1, 2, 30⟩⟩
    let env' : Startup := ⟨none, ⟨1, 2, 30⟩, none, .ok [⟨1⟩, ⟨3⟩]⟩
    let dq' : DiskQueue := ⟨⟨[⟨1⟩, ⟨3⟩], [], 4, 30⟩, ⟨1, 2, 30⟩⟩
    newQueue ⟨0, 0⟩ ⟨none, ⟨1, 2, 30⟩, none, .ok [⟨0⟩, ⟨1⟩, ⟨3⟩]⟩ = .ok dq ∧
      env'.position = dq.ackPosition ∧ env'.scan = .ok dq.segments.reading ∧
      newQueue ⟨0, 0⟩ env' = .ok dq' ∧
      dq'.segments.reading = dq.segments.reading ∧ dq'.segments.acked = [] ∧
      dq'.ackPosition = dq.ackPosition ∧
      dq'.segments.nextReadPosition = dq.segments.nextReadPosition :=
  have hok : newQueue ⟨0, 0⟩ ⟨none, ⟨1, 2, 30⟩, none, .ok [⟨0⟩, ⟨1⟩, ⟨3⟩]⟩ =
      .ok ⟨⟨[⟨1⟩, ⟨3⟩], [⟨0⟩], 4, 30⟩, ⟨1, 2, 30⟩⟩ := rfl
  have hok' : newQueue ⟨0, 0⟩ ⟨none, ⟨1, 2, 30⟩, none, .ok [⟨1⟩, ⟨3⟩]⟩ =
      .ok ⟨⟨[⟨1⟩, ⟨3⟩], [], 4, 30⟩, ⟨1, 2, 30⟩⟩ := rfl
  ⟨hok, rfl, rfl, hok', newQueue_restart_stable hok rfl rfl hok'⟩

theorem id_add_one_toNat (a : SegmentID) (h : a.toNat + 1 < UInt64.size) :
    (a + 1).toNat = a.toNat + 1 := by
  show (a.toBitVec + BitVec.ofNat 64 1).toNat = _
  rw [BitVec.toNat_add, BitVec.toNat_ofNat]
  exact Nat.mod_eq_of_lt h

@[simp] theorem nextSegmentID_cons_cons (a b : QueueSegment) (l : List QueueSegment) :
    nextSegmentID (a :: b :: l) = nextSegmentID (b :: l) := by
  simp [nextSegmentID]

/-- Below the last 64-bit ID, `nextSegmentID` is past every sorted segment. -/
theorem nextSegmentID_gt {segs : List QueueSegment} (hsorted : segs.Sorted (·.id < ·.id))
    (hroom : ∀ b ∈ segs, b.id.toNat + 1 < UInt64.size) : ∀ b ∈ segs, b.id < nextSegmentID segs := by
  induction segs with
  | nil => nofun
  | cons a l ih =>
    have ih' := ih hsorted.of_cons fun b hb => hroom b (.tail _ hb)
    cases l with
    | nil =>
      intro b hb
      obtain rfl := List.mem_singleton.mp hb
      rw [id_lt_iff, nextSegmentID, List.getLast?_singleton, id_add_one_toNat _ (hroom b hb)]
      exact Nat.lt_succ_self _
    | cons c l =>
      rw [nextSegmentID_cons_cons]
      intro b hb
      rcases List.mem_cons.mp hb with rfl | hb
      · have hbc := (List.sorted_cons.mp hsorted).1 c (.head _)
        have hc := ih' c (.head _)
        rw [id_lt_iff] at hbc hc ⊢
        omega
      · exact ih' b hb

/-- When no scanned ID is the last 64-bit value, the next segment ID is past
every scanned segment, and past the reconciled position whenever segments are
left to read. -/
theorem newQueue_next_id_past_segments {settings : Settings} {env : Startup}
    {segs : List QueueSegment} {dq : DiskQueue} (hscan : env.scan = .ok segs)
    (hsorted : segs.Sorted (·.id < ·.id)) (hroom : ∀ b ∈ segs, b.id.toNat + 1 < UInt64.size)
    (hok : newQueue settings env = .ok dq) :
    (∀ b ∈ segs, b.id < dq.segments.nextID) ∧
    (dq.segments.reading ≠ [] → dq.ackPosition.segmentID < dq.segments.nextID) := by
  obtain ⟨-, -, -, segs', hscan', rfl⟩ := newQueue_eq_ok.mp hok
  cases hscan.symm.trans hscan'
  have hgt := nextSegmentID_gt hsorted hroom
  refine ⟨hgt, fun hne => ?_⟩
  obtain ⟨first, rest, hrd⟩ := List.exists_cons_of_ne_nil hne
  have hmem : first ∈ segs := (startup_reconciles env.position hsorted).1 ▸
    List.mem_append_right _ (hrd ▸ List.mem_cons_self first rest)
  rw [(startup_ackPosition_head env.position segs hrd).1]
  exact hgt first hmem

theorem newQueue_next_id_past_segments_mid_segment :
    let env : Startup := ⟨none, ⟨1, 2, 30⟩, none, .ok [⟨0⟩, ⟨1⟩, ⟨3⟩]⟩
    let dq : DiskQueue := ⟨⟨[⟨1⟩, ⟨3⟩], [⟨0⟩], 4, 30⟩, ⟨1, 2, 30⟩⟩
    env.scan = .ok [⟨0⟩, ⟨1⟩, ⟨3⟩] ∧ [(⟨0⟩ : QueueSegment), ⟨1⟩, ⟨3⟩].Sorted (·.id < ·.id) ∧
      (∀ b ∈ [(⟨0⟩ : QueueSegment), ⟨1⟩, ⟨3⟩], b.id.toNat + 1 < UInt64.size) ∧
      newQueue ⟨0, 0⟩ env = .ok dq ∧
      (∀ b ∈ [(⟨0⟩ : QueueSegment), ⟨1⟩, ⟨3⟩], b.id < dq.segments.nextID) ∧
      (dq.segments.reading ≠ [] → dq.ackPosition.segmentID < dq.segments.nextID) :=
  have hsorted : [(⟨0⟩ : QueueSegment), ⟨1⟩, ⟨3⟩].Sorted (·.id < ·.id) := by decide
  have hroom : ∀ b ∈ [(⟨0⟩ : QueueSegment), ⟨1⟩, ⟨3⟩], b.id.toNat + 1 < UInt64.size := by decide
  have hok : newQueue ⟨0, 0⟩ ⟨none, ⟨1, 2, 30⟩, none, .ok [⟨0⟩, ⟨1⟩, ⟨3⟩]⟩ =
      .ok ⟨⟨[⟨1⟩, ⟨3⟩], [⟨0⟩], 4, 30⟩, ⟨1, 2, 30⟩⟩ := rfl
  ⟨rfl, hsorted, hroom, hok, newQueue_next_id_past_segments rfl hsorted hroom hok⟩

/-- A position with no scanned segment at or past it keeps its offset, and
`nextSegmentID` restarts below it: the segment this session creates first
gets ID 0 and is read from byte 100. -/
theorem newQueue_position_past_segments :
    newQueue ⟨0, 0⟩ ⟨none, ⟨5, 3, 100⟩, none, .ok []⟩ = .ok ⟨⟨[], [], 0, 100⟩, ⟨5, 3, 100⟩⟩ ∧
    newQueue ⟨0, 0⟩ ⟨none, ⟨5, 3, 100⟩, none, .ok [⟨3⟩]⟩ =
      .ok ⟨⟨[], [⟨3⟩], 4, 100⟩, ⟨5, 3, 100⟩⟩ :=
  ⟨rfl, rfl⟩

/-- A state file at segment 5 with no segment files left gives `nextID = 0`;
the next start with the segment then created puts it in `acked`, to be deleted.
The last ID `2^64 - 1` also gives `nextID = 0`. -/
theorem newQueue_next_id_below_position :
    newQueue ⟨0, 0⟩ ⟨none, ⟨5, 0, 0⟩, none, .ok []⟩ = .ok ⟨⟨[], [], 0, 0⟩, ⟨5, 0, 0⟩⟩ ∧
    newQueue ⟨0, 0⟩ ⟨none, ⟨5, 0, 0⟩, none, .ok [⟨0⟩]⟩ = .ok ⟨⟨[], [⟨0⟩], 1, 0⟩, ⟨5, 0, 0⟩⟩ ∧
    nextSegmentID [⟨UInt64.ofNat (UInt64.size - 1)⟩] = 0 :=
  ⟨rfl, rfl, rfl⟩

end Libbeat.Diskqueue
