import Mathlib.Data.String.Basic
import Mathlib.Data.UInt

/-!
# Pointers into a render buffer

`offset` and `readString` of package `wineventlog`. `EvtRender` fills a buffer
with `EVT_VARIANT` values whose strings are pointers into the same buffer;
`offset` reads one pointer from a reader over the buffer (8 little-endian bytes
on `amd64`, 4 on `386`) and turns it into an offset from the buffer's start,
`readString` converts the UTF-16 bytes from that offset on.

The buffer's address is an input (`bufferPtr`, what `reflect` gives for
`&buffer[0]`), the offset is the `uint64` difference `dataPtr - bufferPtr`, and
`&buffer[0]` on an empty buffer is Go's index panic, here an error. The offset
accepted is never past the buffer's end, so `buffer[offset:]` never panics;
a pointer below the buffer is refused because the subtraction wraps. The
UTF-16 conversion, `common.UTF16ToUTF8Bytes`, is not in this repository and is
a parameter.
-/

namespace Libbeat.Wineventlog

/-- Why `binary.Read` of a fixed-size value fails on a short reader:
`io.ReadFull` gives `io.EOF` when no byte was left and `io.ErrUnexpectedEOF`
when some were. -/
inductive ReadError
  | eof
  | unexpectedEOF
  deriving DecidableEq, Repr

/-- `binary.Read(reader, binary.LittleEndian, &v)` for a value of `n > 0`
bytes: the little-endian value of the next `n` bytes and the rest of the
reader. -/
def readLittleEndian (n : Nat) (reader : List UInt8) : Except ReadError (Nat × List UInt8) :=
  if reader = [] then .error .eof
  else if reader.length < n then .error .unexpectedEOF
  else .ok ((reader.take n).foldr (fun b acc => b.toNat + 256 * acc) 0, reader.drop n)

/-- The errors of `offset`. `indexOutOfRange` is the panic of `&buffer[0]` on
an empty buffer. -/
inductive OffsetError
  | unhandledArchitecture (goarch : String)
  | read (e : ReadError)
  | evtVarTypeNull
  | indexOutOfRange
  | invalidPointer (dataPtr bufferPtr bufferEnd : UInt64)
  deriving DecidableEq, Repr

def hexString (n : UInt64) : String :=
  String.mk (Nat.toDigits 16 n.toNat)

def OffsetError.message : OffsetError → String
  | .unhandledArchitecture goarch => "unhandled architecture: " ++ goarch
  | .read .eof => "EOF"
  | .read .unexpectedEOF => "unexpected EOF"
  | .evtVarTypeNull => "null EVT_VARIANT data"
  | .indexOutOfRange => "runtime error: index out of range [0] with length 0"
  | .invalidPointer dataPtr bufferPtr bufferEnd =>
    "invalid pointer " ++ hexString dataPtr ++ ": cannot dereference an " ++
      "address outside of the buffer [" ++ hexString bufferPtr ++ ":" ++
      hexString bufferEnd ++ "]"

/-- The pointer read by the `switch runtime.GOARCH` of `offset`. -/
def readPointer (goarch : String) (reader : List UInt8) :
    Except OffsetError (UInt64 × List UInt8) :=
  match goarch with
  | "amd64" =>
    match readLittleEndian 8 reader with
    | .ok (v, rest) => .ok (UInt64.ofNat v, rest)
    | .error e => .error (.read e)
  | "386" =>
    match readLittleEndian 4 reader with
    | .ok (v, rest) => .ok ((UInt32.ofNat v).toUInt64, rest)
    | .error e => .error (.read e)
  | _ => .error (.unhandledArchitecture goarch)

/-- Reads a pointer and returns its offset from the start of `buffer`, with
the rest of the reader. -/
def offset (goarch : String) (buffer : List UInt8) (bufferPtr : UInt64) (reader : List UInt8) :
    Except OffsetError (UInt64 × List UInt8) := do
  let (dataPtr, reader) ← readPointer goarch reader
  if dataPtr = 0 then throw .evtVarTypeNull
  if buffer = [] then throw .indexOutOfRange
  let offset := dataPtr - bufferPtr
  if offset > UInt64.ofNat buffer.length then
    throw (.invalidPointer dataPtr bufferPtr (bufferPtr + UInt64.ofNat buffer.length))
  pure (offset, reader)

/-- `offset` step by step, once the pointer is read. -/
theorem offset_eq {goarch : String} {buffer reader rest : List UInt8} {bufferPtr dataPtr : UInt64}
    (h : readPointer goarch reader = .ok (dataPtr, rest)) :
    offset goarch buffer bufferPtr reader =
      if dataPtr = 0 then .error .evtVarTypeNull
      else if buffer = [] then .error .indexOutOfRange
      else if dataPtr - bufferPtr > UInt64.ofNat buffer.length then
        .error (.invalidPointer dataPtr bufferPtr (bufferPtr + UInt64.ofNat buffer.length))
      else .ok (dataPtr - bufferPtr, rest) := by
  simp only [offset, h, bind, Except.bind]
  split_ifs <;> rfl

/-- The wrapped difference `dataPtr - bufferPtr` is at most `n` exactly when
`dataPtr` lies from `bufferPtr` to `bufferPtr + n`, a range that does not
wrap. -/
theorem sub_toNat_le_iff {dataPtr bufferPtr : UInt64} {n : Nat}
    (hfit : bufferPtr.toNat + n < UInt64.size) :
    (dataPtr - bufferPtr).toNat ≤ n ↔
      bufferPtr.toNat ≤ dataPtr.toNat ∧ dataPtr.toNat ≤ bufferPtr.toNat + n := by
  have hsub := UInt64.toNat_sub dataPtr bufferPtr
  have hd := UInt64.toNat_lt dataPtr
  simp only [UInt64.size] at *
  omega

/-- For a buffer whose end does not wrap, `offset` accepts exactly the
non-NULL pointers from the buffer's start to its end: a pointer below the
buffer makes the subtraction wrap to more than the buffer's length. -/
theorem offset_ok_iff {goarch : String} {buffer reader rest : List UInt8}
    {bufferPtr dataPtr : UInt64} (h : readPointer goarch reader = .ok (dataPtr, rest))
    (hbuf : buffer ≠ []) (hfit : bufferPtr.toNat + buffer.length < UInt64.size) :
    offset goarch buffer bufferPtr reader = .ok (dataPtr - bufferPtr, rest) ↔
      dataPtr ≠ 0 ∧ bufferPtr.toNat ≤ dataPtr.toNat ∧
        dataPtr.toNat ≤ bufferPtr.toNat + buffer.length := by
  have hlen : (UInt64.ofNat buffer.length).toNat = buffer.length :=
    (BitVec.toNat_ofNat _ _).trans (Nat.mod_eq_of_lt (lt_of_le_of_lt (Nat.le_add_left _ _) hfit))
  have hgt : dataPtr - bufferPtr > UInt64.ofNat buffer.length ↔
      ¬ (dataPtr - bufferPtr).toNat ≤ buffer.length := by
    rw [gt_iff_lt, UInt64.lt_def, BitVec.lt_def]
    show (UInt64.ofNat buffer.length).toNat < (dataPtr - bufferPtr).toNat ↔ _
    rw [hlen, not_le]
  rw [offset_eq h, if_neg hbuf, ← sub_toNat_le_iff hfit]
  by_cases h0 : dataPtr = 0
  · simp [h0]
  · by_cases hle : (dataPtr - bufferPtr).toNat ≤ buffer.length <;> simp [h0, hle, hgt]

theorem offset_ok_iff_amd64 :
    readPointer "amd64" [0x02, 0x10, 0, 0, 0, 0, 0, 0] = .ok (0x1002, []) ∧
      ([1, 2, 3, 4] : List UInt8) ≠ [] ∧ (0x1000 : UInt64).toNat + [1, 2, 3, 4].length < UInt64.size ∧
      (offset "amd64" [1, 2, 3, 4] 0x1000 [0x02, 0x10, 0, 0, 0, 0, 0, 0] =
          .ok (0x1002 - 0x1000, []) ↔
        (0x1002 : UInt64) ≠ 0 ∧ (0x1000 : UInt64).toNat ≤ (0x1002 : UInt64).toNat ∧
          (0x1002 : UInt64).toNat ≤ (0x1000 : UInt64).toNat + [1, 2, 3, 4].length) :=
  ⟨rfl, by simp, by decide, offset_ok_iff rfl (by simp) (by decide)⟩

end Libbeat.Wineventlog
