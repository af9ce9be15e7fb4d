import Mathlib.Data.List.DropRight
import Mathlib.Data.List.Infix

/-!
# Windows event-log text helpers

`RemoveWindowsLineEndings` and `BinaryToString` of package `sys`, over the
bytes of Go strings: a Go `string` or `[]byte` is the `List UInt8` of its
bytes, CR is the byte 13 and LF the byte 10.

`RemoveWindowsLineEndings` is `strings.Replace(s, "\r\n", "\n", -1)` followed
by `strings.TrimRight(s, "\n")`. It deletes only CR bytes, each right before
an LF, and the trailing LFs. Its one pass can leave a CRLF: a CR right before a
CRLF becomes CR LF, which stays unless only LFs and CRLFs follow it
(`CR CR LF h` gives `CR LF h`, `CR CR LF` gives `CR`). Where the input has no
CR CR LF the output has no CRLF and a second call changes nothing.

`BinaryToString` writes every byte as two uppercase hexadecimal digits, the
high half first. Reading the digits back gives the bytes written.
-/

namespace Libbeat.Sys

open scoped List

/-! ## `RemoveWindowsLineEndings` -/

/-- `strings.Replace(s, "\r\n", "\n", -1)`: the scan replaces the leftmost
CRLF first and goes on after it, so matches never overlap. -/
def replaceCRLF : List UInt8 → List UInt8
  | 13 :: 10 :: t => 10 :: replaceCRLF t
  | c :: t => c :: replaceCRLF t
  | [] => []

/-- Replaces CRLF with LF and trims the LFs at the end. -/
def removeWindowsLineEndings (s : List UInt8) : List UInt8 :=
  (replaceCRLF s).rdropWhile (· == 10)

/-- The scan keeps every byte but the CR of each CRLF it replaces. -/
theorem replaceCRLF_filter (s : List UInt8) :
    (replaceCRLF s).filter (· != 13) = s.filter (· != 13) := by
  induction s using replaceCRLF.induct with
  | case1 t ih => simp [replaceCRLF, ih]
  | case2 c t hc ih => rw [replaceCRLF.eq_2 c t hc, List.filter_cons, List.filter_cons, ih]
  | case3 => rfl

theorem replaceCRLF_sublist (s : List UInt8) : replaceCRLF s <+ s := by
  induction s using replaceCRLF.induct with
  | case1 t ih => exact (ih.cons₂ 10).cons 13
  | case2 c t hc ih => rw [replaceCRLF.eq_2 c t hc]; exact ih.cons₂ c
  | case3 => exact .slnil

/-- The scan's output starts with LF only where its input starts with LF or
CRLF. -/
theorem replaceCRLF_lf_prefix {t : List UInt8} (h : [10] <+: replaceCRLF t) :
    [10] <+: t ∨ [13, 10] <+: t := by
  cases t using replaceCRLF.induct with
  | case1 t _ => exact .inr (by simp)
  | case2 c t hc _ =>
    rw [replaceCRLF.eq_2 c t hc, List.cons_prefix_cons] at h
    exact .inl (by simp [h.1])
  | case3 => simp [replaceCRLF] at h

/-- A CRLF in the scan's output stands where the input had CR CR LF. -/
theorem crlf_of_replaceCRLF {s : List UInt8} (h : [13, 10] <:+: replaceCRLF s) :
    [13, 13, 10] <:+: s := by
  induction s using replaceCRLF.induct with
  | case1 t ih =>
    rw [replaceCRLF, List.infix_cons_iff] at h
    rcases h with h | h
    · simp at h
    · exact (ih h).trans ((List.suffix_cons _ _).trans (List.suffix_cons _ _)).isInfix
  | case2 c t hc ih =>
    rw [replaceCRLF.eq_2 c t hc, List.infix_cons_iff] at h
    rcases h with h | h
    · obtain ⟨rfl, hlf⟩ := List.cons_prefix_cons.mp h
      rcases replaceCRLF_lf_prefix hlf with ⟨u, rfl⟩ | hcrlf
      · exact (hc u rfl rfl).elim
      · exact (List.cons_prefix_cons.mpr ⟨rfl, hcrlf⟩).isInfix
    · exact (ih h).trans (List.suffix_cons _ _).isInfix
  | case3 => simp [replaceCRLF] at h

/-- Where there is no CRLF the scan changes nothing. -/
theorem replaceCRLF_of_no_crlf {s : List UInt8} (h : ¬ [13, 10] <:+: s) : replaceCRLF s = s := by
  induction s using replaceCRLF.induct with
  | case1 t _ => exact absurd (List.prefix_append _ _).isInfix h
  | case2 c t hc ih =>
    rw [replaceCRLF.eq_2 c t hc, ih fun h' => h (h'.trans (List.suffix_cons _ _).isInfix)]
  | case3 => rfl

/-- A list is its `rdropWhile` followed by the elements it dropped. -/
theorem rdropWhile_append_replicate (l : List UInt8) (b : UInt8) :
    ∃ n, l.rdropWhile (· == b) ++ List.replicate n b = l := by
  have hsplit := congrArg List.reverse (List.takeWhile_append_dropWhile (· == b) l.reverse)
  rw [List.reverse_append, List.reverse_reverse] at hsplit
  refine ⟨(l.reverse.takeWhile (· == b)).length, ?_⟩
  have hrep : (l.reverse.takeWhile (· == b)).reverse = List.replicate _ b :=
    List.eq_replicate_iff.mpr ⟨List.length_reverse _, fun a ha => by
      simpa using List.mem_takeWhile_imp (List.mem_reverse.mp ha)⟩
  rw [List.rdropWhile, ← hrep, hsplit]

/-- `RemoveWindowsLineEndings` deletes from its input only CR bytes and the
LFs at the end, keeps the other bytes in order, and never ends with LF. -/
theorem removeWindowsLineEndings_drops_cr_and_trailing_lf (s : List UInt8) :
    removeWindowsLineEndings s <+ s ∧ (removeWindowsLineEndings s).getLast? ≠ some 10 ∧
      ∃ n, (removeWindowsLineEndings s).filter (· != 13) ++ List.replicate n 10 =
        s.filter (· != 13) := by
  obtain ⟨n, hn⟩ := rdropWhile_append_replicate (replaceCRLF s) 10
  refine ⟨(List.rdropWhile_prefix _ _).sublist.trans (replaceCRLF_sublist s), fun h => ?_,
    n, ?_⟩
  · have hne : removeWindowsLineEndings s ≠ [] := fun h' => by simp [h'] at h
    rw [List.getLast?_eq_getLast _ hne, Option.some_inj] at h
    exact List.rdropWhile_last_not _ _ hne (by simpa [removeWindowsLineEndings] using h)
  · have hlf : (List.replicate n (10 : UInt8)).filter (· != 13) = List.replicate n 10 :=
      List.filter_eq_self.mpr fun a ha => by simp [List.eq_of_mem_replicate ha]
    rw [← replaceCRLF_filter s, ← hn, List.filter_append, hlf]
    rfl

/-- Where no CR stands right before a CRLF, `RemoveWindowsLineEndings` leaves
no CRLF, and calling it again changes nothing. -/
theorem removeWindowsLineEndings_idempotent {s : List UInt8} (h : ¬ [13, 13, 10] <:+: s) :
    ¬ [13, 10] <:+: removeWindowsLineEndings s ∧
      removeWindowsLineEndings (removeWindowsLineEndings s) = removeWindowsLineEndings s := by
  have hno : ¬ [13, 10] <:+: removeWindowsLineEndings s := fun h' =>
    h (crlf_of_replaceCRLF (h'.trans (List.rdropWhile_prefix _ _).isInfix))
  refine ⟨hno, ?_⟩
  rw [removeWindowsLineEndings, replaceCRLF_of_no_crlf hno, removeWindowsLineEndings,
    List.rdropWhile_idempotent]

theorem removeWindowsLineEndings_idempotent_crlf :
    ¬ [13, 13, 10] <:+: ([104, 13, 10, 105, 13, 10, 10] : List UInt8) ∧
      (¬ [13, 10] <:+: removeWindowsLineEndings [104, 13, 10, 105, 13, 10, 10] ∧
        removeWindowsLineEndings (removeWindowsLineEndings [104, 13, 10, 105, 13, 10, 10]) =
          removeWindowsLineEndings [104, 13, 10, 105, 13, 10, 10]) :=
  ⟨by decide, removeWindowsLineEndings_idempotent (by decide)⟩

/-- A CR before a CRLF: the first call leaves a CRLF, the second removes it. -/
example : removeWindowsLineEndings [13, 13, 10, 104] = [13, 10, 104] ∧
    removeWindowsLineEndings [13, 10, 104] = [10, 104] := by decide

/-! ## `BinaryToString` -/

/-- The digits `BinaryToString` writes. -/
def hexTable : List UInt8 := "0123456789ABCDEF".toList.map Char.toUInt8

/-- The two digits of one byte, high half first. -/
def hexPair (v : UInt8) : List UInt8 :=
  [hexTable.getD (v >>> 4).toNat 0, hexTable.getD (v &&& 0x0f).toNat 0]

/-- Every byte as two uppercase hexadecimal digits, in order. -/
def binaryToString (bin : List UInt8) : List UInt8 :=
  match bin with
  | [] => []
  | _ => bin.flatMap hexPair

/-- The value of an uppercase hexadecimal digit. -/
def hexValue (c : UInt8) : Option Nat :=
  hexTable.indexOf? c

/-- Reads the output of `BinaryToString` back: two digits a byte. -/
def hexDecode : List UInt8 → Option (List UInt8)
  | hi :: lo :: t => do
    let h ← hexValue hi
    let l ← hexValue lo
    let rest ← hexDecode t
    pure (UInt8.ofNat (16 * h + l) :: rest)
  | [] => some []
  | [_] => none

theorem binaryToString_eq_flatMap (bin : List UInt8) :
    binaryToString bin = bin.flatMap hexPair := by
  cases bin <;> rfl

theorem hexValue_hexTable : ∀ i < 16, hexValue (hexTable.getD i 0) = some i := by
  decide

theorem toNat_shiftRight_four (v : UInt8) : (v >>> 4).toNat = v.toNat / 16 := by
  show (v.toBitVec >>> (4#8)).toNat = v.toBitVec.toNat / 16
  rw [BitVec.ushiftRight_eq', BitVec.toNat_ushiftRight, Nat.shiftRight_eq_div_pow]
  rfl

theorem toNat_and_fifteen (v : UInt8) : (v &&& 0x0f).toNat = v.toNat % 16 := by
  show (v.toBitVec &&& 15#8).toNat = v.toBitVec.toNat % 16
  rw [BitVec.toNat_and]
  exact Nat.and_pow_two_sub_one_eq_mod _ 4

theorem hexPair_halves_lt (v : UInt8) : (v >>> 4).toNat < 16 ∧ (v &&& 0x0f).toNat < 16 := by
  rw [toNat_shiftRight_four, toNat_and_fifteen]
  have : v.toNat < 256 := UInt8.toNat_lt_size v
  omega

/-- Reading the digits of `BinaryToString` back gives the bytes written, so
distinct byte strings are written as distinct strings. -/
theorem hexDecode_binaryToString (bin : List UInt8) :
    hexDecode (binaryToString bin) = some bin := by
  rw [binaryToString_eq_flatMap]
  induction bin with
  | nil => rfl
  | cons v bin ih =>
    have hv : UInt8.ofNat (16 * (v >>> 4).toNat + (v &&& 0x0f).toNat) = v := by
      apply UInt8.toNat.inj
      rw [toNat_shiftRight_four, toNat_and_fifteen, Nat.div_add_mod, UInt8.toNat_ofNat_of_lt]
      exact UInt8.toNat_lt_size v
    rw [List.flatMap_cons, hexPair, List.cons_append, List.cons_append, List.nil_append, hexDecode,
      hexValue_hexTable _ (hexPair_halves_lt v).1, hexValue_hexTable _ (hexPair_halves_lt v).2, ih]
    exact congrArg (fun x => some (x :: bin)) hv

end Libbeat.Sys
