import Mathlib.Data.Nat.ModEq
import Mathlib.Data.List.Basic
import PetProject.Framework.SqlText

/-!
# Bytes in memory

Numbers as little-endian bytes, and C strings: the bytes up to the first NUL. Reading a string
inspects the NUL as well. A list of records that lie one after the other is described by the
offsets at which they start.
-/

namespace Framework

abbrev Bytes := List UInt8

/-- The text of some bytes, one character for each of them. -/
def textOfBytes (bs : Bytes) : Text := bs.map fun b => Char.ofNat b.toNat

/-! ## Numbers -/

/-- The low bytes of a number, the lowest one first. -/
def littleEndian : Nat → Nat → Bytes
  | 0, _ => []
  | n + 1, v => UInt8.ofNat v :: littleEndian n (v / 256)

def ofLittleEndian : Bytes → Nat
  | [] => 0
  | b :: bs => b.toNat + 256 * ofLittleEndian bs

@[simp] theorem length_littleEndian (n v : Nat) : (littleEndian n v).length = n := by
  induction n generalizing v with
  | zero => rfl
  | succ n ih => simp [littleEndian, ih]

theorem ofLittleEndian_littleEndian (n v : Nat) :
    ofLittleEndian (littleEndian n v) = v % 256 ^ n := by
  induction n generalizing v with
  | zero => simp [littleEndian, ofLittleEndian, Nat.mod_one]
  | succ n ih =>
    have hbyte : (UInt8.ofNat v).toNat = v % 256 := by simp
    rw [littleEndian, ofLittleEndian, ih, hbyte, Nat.pow_succ, Nat.mul_comm (256 ^ n), Nat.mod_mul]

/-- The number in the given bytes of a memory. -/
def numberAt (memory : Bytes) (offset width : Nat) : Nat :=
  ofLittleEndian ((memory.drop offset).take width)

theorem numberAt_of_drop {memory rest : Bytes} {offset width v : Nat}
    (h : memory.drop offset = littleEndian width v ++ rest) (hv : v < 256 ^ width) :
    numberAt memory offset width = v := by
  rw [numberAt, h, List.take_left' (length_littleEndian width v), ofLittleEndian_littleEndian,
    Nat.mod_eq_of_lt hv]

/-! ## Strings -/

/-- The C string at the start of some bytes. -/
def cString (bs : Bytes) : Bytes := bs.takeWhile (· ≠ 0)

theorem cString_append {s : Bytes} (hs : 0 ∉ s) (rest : Bytes) :
    cString (s ++ 0 :: rest) = s := by
  have hall : ∀ b ∈ s, decide (b ≠ 0) = true := by
    intro b hb
    simp only [ne_eq, decide_eq_true_eq]
    rintro rfl
    exact hs hb
  rw [cString, List.takeWhile_append_of_pos hall]
  simp

/-- The positions that are inspected when the string at an offset is read. -/
def cSpan (memory : Bytes) (offset : Nat) : List Nat :=
  List.range' offset ((cString (memory.drop offset)).length + 1)

theorem mem_cSpan {memory : Bytes} {offset p : Nat} :
    p ∈ cSpan memory offset ↔
      offset ≤ p ∧ p ≤ offset + (cString (memory.drop offset)).length := by
  rw [cSpan, List.mem_range'_1]
  omega

theorem self_mem_cSpan (memory : Bytes) (offset : Nat) : offset ∈ cSpan memory offset := by
  rw [mem_cSpan]
  omega

/-! ## Records -/

/-- The offsets of records with the given sizes. -/
def offsets : Nat → List Nat → List Nat
  | _, [] => []
  | start, size :: sizes => start :: offsets (start + size) sizes

end Framework
