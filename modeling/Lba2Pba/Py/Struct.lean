import Mathlib.Data.List.Forall2
import Mathlib.Algebra.Ring.Nat

/-!
# Packed integers

`struct` of Python for formats of unsigned integers with standard sizes (`=`), on a
little-endian machine. A format is the list of the widths of its fields in bytes.
-/

namespace Py.Struct

/-- The low `w` bytes of a number, the least significant one first. -/
def packInt : Nat → Nat → List UInt8
  | 0, _ => []
  | w + 1, n => UInt8.ofNat n :: packInt w (n / 256)

def unpackInt : List UInt8 → Nat
  | [] => 0
  | b :: bs => b.toNat + 256 * unpackInt bs

/-- `struct.calcsize(fmt)`. -/
def calcsize (fmt : List Nat) : Nat := fmt.sum

/-- `struct.pack(fmt, *values)`. -/
def pack : List Nat → List Nat → List UInt8
  | w :: fmt, v :: values => packInt w v ++ pack fmt values
  | _, _ => []

/-- `struct.pack_into(fmt, buf, 0, *values)`. -/
def packInto (fmt : List Nat) (buf : List UInt8) (values : List Nat) : List UInt8 :=
  pack fmt values ++ buf.drop (calcsize fmt)

/-- The fields at the front of a buffer. -/
def fields : List Nat → List UInt8 → List Nat
  | [], _ => []
  | w :: fmt, bs => unpackInt (bs.take w) :: fields fmt (bs.drop w)

/-- `struct.unpack(fmt, bs)`, or `none` where the buffer does not have the size of the
format. -/
def unpack (fmt : List Nat) (bs : List UInt8) : Option (List Nat) :=
  if bs.length = calcsize fmt then some (fields fmt bs) else none

/-- Every value fits the width of its field. -/
def Fits : List Nat → List Nat → Prop := List.Forall₂ (fun w v => v < 256 ^ w)

@[simp] theorem length_packInt (w n : Nat) : (packInt w n).length = w := by
  induction w generalizing n with
  | zero => rfl
  | succ w ih => rw [packInt, List.length_cons, ih]

theorem unpackInt_packInt {w n : Nat} (h : n < 256 ^ w) : unpackInt (packInt w n) = n := by
  induction w generalizing n with
  | zero =>
    rw [pow_zero] at h
    have hn : n = 0 := by omega
    rw [hn]
    rfl
  | succ w ih =>
    have hdiv : n / 256 < 256 ^ w := by
      rw [pow_succ] at h
      exact Nat.div_lt_of_lt_mul (by rwa [Nat.mul_comm] at h)
    have hlow : (UInt8.ofNat n).toNat = n % 256 := UInt8.toNat_ofNat'
    rw [packInt, unpackInt, ih hdiv, hlow]
    omega

theorem length_pack {fmt values : List Nat} (h : Fits fmt values) :
    (pack fmt values).length = calcsize fmt := by
  induction h with
  | nil => rfl
  | cons _ _ ih =>
    rw [pack, List.length_append, length_packInt, ih]
    simp [calcsize]

/-- What was packed is unpacked. -/
theorem unpack_pack {fmt values : List Nat} (h : Fits fmt values) :
    unpack fmt (pack fmt values) = some values := by
  rw [unpack, if_pos (length_pack h)]
  congr 1
  induction h with
  | nil => rfl
  | @cons w v fmt values hv _ ih =>
    have htake : (packInt w v ++ pack fmt values).take w = packInt w v := by
      rw [List.take_left' (length_packInt w v)]
    have hdrop : (packInt w v ++ pack fmt values).drop w = pack fmt values := by
      rw [List.drop_left' (length_packInt w v)]
    rw [pack, fields, htake, hdrop, unpackInt_packInt hv, ih]

/-- The record at a position in a row of records of one size. -/
theorem slice_flatMap {α : Type} {f : α → List UInt8} {size : Nat} (hf : ∀ a, (f a).length = size)
    {l : List α} {i : Nat} {a : α} (hi : l[i]? = some a) (tail : List UInt8) :
    ((l.flatMap f ++ tail).drop (size * i)).take size = f a := by
  induction l generalizing i with
  | nil => cases hi
  | cons b l ih =>
    rw [List.flatMap_cons, List.append_assoc]
    cases i with
    | zero =>
      rw [List.getElem?_cons_zero] at hi
      rw [Nat.mul_zero, List.drop_zero, List.take_left' (hf b), Option.some.inj hi]
    | succ i =>
      have hsplit : size * (i + 1) = (f b).length + size * i := by
        rw [hf, Nat.mul_succ, Nat.add_comm]
      rw [hsplit, List.drop_append]
      rw [List.drop_of_length_le (by omega), List.nil_append]
      have hsub : (f b).length + size * i - (f b).length = size * i := by omega
      rw [hsub]
      exact ih hi

end Py.Struct
