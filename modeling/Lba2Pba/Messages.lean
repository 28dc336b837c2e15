import Lba2Pba.Py.Exec
import Lba2Pba.Layout.Window

/-!
# Messages

The messages of `lba2pba.proto` that the services exchange. An `int64` field holds
an integer of that width (`I64`), and assigning a wider one raises; every other
field is a string or a list. The zero values are protobuf's defaults.
-/

namespace Lba2Pba

open Py

/-- The value of an `int64` field. -/
structure I64 where
  val : Int
  lo : -2 ^ 63 ≤ val
  hi : val < 2 ^ 63
deriving DecidableEq

namespace I64

instance : Coe I64 Int := ⟨I64.val⟩

instance : Inhabited I64 := ⟨⟨0, by decide, by decide⟩⟩

/-- Assign an integer to an `int64` field. -/
def assign (x : Int) : Except Err I64 :=
  if h : -2 ^ 63 ≤ x ∧ x < 2 ^ 63 then .ok ⟨x, h.1, h.2⟩ else .error .valueError

/-- A literal, reduced so that it fits the field. -/
def lit (n : Nat) : I64 := ⟨(n % 2 ^ 63 : Nat), by omega, by omega⟩

theorem assign_of_between {x : Int} (a b : I64) (ha : a.val ≤ x) (hb : x ≤ b.val) :
    ∃ y, assign x = .ok y ∧ y.val = x := by
  have hlo := a.lo
  have hhi := b.hi
  have hx : -2 ^ 63 ≤ x ∧ x < 2 ^ 63 := ⟨by omega, by omega⟩
  exact ⟨⟨x, hx.1, hx.2⟩, dif_pos hx, rfl⟩

theorem assign_error {x : Int} (h : 2 ^ 63 ≤ x) : assign x = .error .valueError := by
  rw [assign, dif_neg (by omega)]

end I64

/-- One physical extent. -/
structure PBA where
  disk : String
  host : String
  offset : I64
  length : I64
  major : I64 := default
  minor : I64 := default
deriving DecidableEq

/-- A block of a disk, for runs on fixed inputs. -/
def PBA.blockAt (host : String) (offset : I64) : PBA :=
  ⟨"sda", host, offset, .lit 4096, default, default⟩

structure ReplicaPba where
  pba : List PBA
  Node : String
deriving DecidableEq

structure FilePBA where
  pba : List PBA := []
  rPba : List ReplicaPba := []
  fileName : String := ""
  volName : String := ""
  type : String := ""
deriving DecidableEq, Inhabited

structure TChangeRequest where
  action : String
  filePba : FilePBA
deriving DecidableEq

structure FMPushPbaRequest where
  action : String
  filePba : FilePBA
deriving DecidableEq

structure FAPushRequest where
  action : String
  filePba : FilePBA
deriving DecidableEq

/-- The physical bytes of an extent, as (disk, host) and address. -/
def PBA.bytes (p : PBA) : List ((String × String) × Int) :=
  Layout.span (p.disk, p.host) p.offset p.length

@[simp] theorem PBA.length_bytes (p : PBA) : p.bytes.length = p.length.val.toNat :=
  Layout.length_span _ _ _

end Lba2Pba
