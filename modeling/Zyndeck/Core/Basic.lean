import Mathlib.Algebra.Group.Int.Defs
import Mathlib.Algebra.Group.Nat.Defs

namespace Zyndeck

/-- A Rust `String`: its Unicode scalar values in order. -/
abbrev Text := List Char

abbrev Timestamp := Int

/-- The largest value of a Postgres `integer` and of an `i32`. -/
def i32Max : Nat := 2147483647

/-- An `f32`, by its bits: a `Float32` has one `NaN` only. -/
structure F32 where
  bits : BitVec 32
  deriving DecidableEq, Repr

namespace F32

def value (number : F32) : Float32 := .ofBits (.ofBitVec number.bits)

/-- What `f32::total_cmp` compares. -/
def totalKey (number : F32) : Int :=
  if number.bits.toNat < 2147483648 then number.bits.toNat
  else 2147483647 - number.bits.toNat

/-- `f32::max`: the other operand when one is `NaN`. -/
def max (first second : Float32) : Float32 :=
  if first.isNaN then second
  else if second.isNaN then first
  else if first ≤ second then second else first

end F32

structure Uuid where
  bits : BitVec 128
  deriving DecidableEq, Repr

namespace Uuid

/-- The lower-case hexadecimal digit at a position, counted from the left. -/
def digit (id : Uuid) (position : Nat) : Char :=
  Nat.digitChar (id.bits.toNat / 16 ^ (31 - position) % 16)

def group (id : Uuid) (first length : Nat) : Text :=
  (List.range' first length).map id.digit

/-- The hyphenated form `Display` prints and Postgres casts `uuid` to. -/
def toText (id : Uuid) : Text :=
  id.group 0 8 ++ '-' :: id.group 8 4 ++ '-' :: id.group 12 4 ++
    '-' :: id.group 16 4 ++ '-' :: id.group 20 12

end Uuid

/-! Paths are Unix byte strings; they are stored as text. -/

structure PathBuf where
  bytes : List UInt8
  deriving DecidableEq, Repr

namespace PathBuf

/-- A UTF-8 sequence read so far: the bits of its scalar value, the number of
missing bytes, and the range the next one has to be in. -/
structure Sequence where
  value : Nat
  missing : Nat
  low : UInt8
  high : UInt8

/-- What a byte at the start of a sequence yields, and the sequence it opens. -/
def lead (byte : UInt8) : Text × Option Sequence :=
  if byte < 0x80 then ([Char.ofNat byte.toNat], none)
  else if 0xC2 ≤ byte ∧ byte ≤ 0xDF then ([], some ⟨byte.toNat % 32, 1, 0x80, 0xBF⟩)
  else if byte = 0xE0 then ([], some ⟨0, 2, 0xA0, 0xBF⟩)
  else if byte = 0xED then ([], some ⟨13, 2, 0x80, 0x9F⟩)
  else if 0xE1 ≤ byte ∧ byte ≤ 0xEF then ([], some ⟨byte.toNat % 16, 2, 0x80, 0xBF⟩)
  else if byte = 0xF0 then ([], some ⟨0, 3, 0x90, 0xBF⟩)
  else if 0xF1 ≤ byte ∧ byte ≤ 0xF3 then ([], some ⟨byte.toNat % 8, 3, 0x80, 0xBF⟩)
  else if byte = 0xF4 then ([], some ⟨4, 3, 0x80, 0x8F⟩)
  else (['\uFFFD'], none)

/-- `String::from_utf8_lossy`: every maximal prefix of a sequence that cannot be
completed becomes one replacement character. -/
def decodeLossy : Option Sequence → List UInt8 → Text
  | none, [] => []
  | some _, [] => ['\uFFFD']
  | none, byte :: rest => (lead byte).1 ++ decodeLossy (lead byte).2 rest
  | some sequence, byte :: rest =>
      let value := sequence.value * 64 + byte.toNat % 64
      if sequence.low ≤ byte ∧ byte ≤ sequence.high then
        if sequence.missing = 1 then Char.ofNat value :: decodeLossy none rest
        else decodeLossy (some ⟨value, sequence.missing - 1, 0x80, 0xBF⟩) rest
      else '\uFFFD' :: ((lead byte).1 ++ decodeLossy (lead byte).2 rest)

def toStringLossy (path : PathBuf) : Text := decodeLossy none path.bytes

/-- `PathBuf::from(String)`: the bytes of the text. -/
def ofText (text : Text) : PathBuf := ⟨text.flatMap String.utf8EncodeChar⟩

example : toStringLossy ⟨[0x61, 0xE2, 0x82, 0xAC, 0xFF, 0xE2, 0x82]⟩ =
    ['a', '€', '\uFFFD', '\uFFFD'] := by decide

end PathBuf

structure ParseRoleError where
  text : String

inductive Role where
  | superAdmin
  | admin
  | user
  deriving DecidableEq, Repr

namespace Role

def asStr : Role → String
  | .superAdmin => "super_admin"
  | .admin => "admin"
  | .user => "user"

def fromStr : String → Except ParseRoleError Role
  | "super_admin" => .ok .superAdmin
  | "admin" => .ok .admin
  | "user" => .ok .user
  | other => .error ⟨other⟩

@[simp] theorem fromStr_asStr (role : Role) : fromStr role.asStr = .ok role := by
  cases role <;> rfl

def isAdmin : Role → Bool
  | .superAdmin | .admin => true
  | .user => false

def isSuperAdmin : Role → Bool
  | .superAdmin => true
  | _ => false

@[simp] theorem isSuperAdmin_eq (role : Role) :
    role.isSuperAdmin = true ↔ role = .superAdmin := by
  cases role <;> simp [isSuperAdmin]

end Role

structure User where
  id : Uuid
  username : Text
  role : Role
  createdAt : Timestamp
  deriving DecidableEq, Repr

end Zyndeck
