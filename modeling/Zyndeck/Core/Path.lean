import Zyndeck.Core.Basic

namespace Zyndeck.PathBuf

/-! Paths through text and back. -/

/-- The bytes are the UTF-8 of some text, where `Path::to_str` succeeds. -/
def IsUtf8 (path : PathBuf) : Prop := path.bytes.toByteArray.IsValidUTF8

theorem isUtf8_iff {path : PathBuf} : path.IsUtf8 ↔ ∃ text, path = ofText text := by
  constructor
  · rintro ⟨text, encoded⟩
    have bytes := congrArg (·.data.toList) encoded
    simp only [List.utf8Encode, List.toList_data_toByteArray] at bytes
    exact ⟨text, congrArg PathBuf.mk bytes⟩
  · rintro ⟨text, rfl⟩
    exact ⟨text, rfl⟩

instance (path : PathBuf) : Decidable path.IsUtf8 :=
  inferInstanceAs (Decidable path.bytes.toByteArray.IsValidUTF8)

/-! A sequence stands for the scalar values it can still become. -/

def trailing (scalar after : Nat) : UInt8 := .ofNat (scalar / 64 ^ after % 64 + 0x80)

theorem toNat_trailing (scalar after : Nat) :
    (trailing scalar after).toNat = scalar / 64 ^ after % 64 + 0x80 := by
  rw [trailing, UInt8.toNat_ofNat']
  omega

namespace Sequence

structure Covers (sequence : Sequence) (scalar : Nat) : Prop where
  value : scalar / 64 ^ sequence.missing = sequence.value
  within : sequence.low ≤ trailing scalar (sequence.missing - 1) ∧
    trailing scalar (sequence.missing - 1) ≤ sequence.high

def next (sequence : Sequence) (byte : UInt8) : Sequence :=
  ⟨sequence.value * 64 + byte.toNat % 64, sequence.missing - 1, 0x80, 0xBF⟩

variable {sequence : Sequence} {scalar missing : Nat}

theorem Covers.value_next (covers : sequence.Covers scalar)
    (length : sequence.missing = missing + 1) :
    sequence.value * 64 + (trailing scalar missing).toNat % 64 = scalar / 64 ^ missing := by
  have value := covers.value
  rw [length, Nat.pow_succ, ← Nat.div_div_eq_div_mul] at value
  rw [toNat_trailing]
  omega

theorem covers_of_value {value : Nat} (reached : scalar / 64 ^ missing = value) :
    (⟨value, missing, 0x80, 0xBF⟩ : Sequence).Covers scalar := by
  have small := Nat.mod_lt (scalar / 64 ^ (missing - 1)) (Nat.zero_lt_succ 63)
  refine ⟨reached, ?_⟩
  simp only [UInt8.le_iff_toNat_le, toNat_trailing, UInt8.reduceToNat]
  omega

theorem Covers.next (covers : sequence.Covers scalar)
    (length : sequence.missing = missing + 2) :
    (sequence.next (trailing scalar (missing + 1))).Covers scalar := by
  refine covers_of_value ?_
  rw [covers.value_next length, length]
  rfl

end Sequence

theorem decodeLossy_last {sequence : Sequence} {byte : UInt8} {rest : List UInt8}
    (within : sequence.low ≤ byte ∧ byte ≤ sequence.high) (last : sequence.missing = 1) :
    decodeLossy (some sequence) (byte :: rest) =
      Char.ofNat (sequence.value * 64 + byte.toNat % 64) :: decodeLossy none rest := by
  rw [decodeLossy, if_pos within, if_pos last]

theorem decodeLossy_more {sequence : Sequence} {byte : UInt8} {rest : List UInt8}
    (within : sequence.low ≤ byte ∧ byte ≤ sequence.high) (more : sequence.missing ≠ 1) :
    decodeLossy (some sequence) (byte :: rest) =
      decodeLossy (some (sequence.next byte)) rest := by
  rw [decodeLossy, if_pos within, if_neg more]
  rfl

def continuation (scalar : Nat) : Nat → List UInt8
  | 0 => []
  | missing + 1 => trailing scalar missing :: continuation scalar missing

theorem decodeLossy_continuation {scalar missing : Nat} {sequence : Sequence}
    (covers : sequence.Covers scalar) (length : sequence.missing = missing + 1)
    (rest : List UInt8) :
    decodeLossy (some sequence) (continuation scalar (missing + 1) ++ rest) =
      Char.ofNat scalar :: decodeLossy none rest := by
  have within := covers.within
  rw [length, Nat.add_sub_cancel] at within
  induction missing generalizing sequence with
  | zero =>
      refine (decodeLossy_last within length).trans ?_
      rw [covers.value_next length, Nat.pow_zero, Nat.div_one]
      rfl
  | succ missing induction =>
      refine (decodeLossy_more within (by omega)).trans ?_
      have nextCovers := covers.next length
      have nextLength : (sequence.next (trailing scalar (missing + 1))).missing = missing + 1 := by
        simp [Sequence.next, length]
      refine induction nextCovers nextLength ?_
      simpa only [nextLength, Nat.add_sub_cancel] using nextCovers.within

/-! The bytes that open a sequence. -/

theorem lead_ascii {byte : UInt8} (ascii : byte < 0x80) :
    lead byte = ([Char.ofNat byte.toNat], none) := by
  rw [lead, if_pos ascii]

def Opens (byte : UInt8) (missing scalar : Nat) : Prop :=
  ∃ sequence, lead byte = ([], some sequence) ∧ sequence.missing = missing ∧
    sequence.Covers scalar

section

variable {scalar : Nat}

theorem opens_pair (low : 0x80 ≤ scalar) (high : scalar ≤ 0x7FF) :
    Opens (.ofNat (scalar / 64 % 0x20 + 0xC0)) 1 scalar := by
  have byte : (UInt8.ofNat (scalar / 64 % 0x20 + 0xC0)).toNat = scalar / 64 + 0xC0 := by
    rw [UInt8.toNat_ofNat']
    omega
  refine ⟨⟨scalar / 64, 1, 0x80, 0xBF⟩, ?_, rfl, Sequence.covers_of_value rfl⟩
  simp only [lead, UInt8.lt_iff_toNat_lt, UInt8.le_iff_toNat_le, byte, UInt8.reduceToNat]
  rw [if_neg (by omega), if_pos (by omega), show (scalar / 64 + 0xC0) % 32 = scalar / 64 by omega]

theorem opens_triple (low : 0x800 ≤ scalar) (high : scalar ≤ 0xFFFF)
    (valid : scalar.isValidChar) : Opens (.ofNat (scalar / 4096 % 0x10 + 0xE0)) 2 scalar := by
  have byte : (UInt8.ofNat (scalar / 4096 % 0x10 + 0xE0)).toNat = scalar / 4096 + 0xE0 := by
    rw [UInt8.toNat_ofNat']
    omega
  simp only [Opens, lead, UInt8.lt_iff_toNat_lt, UInt8.le_iff_toNat_le, ← UInt8.toNat_inj, byte,
    UInt8.reduceToNat]
  rw [if_neg (by omega), if_neg (by omega)]
  split
  · refine ⟨_, rfl, rfl, by simp; omega, ?_⟩
    simp [UInt8.le_iff_toNat_le, toNat_trailing]
    omega
  split
  · refine ⟨_, rfl, rfl, by simp; omega, ?_⟩
    simp [UInt8.le_iff_toNat_le, toNat_trailing]
    omega
  · rw [if_pos (by omega), show (scalar / 4096 + 224) % 16 = scalar / 4096 by omega]
    exact ⟨_, rfl, rfl, Sequence.covers_of_value rfl⟩

theorem opens_quadruple (low : 0x10000 ≤ scalar) (valid : scalar.isValidChar) :
    Opens (.ofNat (scalar / 262144 % 0x08 + 0xF0)) 3 scalar := by
  have byte : (UInt8.ofNat (scalar / 262144 % 0x08 + 0xF0)).toNat = scalar / 262144 + 0xF0 := by
    rw [UInt8.toNat_ofNat']
    omega
  simp only [Opens, lead, UInt8.lt_iff_toNat_lt, UInt8.le_iff_toNat_le, ← UInt8.toNat_inj, byte,
    UInt8.reduceToNat]
  rw [if_neg (by omega), if_neg (by omega), if_neg (by omega), if_neg (by omega),
    if_neg (by omega)]
  split
  · refine ⟨_, rfl, rfl, by simp; omega, ?_⟩
    simp [UInt8.le_iff_toNat_le, toNat_trailing]
    omega
  split
  · rw [show (scalar / 262144 + 240) % 8 = scalar / 262144 by omega]
    exact ⟨_, rfl, rfl, Sequence.covers_of_value rfl⟩
  · rw [if_pos (by omega)]
    refine ⟨_, rfl, rfl, by simp; omega, ?_⟩
    simp [UInt8.le_iff_toNat_le, toNat_trailing]
    omega

end

theorem decodeLossy_of_opens {byte : UInt8} {missing scalar : Nat}
    (opens : Opens byte (missing + 1) scalar) (rest : List UInt8) :
    decodeLossy none (byte :: continuation scalar (missing + 1) ++ rest) =
      Char.ofNat scalar :: decodeLossy none rest := by
  obtain ⟨sequence, opened, length, covers⟩ := opens
  rw [List.cons_append, decodeLossy, opened]
  exact decodeLossy_continuation covers length rest

theorem decodeLossy_utf8EncodeChar (char : Char) (rest : List UInt8) :
    decodeLossy none (String.utf8EncodeChar char ++ rest) = char :: decodeLossy none rest := by
  have valid : char.val.toNat.isValidChar := char.valid
  have same : Char.ofNat char.val.toNat = char := Char.ofNat_toNat char
  refine Eq.trans ?_ (congrArg (· :: decodeLossy none rest) same)
  simp only [String.utf8EncodeChar]
  generalize char.val.toNat = scalar at valid
  split
  · rename_i ascii
    have byte : (UInt8.ofNat scalar).toNat = scalar := by
      rw [UInt8.toNat_ofNat']
      omega
    have isAscii : UInt8.ofNat scalar < 0x80 := by
      rw [UInt8.lt_iff_toNat_lt, byte]
      exact Nat.lt_succ_of_le ascii
    rw [List.singleton_append, decodeLossy, lead_ascii isAscii, byte]
    rfl
  split
  · have opens := opens_pair (by omega) ‹scalar ≤ 0x7FF›
    simpa [continuation, trailing] using decodeLossy_of_opens opens rest
  split
  · have opens := opens_triple (by omega) ‹scalar ≤ 0xFFFF› valid
    simpa [continuation, trailing] using decodeLossy_of_opens opens rest
  · have opens := opens_quadruple (by omega) valid
    simpa [continuation, trailing] using decodeLossy_of_opens opens rest

theorem decodeLossy_flatMap (text : Text) :
    decodeLossy none (text.flatMap String.utf8EncodeChar) = text := by
  induction text with
  | nil => rfl
  | cons char text induction =>
      rw [List.flatMap_cons, decodeLossy_utf8EncodeChar, induction]

theorem toStringLossy_ofText (text : Text) : (ofText text).toStringLossy = text :=
  decodeLossy_flatMap text

/-- The paths that survive being stored as text. -/
theorem ofText_toStringLossy_iff {path : PathBuf} :
    ofText path.toStringLossy = path ↔ path.IsUtf8 := by
  rw [isUtf8_iff]
  constructor
  · exact fun same => ⟨path.toStringLossy, same.symm⟩
  · rintro ⟨text, rfl⟩
    rw [toStringLossy_ofText]

/-! No NUL comes out of bytes without one. -/

/-- Every completion is a scalar value, and not NUL. -/
structure Sequence.Proper (sequence : Sequence) : Prop where
  missing : 0 < sequence.missing
  low : 0x80 ≤ sequence.low
  high : sequence.high ≤ 0xBF
  scalars : ∀ scalar, sequence.Covers scalar → 0 < scalar ∧ scalar.isValidChar

inductive Led : Text × Option Sequence → Prop
  | ascii (char : Char) (notNul : char ≠ '\x00') : Led ([char], none)
  | opened (sequence : Sequence) (proper : sequence.Proper) : Led ([], some sequence)
  | replaced : Led (['\uFFFD'], none)

theorem Led.of_scalars {value missing : Nat} {low high : UInt8} (positive : 0 < missing)
    (least : 0x80 ≤ low) (most : high ≤ 0xBF)
    (scalars : ∀ scalar, scalar / 64 ^ missing = value →
      low.toNat ≤ scalar / 64 ^ (missing - 1) % 64 + 0x80 →
      scalar / 64 ^ (missing - 1) % 64 + 0x80 ≤ high.toNat → 0 < scalar ∧ scalar.isValidChar) :
    Led ([], some ⟨value, missing, low, high⟩) := by
  refine .opened _ ⟨positive, least, most, ?_⟩
  rintro scalar ⟨reached, within⟩
  simp only [UInt8.le_iff_toNat_le, toNat_trailing] at within
  exact scalars scalar reached within.1 within.2

theorem ofNat_ne_nul {scalar : Nat} (positive : 0 < scalar) (valid : scalar.isValidChar) :
    Char.ofNat scalar ≠ '\x00' := by
  intro isNul
  have code : (Char.ofNat scalar).toNat = scalar := by
    rw [Char.ofNat, dif_pos valid]
    rfl
  rw [isNul] at code
  exact Nat.ne_of_gt positive code.symm

theorem lead_led {byte : UInt8} (notNul : byte ≠ 0) : Led (lead byte) := by
  simp only [lead, UInt8.lt_iff_toNat_lt, UInt8.le_iff_toNat_le, ← UInt8.toNat_inj,
    UInt8.reduceToNat]
  have positive : 0 < byte.toNat := Nat.pos_of_ne_zero fun zero => notNul (UInt8.toNat_inj.mp zero)
  split
  · exact .ascii _ (ofNat_ne_nul positive (by omega))
  split
  · exact .of_scalars (by decide) (by decide) (by decide) fun scalar value low high => by omega
  split
  · refine .of_scalars (by decide) (by decide) (by decide) fun scalar value low high => ?_
    simp only [UInt8.reduceToNat] at low high
    omega
  split
  · refine .of_scalars (by decide) (by decide) (by decide) fun scalar value low high => ?_
    simp only [UInt8.reduceToNat] at low high
    omega
  split
  · exact .of_scalars (by decide) (by decide) (by decide) fun scalar value low high => by omega
  split
  · refine .of_scalars (by decide) (by decide) (by decide) fun scalar value low high => ?_
    simp only [UInt8.reduceToNat] at low high
    omega
  split
  · exact .of_scalars (by decide) (by decide) (by decide) fun scalar value low high => by omega
  split
  · refine .of_scalars (by decide) (by decide) (by decide) fun scalar value low high => ?_
    simp only [UInt8.reduceToNat] at low high
    omega
  · exact .replaced

theorem Sequence.Proper.covers {sequence : Sequence} {byte : UInt8} {missing scalar : Nat}
    (proper : sequence.Proper) (within : sequence.low ≤ byte ∧ byte ≤ sequence.high)
    (length : sequence.missing = missing + 1)
    (reached : scalar / 64 ^ missing = sequence.value * 64 + byte.toNat % 64) :
    sequence.Covers scalar := by
  have least := proper.low
  have most := proper.high
  have read : trailing scalar missing = byte := by
    simp only [UInt8.le_iff_toNat_le, UInt8.reduceToNat] at within least most
    rw [← UInt8.toNat_inj, toNat_trailing, reached]
    omega
  refine ⟨?_, by rwa [length, Nat.add_sub_cancel, read]⟩
  rw [length, Nat.pow_succ, ← Nat.div_div_eq_div_mul, reached]
  omega

theorem Sequence.Proper.next {sequence : Sequence} {byte : UInt8} (proper : sequence.Proper)
    (within : sequence.low ≤ byte ∧ byte ≤ sequence.high) (more : sequence.missing ≠ 1) :
    (sequence.next byte).Proper where
  missing := Nat.sub_pos_of_lt (Nat.lt_of_le_of_ne proper.missing more.symm)
  low := UInt8.le_refl _
  high := UInt8.le_refl _
  scalars scalar covers := proper.scalars scalar
    (proper.covers within (Nat.sub_add_cancel proper.missing).symm covers.value)

theorem nul_not_mem_lead {byte : UInt8} {rest : List UInt8} (notNul : byte ≠ 0)
    (induction : (∀ sequence ∈ (lead byte).2, sequence.Proper) →
      '\x00' ∉ decodeLossy (lead byte).2 rest) :
    '\x00' ∉ (lead byte).1 ++ decodeLossy (lead byte).2 rest := by
  have led := lead_led notNul
  generalize lead byte = read at led induction ⊢
  cases led with
  | ascii char isChar => simpa [isChar.symm] using induction
  | opened sequence proper => simpa [proper] using induction
  | replaced => simpa using induction

theorem nul_not_mem_decodeLossy {pending : Option Sequence} {bytes : List UInt8}
    (proper : ∀ sequence ∈ pending, sequence.Proper) (noNul : 0 ∉ bytes) :
    '\x00' ∉ decodeLossy pending bytes := by
  induction pending, bytes using decodeLossy.induct with
  | case1 => simp [decodeLossy]
  | case2 => simp [decodeLossy]
  | case3 byte rest induction =>
      obtain ⟨notNul, noNul⟩ := not_or.mp (mt List.mem_cons.mpr noNul)
      rw [decodeLossy]
      exact nul_not_mem_lead (Ne.symm notNul) fun opened => induction opened noNul
  | case4 sequence byte rest within last induction =>
      obtain ⟨_, noNul⟩ := not_or.mp (mt List.mem_cons.mpr noNul)
      have sequenceProper := proper sequence rfl
      have covers := sequenceProper.covers within last (Nat.div_one _)
      obtain ⟨positive, valid⟩ := sequenceProper.scalars _ covers
      rw [decodeLossy_last within last, List.mem_cons, not_or]
      exact ⟨(ofNat_ne_nul positive valid).symm, induction nofun noNul⟩
  | case5 sequence byte rest value within more induction =>
      obtain ⟨_, noNul⟩ := not_or.mp (mt List.mem_cons.mpr noNul)
      rw [decodeLossy_more within more]
      refine induction ?_ noNul
      rintro _ ⟨⟩
      exact (proper sequence rfl).next within more
  | case6 sequence byte rest outside induction =>
      obtain ⟨notNul, noNul⟩ := not_or.mp (mt List.mem_cons.mpr noNul)
      rw [decodeLossy, if_neg outside, List.mem_cons, not_or]
      exact ⟨by decide,
        nul_not_mem_lead (Ne.symm notNul) fun opened => induction opened noNul⟩

theorem nul_not_mem_toStringLossy {path : PathBuf} (noNul : 0 ∉ path.bytes) :
    '\x00' ∉ path.toStringLossy :=
  nul_not_mem_decodeLossy nofun noNul

end Zyndeck.PathBuf
