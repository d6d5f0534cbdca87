import ArmSim.Sim.Instruction

/-! The instruction set as the opcode literals mean it: each mnemonic owns the words whose
leading bits spell its literal, leading zeros included. -/
namespace ArmSim.Spec
open Sim

/-- The number in the leading `k` bits of a word. -/
def topBits (k : ℕ) (w : BitVec 32) : ℕ := w.toNat / 2 ^ (32 - k)

/-- An opcode literal: its width as written and its value as a binary number. -/
structure Pattern where
  width : ℕ
  bits : ℕ

/-- The least word of a pattern. -/
def Pattern.word (p : Pattern) : BitVec 32 := BitVec.ofNat 32 (p.bits * 2 ^ (32 - p.width))

/-- The last two literals are read as binary, although the source has no `0b` there. -/
def pattern : Name → Pattern
  | .addsExtendedRegister => ⟨10, 0b1010101100⟩
  | .addsImmediate => ⟨8, 0b10110001⟩
  | .subsExtendedRegister => ⟨10, 0b1110101100⟩
  | .subsImmediate => ⟨8, 0b11110001⟩
  | .hlt => ⟨11, 0b11010100010⟩
  | .andsShiftedRegister => ⟨8, 0b11101010⟩
  | .eorShifterRegister => ⟨8, 0b11001010⟩
  | .orrShiftedRegister => ⟨11, 0b10101010000⟩
  | .b => ⟨6, 0b000101⟩
  | .br => ⟨11, 0b11010110000⟩
  | .bcond => ⟨8, 0b01010100⟩
  | .lslImmediate => ⟨11, 0b11010011011⟩
  | .lsrImmediate => ⟨11, 0b11010011010⟩
  | .stur => ⟨11, 0b11111000000⟩
  | .sturb => ⟨11, 0b00111000000⟩
  | .sturh => ⟨10, 0b0111100000⟩
  | .ldur => ⟨11, 0b11111000010⟩
  | .ldurh => ⟨11, 0b01111000010⟩
  | .ldurb => ⟨10, 0b0011100001⟩
  | .movz => ⟨8, 0b11010010⟩
  | .addExtendedRegister => ⟨10, 0b1000101100⟩
  | .addImmediate => ⟨8, 0b10010001⟩
  | .mul => ⟨11, 0b10011011000⟩
  | .cbz => ⟨8, 0b10110100⟩
  | .cbnz => ⟨8, 0b10110101⟩
  | .subImmediate => ⟨8, 0b11010001⟩
  | .andImmediate => ⟨10, 0b1001001000⟩

/-- The word belongs to the mnemonic. -/
def Matches (n : Name) (w : BitVec 32) : Prop := topBits (pattern n).width w = (pattern n).bits

instance (n : Name) (w : BitVec 32) : Decidable (Matches n w) :=
  inferInstanceAs (Decidable (_ = _))

end ArmSim.Spec
