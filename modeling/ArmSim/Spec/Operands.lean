import ArmSim.Spec.Effect
import ArmSim.Spec.Pattern

/-! The operand fields of an instruction word and the value that each register-writing
mnemonic computes from them. -/
namespace ArmSim.Spec
open Shell Sim

/-- Bits `i` to `i + k - 1` of a word, as a number. -/
def bits (i k : ℕ) (w : BitVec 32) : ℕ := w.toNat / 2 ^ i % 2 ^ k

/-- The register numbered by the five bits from `i` on. -/
def regAt (i : ℕ) (w : BitVec 32) : BitVec 5 := w.extractLsb' i 5

def rd (w : BitVec 32) : BitVec 5 := regAt 0 w
def rn (w : BitVec 32) : BitVec 5 := regAt 5 w
def rm (w : BitVec 32) : BitVec 5 := regAt 16 w

def imm12 (w : BitVec 32) : BitVec 64 := ((w >>> 10) &&& mask11bits).setWidth 64
def imm16 (w : BitVec 32) : BitVec 64 := ((w >>> 5) &&& mask16bits).setWidth 64
def offset9 (w : BitVec 32) : BitVec 64 := signedOffset9 ((w >>> 12) &&& mask9bits)

/-- The six bits that give both shifts their amount; for LSL it is 64 minus the amount. -/
def immr (w : BitVec 32) : ℕ := bits 16 6 w

/-- The effective address of the load and store words. -/
def accessAddress (s : CpuState) (w : BitVec 32) : BitVec 64 := s.reg (rn w) + offset9 w

/-- What the mnemonic computes for its destination register. The second operand of ORR is
X0 in every word that decodes to it. -/
def result (s : CpuState) (mem : Memory) (w : BitVec 32) : Name → Option (BitVec 64)
  | .addsImmediate | .addImmediate => some (s.reg (rn w) + imm12 w)
  | .subsImmediate => some (s.reg (rn w) - imm12 w)
  | .addsExtendedRegister | .addExtendedRegister => some (s.reg (rn w) + s.reg (rm w))
  | .subsExtendedRegister => some (s.reg (rn w) - s.reg (rm w))
  | .andsShiftedRegister => some (s.reg (rn w) &&& s.reg (rm w))
  | .eorShifterRegister => some (s.reg (rn w) ^^^ s.reg (rm w))
  | .orrShiftedRegister => some (s.reg (rn w) ||| s.reg 0)
  | .mul => some (s.reg (rn w) * s.reg (rm w))
  | .lslImmediate => some (s.reg (rn w) <<< (64 - immr w))
  | .lsrImmediate => some (s.reg (rn w) >>> immr w)
  | .movz => some (imm16 w)
  | .ldur => some (loadDoubleword mem (accessAddress s w))
  | .ldurb => some ((loadByte mem (accessAddress s w)).setWidth 64)
  | _ => none

/-- Where a store starts its word, and the word that it puts there for the register value
`v`. -/
def storeBase : Name → BitVec 64 → BitVec 64
  | .stur, a => a
  | _, a => narrowed a

def storeWord (mem : Memory) (a v : BitVec 64) : Name → BitVec 32
  | .sturb => insertLane 0xFF (memRead32 mem (narrowed a))
      (((v &&& 0xFF).setWidth 8).setWidth 32) (byteLane a)
  | .sturh => insertLane 0xFFFF (memRead32 mem (narrowed a))
      (((v &&& 0xFFFF).setWidth 16).setWidth 32) (halfwordLane a)
  | _ => (v &&& 0xFFFFFFFF).setWidth 32

/-- The bytes that a load or store is for; STUR writes the low word of its register only. -/
def accessWidth : Name → ℕ
  | .stur => 4
  | .sturh => 2
  | .ldur => 8
  | .sturb | .ldurb => 1
  | _ => 0

/-- The first byte of the word at `storeBase` that a store replaces. -/
def storeLane : Name → BitVec 64 → ℕ
  | .sturb, a => a.toNat % 4
  | .sturh, a => a.toNat / 2 % 2 * 2
  | _, _ => 0

theorem toNat_field (w mask : BitVec 32) (i k : ℕ) (hm : mask.toNat = 2 ^ k - 1) :
    ((w >>> i) &&& mask).toNat = bits i k w := by
  rw [BitVec.toNat_and, hm, Nat.and_two_pow_sub_one_eq_mod, BitVec.toNat_ushiftRight,
    Nat.shiftRight_eq_div_pow, bits]

theorem toNat_regAt (i : ℕ) (w : BitVec 32) : (regAt i w).toNat = bits i 5 w := by
  rw [regAt, BitVec.extractLsb'_toNat, Nat.shiftRight_eq_div_pow, bits]

theorem field_regAt (i : ℕ) (w : BitVec 32) :
    ((w >>> i) &&& mask5bits).toNat = (regAt i w).toNat := by
  rw [toNat_field w mask5bits i 5 rfl, toNat_regAt]

theorem field_rd (w : BitVec 32) : (w &&& mask5bits).toNat = (rd w).toNat := by
  simpa [rd] using field_regAt 0 w

theorem toNat_lt_armRegs (k : BitVec 5) : k.toNat < armRegs := k.isLt

/-- A register number as an index of the register file. -/
def regNo (k : BitVec 5) : Fin armRegs := ⟨k.toNat, toNat_lt_armRegs k⟩

end ArmSim.Spec

namespace ArmSim.Sim.Name

/-- The mnemonics whose function tests `rd != 31` before it writes. -/
def guardsZero : Name → Bool
  | subsImmediate | subsExtendedRegister | addExtendedRegister => true
  | _ => false

end ArmSim.Sim.Name

namespace ArmSim.Spec
open Shell Sim

/-- The writes of a mnemonic that has computed `r`. -/
def writeback (n : Name) (w : BitVec 32) (r : BitVec 64) : Effect where
  reg := if n.guardsZero ∧ rd w = 31 then none else some (regNo (rd w), r)
  flags := if n.setsFlags then some r else none

end ArmSim.Spec
