import ArmSim.Spec.Encoding
import ArmSim.Verify.Compare

/-! What the simulator is a simulator of: the instructions of the subset with the fields that the
assembler chooses, their words, and what each of them does to a processor with byte-addressed
memory, a zero register, a stack pointer and the overflow flag. -/
namespace ArmSim.Arch
open Bytes Spec Verify

/-- The flags that the conditions of the subset read; none of them reads the carry. -/
structure Flags where
  n : Bool
  z : Bool
  v : Bool
deriving DecidableEq, Repr

namespace Flags

def ofAdd (a b : BitVec 64) : Flags :=
  { n := (a + b).msb, z := a + b == 0, v := BitVec.saddOverflow a b }

def ofSub (a b : BitVec 64) : Flags :=
  { n := (a - b).msb, z := a - b == 0, v := BitVec.ssubOverflow a b }

def ofLogical (r : BitVec 64) : Flags := { n := r.msb, z := r == 0, v := false }

/-- A condition on the flags. -/
def Meets (f : Flags) : Cond → Prop
  | .eq => f.z = true
  | .ne => f.z = false
  | .ge => f.n = f.v
  | .lt => f.n ≠ f.v
  | .gt => f.z = false ∧ f.n = f.v
  | .le => ¬ (f.z = false ∧ f.n = f.v)

instance (f : Flags) : DecidablePred f.Meets := fun c => by
  cases c <;> unfold Meets <;> infer_instance

end Flags

/-- The operations on two registers. -/
inductive Op
  | add | adds | subs | ands | eor | orr | mul
deriving DecidableEq, Repr

namespace Op

def value : Op → BitVec 64 → BitVec 64 → BitVec 64
  | add, a, b | adds, a, b => a + b
  | subs, a, b => a - b
  | ands, a, b => a &&& b
  | eor, a, b => a ^^^ b
  | orr, a, b => a ||| b
  | mul, a, b => a * b

def flags : Op → BitVec 64 → BitVec 64 → Option Flags
  | adds, a, b => some (.ofAdd a b)
  | subs, a, b => some (.ofSub a b)
  | ands, a, b => some (.ofLogical (a &&& b))
  | add, _, _ | eor, _, _ | orr, _, _ | mul, _, _ => none

def opcode : Op → BitVec 11
  | add => 0b10001011000
  | adds => 0b10101011000
  | subs => 0b11101011000
  | ands => 0b11101010000
  | eor => 0b11001010000
  | orr => 0b10101010000
  | mul => 0b10011011000

/-- The bits between the two operands; the multiplication adds the zero register to its product. -/
def imm6 : Op → BitVec 6
  | mul => 0b011111
  | _ => 0

end Op

/-- The operations on a register and an immediate. -/
inductive ImmediateOp
  | add | adds | subs
deriving DecidableEq, Repr

namespace ImmediateOp

def op : ImmediateOp → Op
  | add => .add
  | adds => .adds
  | subs => .subs

def opcode : ImmediateOp → BitVec 8
  | add => 0b10010001
  | adds => 0b10110001
  | subs => 0b11110001

end ImmediateOp

/-- The widths of the loads and stores. -/
inductive Size
  | byte | half | double
deriving DecidableEq, Repr

namespace Size

def bytes : Size → ℕ
  | byte => 1
  | half => 2
  | double => 8

def storeOpcode : Size → BitVec 11
  | byte => 0b00111000000
  | half => 0b01111000000
  | double => 0b11111000000

def loadOpcode : Size → BitVec 11
  | byte => 0b00111000010
  | half => 0b01111000010
  | double => 0b11111000010

end Size

inductive Instr
  | register (op : Op) (xm xn xd : BitVec 5)
  | immediate (op : ImmediateOp) (sh : Bool) (imm : BitVec 12) (xn xd : BitVec 5)
  | movz (hw : BitVec 2) (imm : BitVec 16) (xd : BitVec 5)
  | lsl (amount : Fin 64) (xn xd : BitVec 5)
  | lsr (amount : Fin 64) (xn xd : BitVec 5)
  | store (size : Size) (imm : BitVec 9) (xn xt : BitVec 5)
  | load (size : Size) (imm : BitVec 9) (xn xt : BitVec 5)
  | b (imm : BitVec 26)
  | bcond (c : Cond) (imm : BitVec 19)
  | br (xn : BitVec 5)
  | cbz (imm : BitVec 19) (xt : BitVec 5)
  | cbnz (imm : BitVec 19) (xt : BitVec 5)
  | hlt (imm : BitVec 16)
deriving DecidableEq, Repr

/-- HLT. -/
def hltWord (imm : BitVec 16) : BitVec 32 := 0b11010100010#11 ++ imm ++ 0#5

def Instr.word : Instr → BitVec 32
  | register op xm xn xd => registerWord op.opcode xm op.imm6 xn xd
  | immediate op sh imm xn xd => immediateWord op.opcode (if sh then 1 else 0) imm xn xd
  | movz hw imm xd => movzWord hw imm xd
  | lsl amount xn xd => lslWord xn xd amount
  | lsr amount xn xd => lsrWord xn xd amount
  | store size imm xn xt => transferWord size.storeOpcode imm xn xt
  | load size imm xn xt => transferWord size.loadOpcode imm xn xt
  | b imm => bWord imm
  | bcond c imm => branchWord 0b01010100 imm c.code
  | br xn => registerWord 0b11010110000 31 0 xn 0
  | cbz imm xt => branchWord 0b10110100 imm xt
  | cbnz imm xt => branchWord 0b10110101 imm xt
  | hlt imm => hltWord imm

/-- Register 31 is the stack pointer in `x` and the zero register in `reg`. -/
structure State where
  pc : BitVec 64
  x : BitVec 5 → BitVec 64
  flags : Flags
  mem : BitVec 64 → BitVec 8
  running : Bool

namespace State

def reg (s : State) (k : BitVec 5) : BitVec 64 := if k = 31 then 0 else s.x k

def setX (k : BitVec 5) (v : BitVec 64) (s : State) : State :=
  { s with x := Function.update s.x k v }

def setReg (k : BitVec 5) (v : BitVec 64) (s : State) : State :=
  if k = 31 then s else s.setX k v

def setFlags (s : State) : Option Flags → State
  | some flags => { s with flags }
  | none => s

def jump (t : BitVec 64) (s : State) : State := { s with pc := t }

def next (s : State) : State := s.jump (s.pc + 4)

/-- The address of a load or store. -/
def address (s : State) (xn : BitVec 5) (imm : BitVec 9) : BitVec 64 := s.x xn + imm.signExtend 64

end State

/-- The second operand of an operation with an immediate. -/
def shifted (sh : Bool) (imm : BitVec 12) : BitVec 64 :=
  imm.setWidth 64 <<< (if sh then 12 else 0)

def loadAt (k : ℕ) (a : BitVec 64) (mem : BitVec 64 → BitVec 8) : BitVec 64 :=
  ofBytes 64 (fun j => mem (a + BitVec.ofNat 64 j)) k

def storeAt (k : ℕ) (a v : BitVec 64) (mem : BitVec 64 → BitVec 8) : BitVec 64 → BitVec 8 :=
  fun b => if (b - a).toNat < k then byte v (b - a).toNat else mem b

/-- An operation with an immediate takes the stack pointer as its first operand, and ADD leaves its
result there. -/
def ImmediateOp.exec (op : ImmediateOp) (b : BitVec 64) (xn xd : BitVec 5) (s : State) : State :=
  let r := op.op.value (s.x xn) b
  let s' := s.setFlags (op.op.flags (s.x xn) b)
  (if op = add then s'.setX xd r else s'.setReg xd r).next

def Instr.exec (s : State) : Instr → State
  | register op xm xn xd => ((s.setFlags (op.flags (s.reg xn) (s.reg xm))).setReg xd
      (op.value (s.reg xn) (s.reg xm))).next
  | immediate op sh imm xn xd => op.exec (shifted sh imm) xn xd s
  | movz hw imm xd => (s.setReg xd (imm.setWidth 64 <<< (16 * hw.toNat))).next
  | lsl amount xn xd => (s.setReg xd (s.reg xn <<< amount.val)).next
  | lsr amount xn xd => (s.setReg xd (s.reg xn >>> amount.val)).next
  | store size imm xn xt =>
    { s with mem := storeAt size.bytes (s.address xn imm) (s.reg xt) s.mem }.next
  | load size imm xn xt => (s.setReg xt (loadAt size.bytes (s.address xn imm) s.mem)).next
  | b imm => s.jump (s.pc + 4 * imm.signExtend 64)
  | bcond c imm => if s.flags.Meets c then s.jump (s.pc + 4 * imm.signExtend 64) else s.next
  | br xn => s.jump (s.reg xn)
  | cbz imm xt => if s.reg xt = 0 then s.jump (s.pc + 4 * imm.signExtend 64) else s.next
  | cbnz imm xt => if s.reg xt = 0 then s.next else s.jump (s.pc + 4 * imm.signExtend 64)
  | hlt _ => { s.next with running := false }

/-- The instruction at the program counter. -/
def Fetches (s : State) (i : Instr) : Prop :=
  ∀ j < 4, s.mem (s.pc + BitVec.ofNat 64 j) = byte i.word j

instance (s : State) (i : Instr) : Decidable (Fetches s i) :=
  inferInstanceAs (Decidable (∀ j < 4, _))

/-- Behind SUBS a condition is the relation of the operands, whatever their difference. -/
theorem Flags.meets_ofSub (c : Cond) (a b : BitVec 64) :
    (Flags.ofSub a b).Meets c ↔ c.Holds a.toInt b.toInt := by
  obtain ⟨hfits, hwraps⟩ := toInt_sub_cases a b
  have hn : (a - b).msb = decide ((a - b).toInt < 0) := BitVec.msb_eq_toInt
  have hz : (a - b == 0) = decide (a.toInt = b.toInt) := by
    rw [Bool.eq_iff_iff, beq_iff_eq, decide_eq_true_eq, BitVec.toInt_inj]
    exact sub_eq_zero
  have hv : BitVec.ssubOverflow a b = decide (¬ Fits a b) := by
    unfold BitVec.ssubOverflow
    rw [Bool.eq_iff_iff, decide_eq_true_eq, Fits]
    simp only [Bool.or_eq_true, decide_eq_true_eq]
    omega
  unfold ofSub
  rw [hn, hz, hv]
  generalize (a - b).toInt = d at hfits hwraps ⊢
  by_cases h : Fits a b
  · obtain rfl := hfits h
    cases c <;> simp [Meets, Cond.Holds, h]
    all_goals omega
  · have hd := hwraps h
    cases c <;> simp [Meets, Cond.Holds, h]
    all_goals omega

end ArmSim.Arch
