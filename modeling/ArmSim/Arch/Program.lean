import ArmSim.Arch.Represents
import ArmSim.Core.Hoare

/-! A logic for programs of the subset. Assertions stand in front of the instructions of a code,
every instruction leads from one of them to another, and blocks and counted loops follow. -/
namespace ArmSim.Arch
open Simulation Hoare Bytes Spec Verify

/-- The program runs, and its code is in memory from `base` on. -/
structure Holds (base : BitVec 64) (code : List Instr) (s : State) : Prop where
  running : s.running = true
  accessible : ∀ k < code.length, Accessible (base + BitVec.ofNat 64 (4 * k)) 4
  fetches : ∀ k i, code[k]? = some i → Fetches (s.jump (base + BitVec.ofNat 64 (4 * k))) i

/-- The program is in front of its instruction `k`, in a state with `P`. -/
structure At (base : BitVec 64) (code : List Instr) (k : ℕ) (P : Tracked → Prop)
    (c : Tracked) : Prop where
  holds : Holds base code c.state
  pc : c.state.pc = base + BitVec.ofNat 64 (4 * k)
  state : P c

namespace Instr

/-- The next instruction is the one behind. -/
def straight : Instr → Bool
  | b _ | bcond _ _ | br _ | cbz _ _ | cbnz _ _ | hlt _ => false
  | _ => true

def isStore : Instr → Bool
  | store _ _ _ _ => true
  | _ => false

end Instr

/-- What the instructions that are no branches leave alone. -/
theorem exec_frame {i : Instr} (hi : i.straight = true) (s : State) :
    (i.exec s).pc = s.pc + 4 ∧ (i.exec s).running = s.running ∧
      (i.isStore = false → (i.exec s).mem = s.mem) := by
  have hframe (f : Option Flags) (k : BitVec 5) (v : BitVec 64) :
      ((s.setFlags f).setReg k v).next.pc = s.pc + 4 ∧
        ((s.setFlags f).setReg k v).next.running = s.running ∧
        (i.isStore = false → ((s.setFlags f).setReg k v).next.mem = s.mem) := by
    obtain ⟨hpc, hmem, hrun, -⟩ := setReg_setFlags_frame s k v f
    exact ⟨congrArg (· + 4) hpc, hrun, fun _ => hmem⟩
  cases i with
  | register op xm xn xd => exact hframe _ xd _
  | immediate op sh imm xn xd =>
    cases op with
    | add => exact ⟨rfl, rfl, fun _ => rfl⟩
    | adds | subs => exact hframe _ xd _
  | movz hw imm xd => exact hframe none xd _
  | lsl amount xn xd | lsr amount xn xd => exact hframe none xd _
  | load size imm xn xt => exact hframe none xt _
  | store => exact ⟨rfl, rfl, fun hmem => absurd hmem Bool.true_eq_false_eq_False⟩
  | b | bcond | br | cbz | cbnz | hlt => exact absurd hi Bool.false_ne_true

section Registers
variable (s : State) (j : BitVec 5)

theorem reg_register (op : Op) (xm xn xd : BitVec 5) :
    ((Instr.register op xm xn xd).exec s).reg j =
      if j = xd ∧ xd ≠ 31 then op.value (s.reg xn) (s.reg xm) else s.reg j := by
  refine (reg_setReg _ xd j _).trans ?_
  rw [reg_setFlags]

theorem reg_immediate (op : ImmediateOp) (sh : Bool) (imm : BitVec 12) (xn : BitVec 5)
    {xd : BitVec 5} (hxd : xd ≠ 31) : ((Instr.immediate op sh imm xn xd).exec s).reg j =
      if j = xd then op.op.value (s.x xn) (shifted sh imm) else s.reg j := by
  change (op.exec (shifted sh imm) xn xd s).reg j = _
  unfold ImmediateOp.exec
  dsimp only
  rw [setX_eq_setReg _ _ hxd, ite_self]
  refine (reg_setReg _ xd j _).trans ?_
  rw [reg_setFlags]
  exact if_congr (and_iff_left hxd) rfl rfl

theorem reg_bcond (cond : Cond) (d : BitVec 19) :
    ((Instr.bcond cond d).exec s).reg j = s.reg j := by
  have hx : ((Instr.bcond cond d).exec s).x = s.x := by
    dsimp only [Instr.exec]
    split <;> rfl
  unfold State.reg
  rw [hx]

end Registers

section Places
variable (base : BitVec 64) (k : ℕ)

theorem place_succ :
    base + BitVec.ofNat 64 (4 * k) + 4 = base + BitVec.ofNat 64 (4 * (k + 1)) := by
  rw [add_assoc, Nat.mul_succ, BitVec.ofNat_add]
  rfl

/-- A branch by `d` instructions. -/
theorem place_branch {k' : ℕ} {d : BitVec 19} (hd : (k' : ℤ) = k + d.toInt) :
    base + BitVec.ofNat 64 (4 * k) + 4 * d.signExtend 64 = base + BitVec.ofNat 64 (4 * k') := by
  have hk : BitVec.ofNat 64 (4 * k') = BitVec.ofInt 64 (4 * (k + d.toInt)) := by
    rw [← hd, ← BitVec.ofInt_natCast]
    push_cast
    rfl
  rw [hk, mul_add, BitVec.ofInt_add, BitVec.ofInt_mul, BitVec.ofInt_mul, BitVec.ofInt_natCast,
    add_assoc, BitVec.ofNat_mul]
  rfl

end Places

section Rules
variable {stale : Option Bool} {base : BitVec 64} {code : List Instr} {k k' : ℕ} {i : Instr}
  {P Q : Tracked → Prop} {c : Tracked}

theorem Holds.congr {s s' : State} (h : Holds base code s) (hmem : s'.mem = s.mem)
    (hrun : s'.running = s.running) : Holds base code s' := by
  refine ⟨hrun.trans h.running, h.accessible, fun k i hi j hj => ?_⟩
  exact (congrFun hmem _).trans (h.fetches k i hi j hj)

/-- The rule of a single instruction. -/
theorem leads_instr (hi : code[k]? = some i)
    (h : ∀ c, At base code k P c → Supported stale c i ∧ At base code k' Q (c.after i)) :
    Leads (Next stale) (At base code k P) 1 (At base code k' Q) := by
  refine .step fun c hc => ⟨c.after i, ?_, (h c hc).2⟩
  obtain ⟨hk, -⟩ := List.getElem?_eq_some_iff.mp hi
  have hfetch := hc.holds.fetches k i hi
  have haccess := hc.holds.accessible k hk
  rw [← hc.pc] at hfetch haccess
  exact .step i hc.holds.running haccess hfetch (h c hc).1

theorem At.next (hc : At base code k P c) (hi : i.straight = true)
    (hholds : Holds base code (i.exec c.state)) (hQ : Q (c.after i)) :
    At base code (k + 1) Q (c.after i) := by
  refine ⟨hholds, ?_, hQ⟩
  change (i.exec c.state).pc = _
  rw [(exec_frame hi c.state).1, hc.pc, place_succ]

/-- Only a store can change the code. -/
theorem At.next_of_not_store (hc : At base code k P c) (hi : i.straight = true)
    (hmem : i.isStore = false) (hQ : Q (c.after i)) : At base code (k + 1) Q (c.after i) :=
  hc.next hi (hc.holds.congr ((exec_frame hi c.state).2.2 hmem) (exec_frame hi c.state).2.1) hQ

section Branch
variable {cond : Cond} {d : BitVec 19}

theorem At.taken (hc : At base code k P c) (hmeets : c.state.flags.Meets cond)
    (hd : (k' : ℤ) = k + d.toInt) (hQ : Q (c.after (.bcond cond d))) :
    At base code k' Q (c.after (.bcond cond d)) := by
  have hexec : (Instr.bcond cond d).exec c.state =
      c.state.jump (c.state.pc + 4 * d.signExtend 64) := if_pos hmeets
  refine ⟨?_, ?_, hQ⟩
  · unfold Tracked.after
    rw [hexec]
    exact hc.holds.congr rfl rfl
  · unfold Tracked.after
    rw [hexec, ← place_branch base k hd, ← hc.pc]
    rfl

theorem At.untaken (hc : At base code k P c) (hmeets : ¬ c.state.flags.Meets cond)
    (hQ : Q (c.after (.bcond cond d))) : At base code (k + 1) Q (c.after (.bcond cond d)) := by
  have hexec : (Instr.bcond cond d).exec c.state = c.state.next := if_neg hmeets
  refine ⟨?_, ?_, hQ⟩
  · unfold Tracked.after
    rw [hexec]
    exact hc.holds.congr rfl rfl
  · unfold Tracked.after
    rw [hexec, ← place_succ, ← hc.pc]
    rfl

end Branch

section Block
variable {body : List Instr}

/-- The instructions are supported one after the other, and none of them changes the code. -/
def Performs (stale : Option Bool) (base : BitVec 64) (code : List Instr) :
    List Instr → Tracked → Prop
  | [], _ => True
  | i :: is, c => Supported stale c i ∧ Holds base code (i.exec c.state) ∧
      Performs stale base code is (c.after i)

def Tracked.through (c : Tracked) (is : List Instr) : Tracked := is.foldl Tracked.after c

/-- The rule of instructions in a row. -/
theorem leads_block (hcode : ∀ j i, body[j]? = some i → code[k + j]? = some i)
    (hbody : ∀ i ∈ body, i.straight = true)
    (h : ∀ c, At base code k P c → Performs stale base code body c ∧ Q (c.through body)) :
    Leads (Next stale) (At base code k P) body.length (At base code (k + body.length) Q) := by
  induction body generalizing k P with
  | nil => exact .skip fun c hc => ⟨hc.holds, hc.pc, (h c hc).2⟩
  | cons i body ih =>
    obtain ⟨hi, hbody⟩ := List.forall_mem_cons.mp hbody
    let P' (c : Tracked) : Prop := Performs stale base code body c ∧ Q (c.through body)
    have hfirst : Leads (Next stale) (At base code k P) 1 (At base code (k + 1) P') :=
      leads_instr (hcode 0 i rfl) fun c hc => by
        obtain ⟨⟨hs, hholds, hp⟩, hQ⟩ := h c hc
        exact ⟨hs, hc.next hi hholds ⟨hp, hQ⟩⟩
    have hrest : Leads (Next stale) (At base code (k + 1) P') body.length
        (At base code (k + 1 + body.length) Q) := by
      refine ih (fun j i' hj => ?_) hbody fun c hc => hc.state
      rw [Nat.add_assoc, Nat.add_comm 1]
      exact hcode (j + 1) i' hj
    rw [List.length_cons, Nat.add_comm body.length, ← Nat.add_assoc]
    exact hfirst.seq hrest

end Block

section Counted
variable {body : List Instr} {x : BitVec 5}

/-- SUBS Xx, Xx, #1. -/
def decrement (x : BitVec 5) : Instr := .immediate .subs false 1 x x

/-- B.NE to the first of `n` instructions in front of the decrement. -/
def again (n : ℕ) : Instr := .bcond .ne (BitVec.ofInt 19 (-(n + 1)))

/-- One round of a counted loop. -/
def Tracked.round (body : List Instr) (x : BitVec 5) (c : Tracked) : Tracked :=
  ((c.through body).after (decrement x)).after (again body.length)

theorem after_decrement (hx : x ≠ 31) {j : ℕ} (hj : j < 2 ^ 64)
    (hr : c.state.reg x = BitVec.ofNat 64 (j + 1)) :
    let c' := c.after (decrement x)
    c'.live = true ∧ c'.state.reg x = BitVec.ofNat 64 j ∧ (c'.state.flags.z = true ↔ j = 0) := by
  have hsub : c.state.x x - shifted false 1 = BitVec.ofNat 64 j := by
    have hone : shifted false 1 = 1 := by decide
    rw [hone, x_eq_reg c.state hx, hr, BitVec.ofNat_add]
    exact add_sub_cancel_right _ _
  refine ⟨Bool.or_true _, ?_, ?_⟩
  · rw [← hsub]
    exact (reg_immediate c.state x .subs false 1 x hx).trans (if_pos rfl)
  · have hflags := (setReg_setFlags_frame c.state x (c.state.x x - shifted false 1)
      (some (.ofSub (c.state.x x) (shifted false 1)))).2.2.2
    refine (iff_of_eq (congrArg (fun f : Flags => f.z = true) hflags)).trans ?_
    change (c.state.x x - shifted false 1 == 0) = true ↔ _
    rw [hsub, beq_iff_eq, ← BitVec.toNat_inj, BitVec.toNat_ofNat, Nat.mod_eq_of_lt hj]
    exact Iff.rfl

section Loop
variable (hx : x ≠ 31) (hlen : body.length < 2 ^ 18)
  (hcode : ∀ j i, body[j]? = some i → code[k + j]? = some i)
  (hdec : code[k + body.length]? = some (decrement x))
  (hagain : code[k + body.length + 1]? = some (again body.length))
  (hbody : ∀ i ∈ body, i.straight = true)
include hx hlen hcode hdec hagain hbody

/-- One round, with `j` rounds to go after it. -/
theorem leads_round {j : ℕ} (hj : j < 2 ^ 64) (h : ∀ c, At base code k P c →
      Performs stale base code body c ∧
      (c.through body).state.reg x = BitVec.ofNat 64 (j + 1) ∧ Q (c.round body x)) :
    Leads (Next stale) (At base code k P) (body.length + 2)
      (At base code (if j = 0 then k + body.length + 2 else k)
        fun c => Q c ∧ c.state.reg x = BitVec.ofNat 64 j) := by
  let P₁ (c : Tracked) : Prop := c.state.reg x = BitVec.ofNat 64 (j + 1) ∧
    Q ((c.after (decrement x)).after (again body.length))
  -- behind the decrement the zero flag tells whether this was the last round
  let P₂ (c : Tracked) : Prop := c.live = true ∧ c.state.reg x = BitVec.ofNat 64 j ∧
    (c.state.flags.z = true ↔ j = 0) ∧ Q (c.after (again body.length))
  have hblock : Leads (Next stale) (At base code k P) body.length
      (At base code (k + body.length) P₁) := leads_block hcode hbody h
  have hcount : Leads (Next stale) (At base code (k + body.length) P₁) 1
      (At base code (k + body.length + 1) P₂) := by
    refine leads_instr hdec fun c hc => ⟨⟨.inl rfl, hx, nofun, nofun⟩, ?_⟩
    obtain ⟨hlive, hreg, hz⟩ := after_decrement hx hj hc.state.1
    exact hc.next_of_not_store rfl rfl ⟨hlive, hreg, hz, hc.state.2⟩
  refine hblock.seq (hcount.seq (leads_instr hagain fun c hc => ?_))
  obtain ⟨hlive, hreg, hz, hQ⟩ := hc.state
  have hreg' : (c.after (again body.length)).state.reg x = BitVec.ofNat 64 j :=
    (reg_bcond c.state x _ _).trans hreg
  refine ⟨⟨hlive, .inr (.inl rfl)⟩, ?_⟩
  by_cases hj0 : j = 0
  · rw [if_pos hj0]
    exact hc.untaken (fun hne => absurd (hz.mpr hj0) (Bool.eq_false_iff.mp hne)) ⟨hQ, hreg'⟩
  · rw [if_neg hj0]
    have hne : c.state.flags.Meets .ne := Bool.eq_false_iff.mpr (mt hz.mp hj0)
    refine hc.taken hne ?_ ⟨hQ, hreg'⟩
    rw [BitVec.toInt_ofInt, Int.bmod_eq_of_le (by omega) (by omega)]
    push_cast
    omega

/-- A counted loop goes through its body as often as its register says, 0 standing for `2 ^ 64`. -/
theorem leads_counted {I : ℕ → Tracked → Prop} {n : ℕ} (hpos : 0 < n) (hn : n ≤ 2 ^ 64)
    (h : ∀ j < n, ∀ c, At base code k
      (fun c => I (j + 1) c ∧ c.state.reg x = BitVec.ofNat 64 (j + 1)) c →
        Performs stale base code body c ∧
          (c.through body).state.reg x = BitVec.ofNat 64 (j + 1) ∧ I j (c.round body x)) :
    Leads (Next stale) (At base code k fun c => I n c ∧ c.state.reg x = BitVec.ofNat 64 n)
      ((body.length + 2) * n) (At base code (k + body.length + 2) fun c => I 0 c) := by
  obtain ⟨n, rfl⟩ : ∃ l, n = l + 1 := ⟨n - 1, by omega⟩
  have hround (j : ℕ) (hj : j < n + 1) := leads_round hx hlen hcode hdec hagain hbody
    (by omega : j < 2 ^ 64) (h j hj)
  let J (j : ℕ) : Tracked → Prop := At base code k
    fun c => I (j + 1) c ∧ c.state.reg x = BitVec.ofNat 64 (j + 1)
  have hrounds : Leads (Next stale) (J n) ((body.length + 2) * n) (J 0) := by
    refine Leads.counted fun j hj => ?_
    have hnext := hround (j + 1) (by omega)
    rwa [if_neg (Nat.succ_ne_zero j)] at hnext
  have hlast := hround 0 (by omega)
  rw [if_pos rfl] at hlast
  rw [Nat.mul_succ]
  exact hrounds.seq (hlast.mono fun c hc => ⟨hc.holds, hc.pc, hc.state.1⟩)

end Loop

end Counted

end Rules

end ArmSim.Arch
