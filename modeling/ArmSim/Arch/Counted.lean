import ArmSim.Arch.Program
import ArmSim.Arch.Run

/-! Counted loops on the simulator. Whatever straight-line code is in the body, the simulator goes
through it as often as the counting register says, and halts behind the loop. -/
namespace ArmSim.Arch
open Shell Sim Spec Verify Loop Simulation Hoare Bytes

/-- A program that has just been loaded is in front of its first instruction. -/
theorem at_boot {code : List Instr} (hlen : code.length ≤ 0x40000) {P : Tracked → Prop}
    (hP : P (boot [code.map Instr.word])) :
    At memTextStart code 0 P (boot [code.map Instr.word]) := by
  refine ⟨⟨rfl, fun k hk => ⟨.text, by decide, fun j hj => ?_⟩, fun k i hi j hj => ?_⟩, ?_, hP⟩
  · have hk : k < 0x40000 := by omega
    change Region.text.contains (textWord k + BitVec.ofNat 64 j) = true
    rw [Region.contains_add_of_aligned _ (textWord_aligned k) hj]
    exact findRegion_eq_some.mp (findRegion_textWord hk)
  · obtain ⟨hk, -⟩ := List.getElem?_eq_some_iff.mp hi
    have hword := toNat_textWord (by omega : k < 0x40000)
    have hstart : memTextStart.toNat = 0x400000 := Region.toNat_text.1
    have haddr : (textWord k + BitVec.ofNat 64 j).toNat = 0x400000 + 4 * k + j := by
      rw [BitVec.toNat_add, hword, BitVec.toNat_ofNat]
      omega
    have hindex : (textWord k + BitVec.ofNat 64 j - memTextStart).toNat / 4 = k := by
      rw [BitVec.toNat_sub, haddr, hstart]
      omega
    have hlane : (textWord k + BitVec.ofNat 64 j).toNat % 4 = j := by omega
    have hlast : lastWord [code.map Instr.word] k = some i.word := by
      unfold lastWord
      simp [hi]
    change image [code.map Instr.word] (textWord k + BitVec.ofNat 64 j) = _
    unfold image
    rw [hindex, hlane, hlast]
    rfl
  · exact (BitVec.add_zero _).symm

section Go
variable {u : Machine → Indeterminate} {stale : Option Bool} {base : BitVec 64} {code : List Instr}
  {k n : ℕ} {P Q : Tracked → Prop} {c : Tracked} {m : Machine}

theorem run_of_leads (h : Leads (Next stale) P n (At base code k Q)) {imm : BitVec 16}
    (hhlt : code[k]? = some (.hlt imm)) (hP : P c) :
    ∃ c', Q c' ∧ Run (Next stale) (n + 1) c (c'.after (.hlt imm)) := by
  obtain ⟨c', hrun, hc'⟩ := h c hP
  obtain ⟨hk, -⟩ := List.getElem?_eq_some_iff.mp hhlt
  have hfetch := hc'.holds.fetches k _ hhlt
  have haccess := hc'.holds.accessible k hk
  rw [← hc'.pc] at hfetch haccess
  have hnext : Next stale c' (c'.after (.hlt imm)) :=
    .step (.hlt imm) hc'.holds.running haccess hfetch trivial
  exact ⟨c', hc'.state, hrun.append (.step hnext (.done _))⟩

/-- What leads to an HLT makes `go` halt, one cycle later. -/
theorem go_of_leads (hu : ∀ m, Leftover (u m) stale)
    (h : Leads (Next stale) P n (At base code k Q)) {imm : BitVec 16}
    (hhlt : code[k]? = some (.hlt imm)) (hP : P c) (hR : Represents c m) :
    ∃ c' m', Q c' ∧ Represents (c'.after (.hlt imm)) m' ∧ HaltsWith u (n + 1) m m' := by
  obtain ⟨c', hQ, hrun⟩ := run_of_leads h hhlt hP
  obtain ⟨m', hR', hhalts⟩ := go_halts hu hR hrun rfl
  exact ⟨c', m', hQ, hR', hhalts⟩

variable {body : List Instr} {x : BitVec 5}

/-- A loop that counts a register down to zero around a body without branches, with HLT behind it.
Whatever the body does, as long as the simulator supports it and it leaves the code and the counter
alone, `go` performs it `n` times, where `n` is the value of the register, or `2 ^ 64` for 0, keeps
the invariant of the rounds, and halts after `(body.length + 2) * n + 1` cycles. -/
theorem go_counted (hu : ∀ m, Leftover (u m) stale) (hx : x ≠ 31)
    (hlen : body.length < 2 ^ 18) (hcode : ∀ j i, body[j]? = some i → code[k + j]? = some i)
    (hdec : code[k + body.length]? = some (decrement x))
    (hagain : code[k + body.length + 1]? = some (again body.length))
    {imm : BitVec 16} (hhlt : code[k + body.length + 2]? = some (.hlt imm))
    (hbody : ∀ i ∈ body, i.straight = true) {I : ℕ → Tracked → Prop} (hpos : 0 < n)
    (hn : n ≤ 2 ^ 64) (hround : ∀ j < n, ∀ c, At base code k
      (fun c => I (j + 1) c ∧ c.state.reg x = BitVec.ofNat 64 (j + 1)) c →
        Performs stale base code body c ∧
          (c.through body).state.reg x = BitVec.ofNat 64 (j + 1) ∧ I j (c.round body x))
    (hc : At base code k (fun c => I n c ∧ c.state.reg x = BitVec.ofNat 64 n) c)
    (hR : Represents c m) :
    ∃ c' m', I 0 c' ∧ Represents (c'.after (.hlt imm)) m' ∧
      HaltsWith u ((body.length + 2) * n + 1) m m' :=
  go_of_leads hu (leads_counted hx hlen hcode hdec hagain hbody hpos hn hround) hhlt hc hR

end Go

/-- ADD X1, X1, #7 in a loop that counts X0. -/
def addLoop : List Instr := [.immediate .add false 7 1 1, decrement 0, again 1, .hlt 0]

theorem round_addLoop {base : BitVec 64} {v : BitVec 64} {j : ℕ} (c : Tracked)
    (hc : At base addLoop 0 (fun c => c.state.reg 1 + BitVec.ofNat 64 (7 * (j + 1)) = v ∧
      c.state.reg 0 = BitVec.ofNat 64 (j + 1)) c) :
    Performs none base addLoop [.immediate .add false 7 1 1] c ∧
      (c.through [.immediate .add false 7 1 1]).state.reg 0 = BitVec.ofNat 64 (j + 1) ∧
      (c.round [.immediate .add false 7 1 1] 0).state.reg 1 + BitVec.ofNat 64 (7 * j) = v := by
  have hreg (k : BitVec 5) : (c.through [.immediate .add false 7 1 1]).state.reg k =
      if k = 1 then c.state.reg 1 + 7 else c.state.reg k :=
    reg_immediate c.state k .add false 7 1 (by decide)
  refine ⟨⟨⟨.inl rfl, by decide, fun _ => by decide, nofun⟩, ?_, trivial⟩, ?_, ?_⟩
  · exact hc.holds.congr rfl rfl
  · rw [hreg, if_neg (by decide)]
    exact hc.state.2
  · have hround : (c.round [.immediate .add false 7 1 1] 0).state.reg 1 = c.state.reg 1 + 7 := by
      refine (reg_bcond _ 1 _ _).trans ((reg_immediate _ 1 .subs false 1 0 (by decide)).trans ?_)
      rw [if_neg (by decide), hreg, if_pos rfl]
    rw [hround, ← hc.state.1, Nat.mul_succ, Nat.add_comm, BitVec.ofNat_add, ← add_assoc]
    rfl

/-- From X0 = 0, so that the loop is performed `2 ^ 64` times. -/
theorem go_counted_addLoop :
    ∃ (c' : Tracked) (m' : Machine), c'.state.reg 1 + BitVec.ofNat 64 (7 * 0) = 0 ∧
    Represents (c'.after (.hlt 0)) m' ∧ HaltsWith (fun _ => .zeroed)
      (([Instr.immediate .add false 7 1 1].length + 2) * 2 ^ 64 + 1)
      (initializeMachine (fun _ _ => 0) [addLoop.map Instr.word]) m' := by
  have hcode : ∀ j i, [Instr.immediate .add false 7 1 1][j]? = some i →
      addLoop[0 + j]? = some i := by
    intro j i hi
    cases j with
    | zero => exact hi
    | succ j => exact absurd hi (by simp)
  have hboot : Represents (boot [addLoop.map Instr.word])
      (initializeMachine (fun _ _ => 0) [addLoop.map Instr.word]) :=
    represents_boot _ (List.cons_ne_nil _ _) (by simp [addLoop])
  have hat : At memTextStart addLoop 0 (fun c => c.state.reg 1 + BitVec.ofNat 64 (7 * 2 ^ 64) = 0 ∧
      c.state.reg 0 = BitVec.ofNat 64 (2 ^ 64)) (boot [addLoop.map Instr.word]) :=
    at_boot (by decide) ⟨by decide, by decide⟩
  exact go_counted (I := fun j c => c.state.reg 1 + BitVec.ofNat 64 (7 * j) = 0)
    (fun _ => leftover_none) (by decide) (by decide) hcode rfl rfl rfl
    (List.forall_mem_singleton.mpr rfl) (by decide) le_rfl (fun j _ c => round_addLoop c) hat hboot

end ArmSim.Arch
