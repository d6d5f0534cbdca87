import ArmSim.Arch.Assembled
import ArmSim.Arch.Counted

/-! A program that is verified for all inputs: the subtractive algorithm of Euclid, its operands
typed at the prompt, its result read from the dumpsim file. -/
namespace ArmSim.Arch
open Shell Sim Spec Verify Loop Simulation Hoare Text Inputs

/-- CMP X0, X1 is followed by the two subtractions, each of which goes back to it, and by HLT. -/
def euclid : List Instr :=
  [.register .subs 1 0 31, .bcond .eq 6, .bcond .lt 3, .register .subs 1 0 0, .bcond .ne (-4),
    .register .subs 0 1 1, .bcond .ne (-6), .hlt 0]

/-- The operands in X0 and X1. -/
def Operands (a b : ℕ) (c : Tracked) : Prop :=
  c.state.reg 0 = BitVec.ofNat 64 a ∧ c.state.reg 1 = BitVec.ofNat 64 b

section Steps
variable {stale : Option Bool} {base : BitVec 64} {k k' a b : ℕ} {c : Tracked}

theorem toInt_ofNat {a : ℕ} (ha : a < 2 ^ 63) : (BitVec.ofNat 64 a).toInt = a := by
  rw [BitVec.toInt_eq_toNat_cond, BitVec.toNat_ofNat, Nat.mod_eq_of_lt (by omega),
    if_pos (by omega)]

theorem ofNat_sub {a b : ℕ} (h : b ≤ a) :
    BitVec.ofNat 64 a - BitVec.ofNat 64 b = BitVec.ofNat 64 (a - b) := by
  obtain ⟨d, rfl⟩ := Nat.exists_eq_add_of_le h
  rw [Nat.add_sub_cancel_left, BitVec.ofNat_add]
  exact add_sub_cancel_left _ _

theorem Operands.bcond (h : Operands a b c) (cond : Cond) (d : BitVec 19) :
    Operands a b (c.after (.bcond cond d)) :=
  ⟨(reg_bcond c.state 0 cond d).trans h.1, (reg_bcond c.state 1 cond d).trans h.2⟩

/-- Behind the comparison. -/
structure Compared (a b : ℕ) (c : Tracked) : Prop where
  operands : Operands a b c
  live : c.live = true
  flags : c.state.flags = .ofSub (BitVec.ofNat 64 a) (BitVec.ofNat 64 b)

theorem Compared.bcond (h : Compared a b c) (cond : Cond) (d : BitVec 19) :
    Compared a b (c.after (.bcond cond d)) := by
  refine ⟨h.operands.bcond cond d, h.live, ?_⟩
  rw [← h.flags]
  unfold Tracked.after
  dsimp only [Instr.exec]
  split <;> rfl

theorem Compared.meets_iff (h : Compared a b c) (ha : a < 2 ^ 63) (hb : b < 2 ^ 63)
    (cond : Cond) : c.state.flags.Meets cond ↔ cond.Holds a b := by
  rw [h.flags, Flags.meets_ofSub, toInt_ofNat ha, toInt_ofNat hb]

theorem Compared.supported (h : Compared a b c) (ha : a < 2 ^ 63) (hb : b < 2 ^ 63)
    (cond : Cond) (d : BitVec 19) : Supported stale c (.bcond cond d) := by
  refine ⟨h.live, .inr (.inr ?_)⟩
  rw [h.flags]
  unfold Flags.ofSub BitVec.ssubOverflow
  rw [toInt_ofNat ha, toInt_ofNat hb]
  simp
  omega

theorem leads_compare : Leads (Next stale) (At base euclid 0 (Operands a b)) 1
    (At base euclid 1 (Compared a b)) := by
  refine leads_instr rfl fun c hc => ⟨⟨nofun, .inr (.inl rfl)⟩, ?_⟩
  obtain ⟨h0, h1⟩ := hc.state
  have hreg (j : BitVec 5) : (c.after (.register .subs 1 0 31)).state.reg j = c.state.reg j :=
    (reg_register c.state j .subs 1 0 31).trans (if_neg fun h => h.2 rfl)
  refine hc.next_of_not_store rfl rfl ⟨⟨(hreg 0).trans h0, (hreg 1).trans h1⟩, Bool.or_true _, ?_⟩
  rw [← h0, ← h1]
  exact (setReg_setFlags_frame c.state 31 _ _).2.2.2

/-- One operand is subtracted from the other, and as they differ the loop goes back. -/
theorem leads_subtract {xm xn : BitVec 5} {d : BitVec 19} {v : ℕ} (hpos : 0 < v)
    (hv : v < 2 ^ 63) (hsub : euclid[k]? = some (.register .subs xm xn xn))
    (hback : euclid[k + 1]? = some (.bcond .ne d)) (hd : (k' : ℤ) = (k + 1 : ℕ) + d.toInt)
    {P Q : Tracked → Prop} (hP : ∀ c, P c → c.state.reg xn - c.state.reg xm = BitVec.ofNat 64 v ∧
      Q (c.after (.register .subs xm xn xn)))
    (hQ : ∀ c, Q c → Q (c.after (.bcond .ne d))) :
    Leads (Next stale) (At base euclid k P) 2 (At base euclid k' Q) := by
  let P₁ (c : Tracked) : Prop := c.live = true ∧ c.state.flags.Meets .ne ∧ Q c
  have hfirst : Leads (Next stale) (At base euclid k P) 1 (At base euclid (k + 1) P₁) := by
    refine leads_instr hsub fun c hc => ⟨⟨nofun, .inr (.inl rfl)⟩, ?_⟩
    obtain ⟨hv', hQ'⟩ := hP c hc.state
    refine hc.next_of_not_store rfl rfl ⟨Bool.or_true _, ?_, hQ'⟩
    have hflags := (setReg_setFlags_frame c.state xn (c.state.reg xn - c.state.reg xm)
      (some (.ofSub (c.state.reg xn) (c.state.reg xm)))).2.2.2
    refine (congrArg (fun f : Flags => f.z) hflags).trans ?_
    change (c.state.reg xn - c.state.reg xm == 0) = false
    rw [hv', beq_eq_false_iff_ne, ne_eq, ← BitVec.toNat_inj, BitVec.toNat_ofNat,
      Nat.mod_eq_of_lt (by omega)]
    exact hpos.ne'
  refine hfirst.seq (leads_instr hback fun c hc => ?_)
  obtain ⟨hlive, hne, hc'⟩ := hc.state
  exact ⟨⟨hlive, .inr (.inl rfl)⟩, hc.taken hne hd (hQ c hc')⟩

theorem leads_equal (ha : a < 2 ^ 63) :
    Leads (Next stale) (At base euclid 1 (Compared a a)) 1 (At base euclid 7 (Operands a a)) :=
  leads_instr rfl fun _ hc => ⟨hc.state.supported ha ha _ _,
    hc.taken ((hc.state.meets_iff ha ha .eq).mpr rfl) rfl (hc.state.operands.bcond _ _)⟩

theorem leads_unequal (ha : a < 2 ^ 63) (hb : b < 2 ^ 63) (hne : a ≠ b) :
    Leads (Next stale) (At base euclid 1 (Compared a b)) 1 (At base euclid 2 (Compared a b)) := by
  refine leads_instr rfl fun c hc => ⟨hc.state.supported ha hb _ _, ?_⟩
  refine hc.untaken (fun heq => hne ?_) (hc.state.bcond _ _)
  exact Int.ofNat_inj.mp ((hc.state.meets_iff ha hb .eq).mp heq)

theorem leads_less (hb : b < 2 ^ 63) (hlt : a < b) :
    Leads (Next stale) (At base euclid 2 (Compared a b)) 1 (At base euclid 5 (Operands a b)) := by
  have ha : a < 2 ^ 63 := by omega
  refine leads_instr rfl fun c hc => ⟨hc.state.supported ha hb _ _, ?_⟩
  exact hc.taken ((hc.state.meets_iff ha hb .lt).mpr (Int.ofNat_lt.mpr hlt)) rfl
    (hc.state.operands.bcond _ _)

theorem leads_greater (ha : a < 2 ^ 63) (hlt : b < a) :
    Leads (Next stale) (At base euclid 2 (Compared a b)) 1 (At base euclid 3 (Operands a b)) := by
  have hb : b < 2 ^ 63 := by omega
  refine leads_instr rfl fun c hc => ⟨hc.state.supported ha hb _ _, ?_⟩
  refine hc.untaken (fun hless => ?_) (hc.state.operands.bcond _ _)
  have hless := Int.ofNat_lt.mp ((hc.state.meets_iff ha hb .lt).mp hless)
  omega

theorem leads_right (hpos : 0 < a) (hb : b < 2 ^ 63) (hlt : a < b) :
    Leads (Next stale) (At base euclid 5 (Operands a b)) 2
      (At base euclid 0 (Operands a (b - a))) := by
  refine leads_subtract (by omega : 0 < b - a) (by omega) rfl rfl rfl
    (fun c hc => ?_) fun c hc => hc.bcond _ _
  have hdiff : c.state.reg 1 - c.state.reg 0 = BitVec.ofNat 64 (b - a) := by
    rw [hc.1, hc.2, ofNat_sub hlt.le]
  have hreg (j : BitVec 5) := reg_register c.state j .subs 0 1 1
  refine ⟨hdiff, (hreg 0).trans ?_, (hreg 1).trans ?_⟩
  · rw [if_neg (by decide)]
    exact hc.1
  · rw [if_pos (by decide)]
    exact hdiff

theorem leads_left (hpos : 0 < b) (ha : a < 2 ^ 63) (hlt : b < a) :
    Leads (Next stale) (At base euclid 3 (Operands a b)) 2
      (At base euclid 0 (Operands (a - b) b)) := by
  refine leads_subtract (by omega : 0 < a - b) (by omega) rfl rfl rfl
    (fun c hc => ?_) fun c hc => hc.bcond _ _
  have hdiff : c.state.reg 0 - c.state.reg 1 = BitVec.ofNat 64 (a - b) := by
    rw [hc.1, hc.2, ofNat_sub hlt.le]
  have hreg (j : BitVec 5) := reg_register c.state j .subs 1 0 0
  refine ⟨hdiff, (hreg 0).trans ?_, (hreg 1).trans ?_⟩
  · rw [if_pos (by decide)]
    exact hdiff
  · rw [if_neg (by decide)]
    exact hc.2

/-- The operands of a round, with their greatest common divisor. -/
structure Round (g : ℕ) where
  a : ℕ
  b : ℕ
  ha : 0 < a ∧ a < 2 ^ 63
  hb : 0 < b ∧ b < 2 ^ 63
  gcd : a.gcd b = g

theorem leads_euclid {g : ℕ} (p : Round g) :
    ∃ n, Leads (Next stale) (At base euclid 0 (Operands p.a p.b)) n
      (At base euclid 7 (Operands g g)) := by
  refine Leads.loop (I := fun p : Round g => At base euclid 0 (Operands p.a p.b))
    (measure fun p : Round g => p.a + p.b).wf (fun ⟨a, b, ha, hb, hg⟩ => ?_) p
  rcases lt_trichotomy a b with hlt | rfl | hgt
  · have hg' : a.gcd (b - a) = g := by rw [Nat.gcd_sub_self_right hlt.le, hg]
    have hless : a + (b - a) < a + b := by omega
    exact ⟨_, .inr ⟨⟨a, b - a, ha, by omega, hg'⟩, hless,
      leads_compare.seq ((leads_unequal ha.2 hb.2 hlt.ne).seq ((leads_less hb.2 hlt).seq
        (leads_right ha.1 hb.2 hlt)))⟩⟩
  · obtain rfl : a = g := (Nat.gcd_self a).symm.trans hg
    exact ⟨_, .inl (leads_compare.seq (leads_equal ha.2))⟩
  · have hg' : (a - b).gcd b = g := by rw [Nat.gcd_sub_self_left hgt.le, hg]
    have hless : a - b + b < a + b := by omega
    exact ⟨_, .inr ⟨⟨a - b, b, by omega, hb, hg'⟩, hless,
      leads_compare.seq ((leads_unequal ha.2 hb.2 hgt.ne').seq ((leads_greater ha.2 hgt).seq
        (leads_left hb.1 ha.2 hgt)))⟩⟩

end Steps

section Main
variable {e : Environment} {slack : Memory} {lines : List (List Char)}
  {stdin tail : List Char} {a b : BitVec 64}

/-- The session that computes a greatest common divisor. -/
theorem story_euclid (stale : Option Bool) (ha : 0 < a.toInt) (hb : 0 < b.toInt) :
    ∃ n c, c.state.reg 0 = BitVec.ofNat 64 (a.toNat.gcd b.toNat) ∧
      Story stale (boot [euclid.map Instr.word]) 0 [.input 0 a, .input 1 b, .go, .rdump]
        [.registers n c] := by
  have hpos {v : BitVec 64} (hv : 0 < v.toInt) : 0 < v.toNat ∧ v.toNat < 2 ^ 63 := by
    rw [BitVec.toInt_eq_toNat_cond] at hv
    have hlt := v.isLt
    split at hv <;> omega
  let c₁ : Tracked := { boot [euclid.map Instr.word] with
    state := (boot [euclid.map Instr.word]).state.setX 0 a }
  let c₂ : Tracked := { c₁ with state := c₁.state.setX 1 b }
  have hboot : At memTextStart euclid 0 (fun _ => True) (boot [euclid.map Instr.word]) :=
    at_boot (by decide) trivial
  have hat : At memTextStart euclid 0 (Operands a.toNat b.toNat) c₂ := by
    refine ⟨hboot.holds.congr rfl rfl, hboot.pc, ?_, ?_⟩
    · rw [BitVec.ofNat_toNat, BitVec.setWidth_eq]
      rfl
    · rw [BitVec.ofNat_toNat, BitVec.setWidth_eq]
      rfl
  let g := a.toNat.gcd b.toNat
  obtain ⟨n, hleads⟩ : ∃ n, Leads (Next stale)
      (At memTextStart euclid 0 (Operands a.toNat b.toNat)) n
      (At memTextStart euclid 7 (Operands g g)) :=
    leads_euclid ⟨a.toNat, b.toNat, hpos ha, hpos hb, rfl⟩
  obtain ⟨c₃, hc₃, hrun⟩ := run_of_leads hleads rfl hat
  have hstory : Story stale (boot [euclid.map Instr.word]) 0
      [.input ((0 : BitVec 5).setWidth 32) a, .input ((1 : BitVec 5).setWidth 32) b, .go, .rdump]
      [.registers (0 + 0 + 0 + (n + 1)) (c₃.after (.hlt 0))] :=
    .command (.input (by decide)) (.command (.input (by decide))
      (.command (.go hrun rfl) (.command .rdump .done)))
  exact ⟨_, c₃.after (.hlt 0), hc₃.1, hstory⟩

/-- However the session is typed, and whichever script makes the program file, X0 is the greatest
common divisor of the two operands in the registers that the dumpsim file shows, for all positive
operands. -/
theorem euclid_session (hopen : e.dumpsimOpens = true) (hl : Listing (euclid.map Instr.word) lines)
    (ha : 0 < a.toInt) (hb : 0 < b.toInt)
    (htyped : Typed [.input 0 a, .input 1 b, .go, .rdump] stdin tail) :
    ∃ (count : BitVec 32) (x : CpuState), x.reg 0 = BitVec.ofNat 64 (a.toNat.gcd b.toNat) ∧
      ∀ script ∈ [asm2hex, asm2hex3], ∃ enough, ∀ fuel ≥ enough,
        (main e slack [some (script lines)] stdin fuel 4).map (·.dumpsim) =
          .ok (rdumpText count x) := by
  obtain ⟨n, c, hc, hstory⟩ := story_euclid none ha hb
  have hlen : ∀ words ∈ [euclid.map Instr.word], words.length ≤ 0x40000 :=
    List.forall_mem_singleton.mpr (by decide)
  have hboot := represents_boot slack (List.cons_ne_nil _ _) hlen
  obtain ⟨ds, m, ht, hds⟩ :=
    hstory.transcript (fun _ => leftover_none) hboot (initializeMachine_instructionCount _ _)
  cases hds with
  | cons hd hnil =>
    cases hnil
    cases hd with
    | @registers _ _ x hx =>
      refine ⟨BitVec.ofNat 32 n, x, (hx.reg 0).trans hc, fun script hscript => ?_⟩
      have hreads := reads_scripts e hscript (.cons hl .nil)
      obtain ⟨enough, hrun⟩ := main_of_transcript hreads (List.cons_ne_nil _ _) hopen htyped ht
      refine ⟨enough, fun fuel hfuel => (hrun fuel hfuel).trans ?_⟩
      rw [dumpText, List.flatMap_singleton]
      rfl

end Main

/-- The lines of the program, its labels and mnemonics left out. -/
def euclidLines : List (List Char) := euclid.map fun i =>
  "x:".toList ++ '\t' :: (paddedHexText 8 i.word.toNat ++ [' '] ++ '\t' :: [])

theorem listing_euclidLines : Listing (euclid.map Instr.word) euclidLines := by
  have hline (code : List Instr) : Listing (code.map Instr.word) (code.map fun i =>
      "x:".toList ++ '\t' :: (paddedHexText 8 i.word.toNat ++ [' '] ++ '\t' :: [])) := by
    induction code with
    | nil => exact .nil
    | cons i code ih =>
      exact .word (.word i.word (by decide) rfl (List.forall_mem_singleton.mpr rfl)) ih
  exact hline euclid

/-- The greatest common divisor of 12 and 18. -/
theorem euclid_session_twelve : ∃ (stdin : List Char) (count : BitVec 32) (x : CpuState),
    x.reg 0 = BitVec.ofNat 64 ((12 : BitVec 64).toNat.gcd (18 : BitVec 64).toNat) ∧
      ∀ script ∈ [asm2hex, asm2hex3], ∃ enough, ∀ fuel ≥ enough,
        (main wrapping (fun _ _ => 0) [some (script euclidLines)] stdin fuel 4).map (·.dumpsim) =
          .ok (rdumpText count x) := by
  obtain ⟨stdin, -, htyped⟩ := exists_typed [.input 0 12, .input 1 18, .go, .rdump]
  exact ⟨stdin, euclid_session rfl listing_euclidLines (by decide)
    (by decide) htyped⟩

end ArmSim.Arch
