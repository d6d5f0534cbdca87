import ArmSim.Shell.Console

/-! The dumpsim file as a format. A dump ends where its own text says so, and every value in it
can be read back, so the file of a whole session tells what was dumped and in which order. -/
namespace ArmSim.Verify
open Shell Text Codec

/-- What one command appends to the dumpsim file. -/
inductive Dump
  | registers (count : BitVec 32) (s : CpuState)
  | memory (start stop : BitVec 32) (lines : List (BitVec 32 × BitVec 32))

def Dump.text : Dump → List Char
  | registers count s => rdumpText count s
  | memory start stop lines => mdumpText start stop lines

section Numerals
variable {w : ℕ} {l : List Char} (hl : l ≠ []) (hends : Ends l)
include hl hends

theorem prefixCode_hex : PrefixCode fun v : BitVec w => hexText v.toNat ++ l :=
  prefixCode_numeral (fun v => (v.toNat : ℤ)) (fun v => numeral_hexText v.toNat)
    (Nat.cast_injective.comp BitVec.toNat_injective) hl hends

theorem prefixCode_paddedHex (width : ℕ) :
    PrefixCode fun v : BitVec w => paddedHexText width v.toNat ++ l :=
  prefixCode_numeral (fun v => (v.toNat : ℤ)) (fun v => numeral_paddedHexText width v.toNat)
    (Nat.cast_injective.comp BitVec.toNat_injective) hl hends

theorem prefixCode_unsigned : PrefixCode fun v : BitVec w => decimalText v.toNat ++ l :=
  prefixCode_numeral (fun v => (v.toNat : ℤ)) (fun v => numeral_decimalText v.toNat)
    (Nat.cast_injective.comp BitVec.toNat_injective) hl hends

theorem prefixCode_signed : PrefixCode fun v : BitVec w => decimalText v.toInt ++ l :=
  prefixCode_numeral BitVec.toInt (fun v => numeral_decimalText v.toInt)
    (fun _ _ => BitVec.eq_of_toInt_eq) hl hends

end Numerals

theorem prefixCode_registerText (k : Fin armRegs) : PrefixCode (registerText k) := by
  intro v v' s t h
  unfold registerText at h
  simp only [List.flatten_cons, List.flatten_nil, List.append_assoc, List.append_cancel_left_eq,
    List.nil_append] at h
  exact (prefixCode_hex (by decide) (by decide)).cancel h

theorem prefixCode_wordText : PrefixCode wordText := by
  rintro ⟨a, v⟩ ⟨a', v'⟩ s t h
  unfold wordText at h
  simp only [List.flatten_cons, List.flatten_nil, List.append_assoc, List.append_cancel_left_eq,
    List.nil_append] at h
  obtain ⟨ha, h⟩ := (prefixCode_paddedHex (by decide) (by decide) 8).cancel h
  obtain ⟨-, h⟩ := (prefixCode_signed (by decide) (by decide)).cancel h
  obtain ⟨hv, h⟩ := (prefixCode_hex (by decide) (by decide)).cancel h
  exact ⟨Prod.ext ha hv, h⟩

/-- The lines end where the empty line follows. -/
theorem prefixCode_lines :
    PrefixCode fun lines : List (BitVec 32 × BitVec 32) =>
      lines.flatMap wordText ++ "\n".toList := by
  refine prefixCode_wordText.list fun line s t h => ?_
  have hspace : ' ' = '\n' := (List.cons.inj h).1
  exact absurd hspace (by decide)

/-- The registers are told one by one, in the order of the loop. -/
theorem prefixCode_rdumpText :
    PrefixCode fun p : BitVec 32 × CpuState => rdumpText p.1 p.2 := by
  rintro ⟨count, x⟩ ⟨count', x'⟩ s t h
  unfold rdumpText at h
  simp only [List.flatten_cons, List.flatten_nil, List.append_assoc, List.append_cancel_left_eq,
    List.nil_append] at h
  obtain ⟨hcount, h⟩ := (prefixCode_unsigned (by decide) (by decide)).cancel h
  obtain ⟨hpc, h⟩ := (prefixCode_hex (by decide) (by decide)).cancel (List.append_cancel_left h)
  obtain ⟨hregs, h⟩ := prefixCode_family prefixCode_registerText (List.finRange armRegs)
    (List.append_cancel_left h)
  obtain ⟨hN, h⟩ := (prefixCode_signed (by decide) (by decide)).cancel (List.append_cancel_left h)
  obtain ⟨hZ, h⟩ := (prefixCode_signed (by decide) (by decide)).cancel (List.append_cancel_left h)
  have hregs' : x.regs = x'.regs := by
    apply Vector.ext
    intro k hk
    exact hregs ⟨k, hk⟩ (List.mem_finRange _)
  exact ⟨Prod.ext hcount (CpuState.ext hpc hregs' hN hZ), List.append_cancel_left h⟩

theorem prefixCode_mdumpText :
    PrefixCode fun p : BitVec 32 × BitVec 32 × List (BitVec 32 × BitVec 32) =>
      mdumpText p.1 p.2.1 p.2.2 := by
  rintro ⟨start, stop, lines⟩ ⟨start', stop', lines'⟩ s t h
  unfold mdumpText at h
  simp only [List.flatten_cons, List.flatten_nil, List.append_assoc, List.append_cancel_left_eq,
    List.nil_append] at h
  obtain ⟨hstart, h⟩ := (prefixCode_paddedHex (by decide) (by decide) 8).cancel h
  obtain ⟨hstop, h⟩ := (prefixCode_paddedHex (by decide) (by decide) 8).cancel h
  obtain ⟨hlines, h⟩ := prefixCode_lines.cancel (List.append_cancel_left h)
  exact ⟨Prod.ext hstart (Prod.ext hstop hlines), h⟩

/-- The headings of the two kinds of dump differ. -/
theorem prefixCode_dump : PrefixCode Dump.text := by
  intro d d' s t h
  have hhead (count : BitVec 32) (x : CpuState) (start stop : BitVec 32)
      (lines : List (BitVec 32 × BitVec 32)) (s t : List Char) :
      rdumpText count x ++ s ≠ mdumpText start stop lines ++ t := by
    intro h
    have hC : 'C' = 'M' := (List.cons.inj (List.cons.inj h).2).1
    exact absurd hC (by decide)
  cases d with
  | registers count x =>
    cases d' with
    | registers count' x' =>
      obtain ⟨hd, hst⟩ := prefixCode_rdumpText (count, x) (count', x') s t h
      obtain ⟨rfl, rfl⟩ := Prod.mk.inj hd
      exact ⟨rfl, hst⟩
    | memory => exact absurd h (hhead _ _ _ _ _ _ _)
  | memory start stop lines =>
    cases d' with
    | registers => exact absurd h.symm (hhead _ _ _ _ _ _ _)
    | memory start' stop' lines' =>
      obtain ⟨hd, hst⟩ := prefixCode_mdumpText (start, stop, lines) (start', stop', lines') s t h
      obtain ⟨rfl, hrest⟩ := Prod.mk.inj hd
      obtain ⟨rfl, rfl⟩ := Prod.mk.inj hrest
      exact ⟨rfl, hst⟩

theorem Dump.text_ne_nil (d : Dump) : d.text ≠ [] := by
  cases d <;> exact List.cons_ne_nil _ _

end ArmSim.Verify
