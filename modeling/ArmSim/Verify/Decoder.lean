import ArmSim.Core.Lookup
import ArmSim.Sim.Decode
import ArmSim.Spec.Pattern
import Mathlib.Tactic.Positivity

/-! Which row of the table a word selects. The four passes are one multi-pass search by
opcode; with the concrete table, every cross hit between passes is a finite check on the
27 literals. -/
namespace ArmSim.Verify
open Sim Spec Lookup

/-- The row at which the search stops, if any pass finds one. -/
def selectedRow (w : BitVec 32) : Option Instruction :=
  firstHit Instruction.opcode opcodeTable [opcode21 w, opcode26 w, opcode24 w, opcode22 w]

private theorem findOpcode_eq_lookup (x : BitVec 32) :
    findOpcode x = lookup Instruction.opcode opcodeTable x := rfl

theorem decodeInstructionOpcode_eq (instr : Instruction) (w : BitVec 32) :
    decodeInstructionOpcode instr w = (selectedRow w).elim instr (copyRow instr) := by
  unfold decodeInstructionOpcode selectedRow
  simp only [firstHit, Option.or_none, ← findOpcode_eq_lookup]
  cases findOpcode (opcode21 w) with
  | some row => rfl
  | none =>
    cases findOpcode (opcode26 w) with
    | some row => rfl
    | none =>
      cases findOpcode (opcode24 w) with
      | some row => rfl
      | none => cases findOpcode (opcode22 w) <;> rfl

/-- The decoder gives the word the mnemonic `n`, whatever its record held before. -/
def DecodesTo (w : BitVec 32) (n : Name) : Prop :=
  ∀ instr, (decodeInstructionOpcode instr w).name = .name n

/-- A word has one mnemonic. -/
theorem DecodesTo.unique {w : BitVec 32} {n n' : Name} (h : DecodesTo w n) (h' : DecodesTo w n') :
    n = n' := CharPtr.name.inj ((h emptySlot).symm.trans (h' emptySlot))

theorem decodesTo_iff_row {w : BitVec 32} {n : Name} :
    DecodesTo w n ↔ ∃ row, selectedRow w = some row ∧ row.name = .name n := by
  constructor
  · intro h
    have hnull := h emptySlot
    rw [decodeInstructionOpcode_eq] at hnull
    cases hs : selectedRow w with
    | none => rw [hs] at hnull; simp [emptySlot, tableRow] at hnull
    | some row => rw [hs] at hnull; exact ⟨row, rfl, hnull⟩
  · rintro ⟨row, hs, hn⟩ instr
    rw [decodeInstructionOpcode_eq, hs]
    exact hn

/-- A masked shift of a word is its leading bits, the mask being as wide as they are. -/
private theorem toNat_shift_mask (w : BitVec 32) (i k : ℕ) (mask : BitVec 32)
    (hik : i + k = 32) (hm : mask.toNat = 2 ^ k - 1) :
    ((w >>> i) &&& mask).toNat = topBits k w := by
  have hlt : w.toNat / 2 ^ i < 2 ^ k := by
    rw [Nat.div_lt_iff_lt_mul (by positivity), ← pow_add, Nat.add_comm k i, hik]
    exact w.isLt
  rw [BitVec.toNat_and, hm, Nat.and_two_pow_sub_one_eq_mod, BitVec.toNat_ushiftRight,
    Nat.shiftRight_eq_div_pow, Nat.mod_eq_of_lt hlt, topBits, show 32 - k = i by omega]

/-- The opcode that the table holds for a mnemonic. -/
def tableOpcode (n : Name) : ℕ :=
  ((namedRows.find? fun row => row.name == .name n).map fun row => row.opcode.toNat).getD 0

/-- The opcodes of the rows that have a mnemonic. -/
def namedOpcodes : List ℕ := namedRows.map fun row => row.opcode.toNat

/-- All opcodes of the table, that of the empty slots first. -/
def tableKeys : List ℕ := 0 :: namedOpcodes

private theorem opcode_unique : ∀ a ∈ opcodeTable, ∀ b ∈ opcodeTable,
    a.opcode = b.opcode → a = b := by decide

private theorem row_of_name : ∀ n : Name, ∃ row ∈ opcodeTable,
    row.name = .name n ∧ row.opcode.toNat = tableOpcode n := by
  intro n
  cases n <;> decide

private theorem opcode_of_name {row : Instruction} (h : row ∈ opcodeTable) {n : Name}
    (hn : row.name = .name n) : row.opcode.toNat = tableOpcode n := by
  have hall : ∀ row ∈ opcodeTable, (match row.name with
      | .name n => row.opcode.toNat == tableOpcode n
      | _ => true) = true := by decide
  simpa [hn] using hall row h

private theorem name_of_namedRow {row : Instruction} (h : row ∈ namedRows) :
    ∃ n, row.name = .name n := by
  have hall : ∀ row ∈ namedRows, row.name ≠ .null ∧ row.name ≠ .invalid ∧ row.name ≠ .other := by
    decide
  have := hall row h
  cases hn : row.name with
  | name n => exact ⟨n, rfl⟩
  | null | invalid | other => simp [hn] at this

private theorem miss_iff {x : BitVec 32} :
    (∀ row ∈ opcodeTable, row.opcode ≠ x) ↔ x.toNat ∉ tableKeys := by
  have hto : ∀ row ∈ opcodeTable, row.opcode.toNat ∈ tableKeys := by decide
  have hof : ∀ k ∈ tableKeys, ∃ row ∈ opcodeTable, row.opcode.toNat = k := by decide
  constructor
  · intro h hx
    obtain ⟨row, hrow, hk⟩ := hof _ hx
    exact h row hrow (BitVec.eq_of_toNat_eq hk)
  · rintro h row hrow rfl
    exact h (hto row hrow)

private theorem hit_iff {x : BitVec 32} {n : Name} :
    (∃ row, lookup Instruction.opcode opcodeTable x = some row ∧ row.name = .name n) ↔
      x.toNat = tableOpcode n := by
  constructor
  · rintro ⟨row, hrow, hn⟩
    obtain ⟨hmem, rfl⟩ := mem_of_lookup hrow
    exact opcode_of_name hmem hn
  · intro hx
    obtain ⟨row, hmem, hn, hop⟩ := row_of_name n
    refine ⟨row, (lookup_eq_some_iff opcode_unique).mpr ⟨hmem, ?_⟩, hn⟩
    exact BitVec.eq_of_toNat_eq (hop.trans hx.symm)

/-- The four passes spelled out: a pass counts only if the fields before it are no opcode of
the table, whatever the width of that opcode. -/
theorem decodesTo_iff_passes {w : BitVec 32} {n : Name} :
    DecodesTo w n ↔ topBits 11 w = tableOpcode n ∨ topBits 11 w ∉ tableKeys ∧
      (topBits 6 w = tableOpcode n ∨ topBits 6 w ∉ tableKeys ∧
        (topBits 8 w = tableOpcode n ∨ topBits 8 w ∉ tableKeys ∧
          topBits 10 w = tableOpcode n)) := by
  have h21 : (opcode21 w).toNat = topBits 11 w := toNat_shift_mask w 21 11 mask21 rfl rfl
  have h26 : (opcode26 w).toNat = topBits 6 w := toNat_shift_mask w 26 6 mask26 rfl rfl
  have h24 : (opcode24 w).toNat = topBits 8 w := toNat_shift_mask w 24 8 mask24 rfl rfl
  have h22 : (opcode22 w).toNat = topBits 10 w := toNat_shift_mask w 22 10 mask22 rfl rfl
  simp only [decodesTo_iff_row, selectedRow, firstHit_cons_eq_some_iff, or_and_right, and_assoc,
    exists_or, exists_and_left, hit_iff, miss_iff, h21, h26, h24, h22]
  simp only [firstHit, reduceCtorEq, false_and, exists_false, and_false, or_false]

private theorem tableOpcode_mem (n : Name) : tableOpcode n ∈ namedOpcodes := by
  cases n <;> decide

/-- The table holds the literals as meant, but for the two that are decimal. -/
theorem tableOpcode_eq (n : Name) : tableOpcode n = match n with
    | .subImmediate => 11010001
    | .andImmediate => 1001001000
    | n => (pattern n).bits := by
  cases n <;> decide

private theorem tableOpcode_eq_five {n : Name} : tableOpcode n = 5 ↔ n = .b := by
  cases n <;> decide

private theorem tableOpcode_eq_bcond {n : Name} : tableOpcode n = 84 ↔ n = .bcond := by
  cases n <;> decide

/-- The shorter fields are prefixes of the longest one. -/
theorem topBits_prefix (w : BitVec 32) : topBits 6 w = topBits 11 w / 32 ∧
    topBits 8 w = topBits 11 w / 8 ∧ topBits 10 w = topBits 11 w / 2 ∧ topBits 11 w < 2048 := by
  have := w.isLt
  simp only [topBits]
  omega

/-- What comparing every literal with every field amounts to for this table. A field of
another width can equal a short literal, and the eleven-bit pass takes the B words whose
offset starts with one of three patterns. -/
theorem decodesTo_iff {w : BitVec 32} {n : Name} :
    DecodesTo w n ↔ topBits 11 w = tableOpcode n ∨
      (n = .b ∧ topBits 6 w = 5 ∧ topBits 11 w ∉ [177, 180, 181]) ∨
      topBits 8 w = tableOpcode n ∨
      (topBits 10 w = tableOpcode n ∧ n ≠ .b ∧ n ≠ .bcond) := by
  have hv := tableOpcode_mem n
  have hb := tableOpcode_eq_five (n := n)
  have hc := tableOpcode_eq_bcond (n := n)
  obtain ⟨h6, h8, h10, hlt⟩ := topBits_prefix w
  rw [decodesTo_iff_passes]
  generalize tableOpcode n = v at *
  constructor
  · rintro (h | ⟨hn11, h | ⟨hn6, h | ⟨-, h⟩⟩⟩)
    · exact .inl h
    · have hsmall : ∀ v ∈ namedOpcodes, v < 64 → v = 5 := by decide
      have hv5 := hsmall v hv (by omega)
      have hsub : ∀ x ∈ [177, 180, 181], x ∈ tableKeys := by decide
      exact .inr (.inl ⟨hb.mp hv5, h.trans hv5, fun hx => hn11 (hsub _ hx)⟩)
    · exact .inr (.inr (.inl h))
    · -- 5 and 84 extend, as six-bit fields, 0 and 5, which are opcodes themselves
      have h05 : 0 ∈ tableKeys ∧ 5 ∈ tableKeys := by decide
      refine .inr (.inr (.inr ⟨h, fun hnb => ?_, fun hnc => ?_⟩))
      · have := hb.mpr hnb
        exact hn6 ((show topBits 6 w = 0 by omega) ▸ h05.1)
      · have := hc.mpr hnc
        exact hn6 ((show topBits 6 w = 5 by omega) ▸ h05.2)
  · have hx2 : ∀ v ∈ namedOpcodes, ∀ x ∈ tableKeys, x / 2 ≠ v := by decide
    have hx8 : ∀ v ∈ namedOpcodes, ∀ x ∈ tableKeys, x / 8 ≠ v := by decide
    have hv4 : ∀ v ∈ namedOpcodes, v < 1024 → v / 4 ∉ tableKeys := by decide
    rintro (h | ⟨rfl, h, hx⟩ | h | ⟨h, hnb, hnc⟩)
    · exact .inl h
    · have hsub : ∀ x ∈ tableKeys, x / 32 = 5 → x ∈ [177, 180, 181] := by decide
      have hv5 := hb.mpr rfl
      exact .inr ⟨fun hm => hx (hsub _ hm (by omega)), .inl (by omega)⟩
    · refine .inr ⟨fun hm => hx8 v hv _ hm (by omega), .inr ⟨?_, .inl h⟩⟩
      rw [show topBits 6 w = v / 4 by omega]
      exact hv4 v hv (by omega)
    · have hv16 : ∀ v ∈ namedOpcodes, v < 1024 → v ≠ 5 → v ≠ 84 → v / 16 ∉ tableKeys := by
        decide
      refine .inr ⟨fun hm => hx2 v hv _ hm (by omega), .inr ⟨?_, .inr ⟨?_, h⟩⟩⟩
      · rw [show topBits 6 w = v / 16 by omega]
        exact hv16 v hv (by omega) (fun h5 => hnb (hb.mp h5)) (fun h84 => hnc (hc.mp h84))
      · rw [show topBits 8 w = v / 4 by omega]
        exact hv4 v hv (by omega)

instance (w : BitVec 32) (n : Name) : Decidable (DecodesTo w n) :=
  decidable_of_iff _ decodesTo_iff.symm

/-- The mnemonic depends on the eleven leading bits only. -/
theorem decodesTo_congr {w w' : BitVec 32} (h : topBits 11 w = topBits 11 w') {n : Name} :
    DecodesTo w n ↔ DecodesTo w' n := by
  obtain ⟨h6, h8, h10, -⟩ := topBits_prefix w
  obtain ⟨h6', h8', h10', -⟩ := topBits_prefix w'
  rw [decodesTo_iff, decodesTo_iff, h6, h8, h10, h6', h8', h10', h]

theorem decodesTo_of_topBits8 {w : BitVec 32} {n : Name} (h : topBits 8 w = tableOpcode n) :
    DecodesTo w n :=
  decodesTo_iff.mpr (.inr (.inr (.inl h)))

/-- The word does not meet its mnemonic's literal in a field of another width, and the two
rows with decimal literals do not own it. -/
def NoStrayHit (w : BitVec 32) : Name → Prop
  | .subImmediate => topBits 8 w ≠ 0b11010001
  | .andImmediate => topBits 10 w ≠ 0b1001001000
  | .b => topBits 11 w ∉ [0b00000000101, 0b00010110001, 0b00010110100, 0b00010110101] ∧
      topBits 8 w ≠ 0b00000101
  | .bcond => topBits 11 w ≠ 0b00001010100
  | n => ∀ k ∈ [11, 8, 10], k ≠ (pattern n).width → topBits k w ≠ (pattern n).bits

theorem decodesTo_word {n : Name} (hs : n ≠ .subImmediate) (ha : n ≠ .andImmediate) :
    DecodesTo (pattern n).word n := by
  cases n <;> first | contradiction | decide

theorem not_decodesTo_decimal (w : BitVec 32) :
    ¬ DecodesTo w .subImmediate ∧ ¬ DecodesTo w .andImmediate := by
  obtain ⟨-, h8, h10, hlt⟩ := topBits_prefix w
  simp only [decodesTo_iff, tableOpcode_eq, reduceCtorEq, false_and, false_or]
  omega

/-- A word selects the mnemonic whose pattern it has, and no other word does, exactly when
no field of the wrong width hits; and every mnemonic but the two decimal ones is selected by
some word. -/
theorem decodesTo_iff_matches_iff (w : BitVec 32) (n : Name) :
    ((DecodesTo w n ↔ Matches n w) ↔ NoStrayHit w n) ∧
      ((∃ w', DecodesTo w' n) ↔ n ≠ .subImmediate ∧ n ≠ .andImmediate) := by
  constructor
  · have hp := topBits_prefix w
    rw [decodesTo_iff, tableOpcode_eq]
    cases n <;> simp [Matches, NoStrayHit, pattern] <;> omega
  · constructor
    · rintro ⟨w', h⟩
      refine ⟨?_, ?_⟩ <;> rintro rfl
      · exact (not_decodesTo_decimal w').1 h
      · exact (not_decodesTo_decimal w').2 h
    · exact fun ⟨hs, ha⟩ => ⟨_, decodesTo_word hs ha⟩

/-- A branch whose offset starts with 10001 has the eight digits of ADDS(immediate) in its
eleven leading bits. -/
theorem decodesTo_ne_matches :
    ¬ ∀ (w : BitVec 32) (n : Name), DecodesTo w n ↔ Matches n w := by
  intro h
  have hadds : DecodesTo 0x16200000 .addsImmediate := by decide
  exact absurd ((h _ _).mp hadds) (by decide)

/-- Some pass stops at a row with a mnemonic: bits 31:26 are not all clear, or else the
eleven leading bits are an opcode themselves. -/
def Listed (w : BitVec 32) : Prop :=
  topBits 11 w ∈ namedOpcodes ∨ topBits 6 w ≠ 0 ∧
    (topBits 6 w ∈ namedOpcodes ∨ topBits 8 w ∈ namedOpcodes ∨ topBits 10 w ∈ namedOpcodes)

instance (w : BitVec 32) : Decidable (Listed w) := inferInstanceAs (Decidable (_ ∨ _))

theorem listed_iff_decodesTo {w : BitVec 32} : Listed w ↔ ∃ n, DecodesTo w n := by
  have hmem : ∀ x, (∃ n, x = tableOpcode n) ↔ x ∈ namedOpcodes := by
    intro x
    constructor
    · rintro ⟨n, rfl⟩
      exact tableOpcode_mem n
    · intro hx
      obtain ⟨row, hrow, rfl⟩ := List.mem_map.mp hx
      obtain ⟨n, hn⟩ := name_of_namedRow hrow
      exact ⟨n, opcode_of_name (List.mem_append_left _ hrow) hn⟩
  have h0 : 0 ∉ namedOpcodes := by decide
  obtain ⟨h6, h8, h10, -⟩ := topBits_prefix w
  simp only [decodesTo_iff_passes, exists_or, exists_and_left, hmem, tableKeys, List.mem_cons,
    not_or, Listed]
  by_cases hz : topBits 6 w = 0
  · rw [hz]
    simp only [h0, ne_eq, not_true_eq_false, false_and, or_false, false_or, and_false]
  · have hz11 : topBits 11 w ≠ 0 := by omega
    have hz8 : topBits 8 w ≠ 0 := by omega
    simp only [hz, hz11, hz8, ne_eq, not_false_eq_true, true_and]
    tauto

/-- A word that selects no mnemonic leaves a null name where there was one. -/
theorem name_of_emptySlot (w : BitVec 32) :
    (decodeInstructionOpcode emptySlot w).name = .null ∨ ∃ n, DecodesTo w n := by
  cases hs : selectedRow w with
  | none =>
    rw [decodeInstructionOpcode_eq, hs]
    exact .inl rfl
  | some row =>
    rcases List.mem_append.mp (mem_of_firstHit hs) with hrow | hrow
    · exact .inr ((name_of_namedRow hrow).imp fun n hn => decodesTo_iff_row.mpr ⟨row, hs, hn⟩)
    · rw [decodeInstructionOpcode_eq, hs, List.eq_of_mem_replicate hrow]
      exact .inl rfl

/-- The type column of the table. -/
def rowType : Name → InstrType
  | .addsExtendedRegister | .subsExtendedRegister | .andsShiftedRegister
  | .eorShifterRegister | .mul => .X
  | .addsImmediate | .subsImmediate | .orrShiftedRegister | .br | .addImmediate
  | .subImmediate | .andImmediate => .I
  | .hlt | .bcond | .cbz | .cbnz => .CB
  | .b => .B
  | .lslImmediate | .lsrImmediate | .addExtendedRegister => .R
  | .stur | .sturb | .sturh | .ldur | .ldurh | .ldurb => .D
  | .movz => .IW

theorem DecodesTo.type_eq {w : BitVec 32} {n : Name} (h : DecodesTo w n) (instr : Instruction) :
    (decodeInstructionOpcode instr w).type = rowType n := by
  have hall : ∀ row ∈ opcodeTable, (match row.name with
      | .name n => row.type == rowType n
      | _ => true) = true := by decide
  obtain ⟨row, hs, hn⟩ := decodesTo_iff_row.mp h
  have ht := hall row (mem_of_firstHit hs)
  rw [hn] at ht
  rw [decodeInstructionOpcode_eq, hs]
  simpa [copyRow] using ht

/-- The second stage of the decoder leaves the name alone. -/
theorem decodeInstruction_name (instr : Instruction) (w : BitVec 32) :
    (decodeInstruction instr w).name = (decodeInstructionOpcode instr w).name := by
  unfold decodeInstruction decodeCompletelyInstruction
  split <;> rfl

theorem DecodesTo.name_eq {w : BitVec 32} {n : Name} (h : DecodesTo w n) (instr : Instruction) :
    (decodeInstruction instr w).name = .name n :=
  (decodeInstruction_name instr w).trans (h instr)

/-- Every type but CB and B has the destination register in bits 4:0. -/
theorem DecodesTo.rd_eq {w : BitVec 32} {n : Name} (h : DecodesTo w n)
    (hn : rowType n ∈ [.I, .X, .IW, .R, .D]) (instr : Instruction) :
    (decodeInstruction instr w).rd = w &&& mask5bits := by
  have ht := h.type_eq instr
  simp only [decodeInstruction, decodeCompletelyInstruction, ht]
  cases hr : rowType n <;> simp_all

end ArmSim.Verify
