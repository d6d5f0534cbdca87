import ArmSim.Inputs.Asm2hex
import ArmSim.Verify.Typing

/-! From the disassembly of a program to the machine in front of the first prompt. -/
namespace ArmSim.Verify
open Shell Text Scan Loop Inputs

/-- One line of a disassembly: a word with its address in front and its mnemonic behind, or a
line without tabs. -/
inductive ListingLine : Option (BitVec 32) → List Char → Prop
  | word {label pad text : List Char} (w : BitVec 32) : '\t' ∉ label →
      (strip label).getLast? = some ':' → (∀ c ∈ pad, c = ' ') →
      ListingLine (some w) (label ++ '\t' :: (paddedHexText 8 w.toNat ++ pad ++ '\t' :: text))
  | other {line : List Char} : '\t' ∉ line → ListingLine none line

/-- The lines of a disassembly of the words. -/
inductive Listing : List (BitVec 32) → List (List Char) → Prop
  | nil : Listing [] []
  | word {w : BitVec 32} {words : List (BitVec 32)} {line : List Char} {lines : List (List Char)} :
      ListingLine (some w) line → Listing words lines → Listing (w :: words) (line :: lines)
  | other {words : List (BitVec 32)} {line : List Char} {lines : List (List Char)} :
      ListingLine none line → Listing words lines → Listing words (line :: lines)

section Join
variable {rest : List Char} {vs : List ℤ}

theorem programText_cons {item gap : List Char} {v : ℤ} (h : Numeral .hexadecimal item v)
    (hgap : Blank gap) (hr : gap ++ rest = [] ∨ gap ≠ []) (hrest : ProgramText rest vs) :
    ProgramText (item ++ (gap ++ rest)) (v :: vs) := by
  have hdelim : Delimited (gap ++ rest) := by
    rcases hr with hnil | hne
    · rw [hnil]
      exact delimited_nil
    · exact Gap.delimited ⟨hne, hgap⟩ rest
  obtain ⟨c, ds, rfl, hc⟩ := h.head
  have hskip : skipSpace (c :: ds ++ (gap ++ rest)) = c :: ds ++ (gap ++ rest) :=
    skipSpace_solid hc _
  refine .word (by rw [hskip]; exact inputItem_of_ends h hdelim.ends) h ?_
  rw [← programText_skipSpace_iff, skipSpace_blank hgap]
  exact programText_skipSpace_iff.mpr hrest

/-- A numeral with white space behind it. -/
def Column (v : ℤ) (text : List Char) : Prop :=
  ∃ item gap, Numeral .hexadecimal item v ∧ Blank gap ∧ text = item ++ gap

/-- Columns joined by newlines are a program text. -/
theorem programText_join {texts : List (List Char)} (h : List.Forall₂ Column vs texts) :
    ProgramText ("\n".toList.intercalate texts) vs := by
  induction h with
  | nil => exact .done rfl
  | @cons v text vs texts hcol hrest ih =>
    obtain ⟨item, gap, hv, hgap, rfl⟩ := hcol
    cases hrest with
    | nil =>
      have hend : gap ++ [] = [] ∨ gap ≠ [] := by
        rw [List.append_nil]
        exact em _
      have h := programText_cons hv hgap hend ih
      rw [List.intercalate_singleton]
      rwa [List.append_nil] at h
    | @cons v' text' vs texts _ _ =>
      have hblank : Blank (gap ++ "\n".toList) := by
        intro c hc
        rcases List.mem_append.mp hc with hc | hc
        · exact hgap c hc
        · rw [List.mem_singleton.mp hc]
          rfl
      have h := programText_cons hv hblank (.inr (by simp)) ih
      rw [List.intercalate_cons_cons]
      simpa only [List.append_assoc] using h

end Join

section Scripts
variable {words : List (BitVec 32)} {lines : List (List Char)}

theorem digit_of_accumulate {b n m : ℕ} {cs : List Char} (h : accumulate b n cs = some m) :
    ∀ c ∈ cs, (digitValue c).isSome := by
  induction cs generalizing n with
  | nil => exact List.forall_mem_nil _
  | cons c cs ih =>
    rw [accumulate_cons] at h
    obtain ⟨d, hd, h⟩ := Option.bind_eq_some_iff.mp h
    obtain ⟨hc, -⟩ := Option.filter_eq_some_iff.mp hd
    exact List.forall_mem_cons.mpr ⟨by rw [hc]; rfl, ih h⟩

theorem toNat_of_digit {c : Char} (h : (digitValue c).isSome) : 48 ≤ c.toNat ∧ c.toNat ≤ 102 := by
  have hle {a b : Char} (hab : a ≤ b) : a.toNat ≤ b.toNat := hab
  unfold digitValue at h
  split_ifs at h with h09 haf hAF
  · exact ⟨hle h09.1, (hle h09.2).trans (by decide)⟩
  · exact ⟨le_trans (by decide) (hle haf.1), hle haf.2⟩
  · exact ⟨le_trans (by decide) (hle hAF.1), (hle hAF.2).trans (by decide)⟩
  · exact absurd h (by decide)

/-- The digits of a word are neither tabs nor stripped. -/
theorem paddedHexText_solid (width n : ℕ) :
    ∀ c ∈ paddedHexText width n, strips c = false ∧ c ≠ '\t' := by
  have hdigits : accumulate 16 0 (paddedHexText width n) = some n :=
    ((digits_toDigits (by decide) (by decide) n).pad (by decide) _).2
  intro c hc
  have hrange := toNat_of_digit (digit_of_accumulate hdigits c hc)
  constructor
  · simp [strips]
    omega
  · rintro rfl
    exact absurd hrange.1 (by decide)

/-- The numbers that the words are written as. -/
def numbers (words : List (BitVec 32)) : List ℤ := words.map fun w => w.toNat

section Field
variable {w : BitVec 32} {pad : List Char} (hpad : ∀ c ∈ pad, c = ' ')
include hpad

theorem no_tab_field : '\t' ∉ paddedHexText 8 w.toNat ++ pad := by
  intro h
  rcases List.mem_append.mp h with h | h
  · exact (paddedHexText_solid 8 w.toNat _ h).2 rfl
  · exact absurd (hpad _ h) (by decide)

theorem strip_field : strip (paddedHexText 8 w.toNat ++ pad) = paddedHexText 8 w.toNat := by
  refine strip_append (fun c hc => (paddedHexText_solid 8 w.toNat c hc).1) fun c hc => ?_
  rw [hpad c hc]
  rfl

theorem column_field : Column w.toNat (paddedHexText 8 w.toNat ++ pad) := by
  refine ⟨_, pad, numeral_paddedHexText 8 w.toNat, fun c hc => ?_, rfl⟩
  rw [hpad c hc]
  rfl

end Field

theorem columns_asm2hex3 (h : Listing words lines) :
    List.Forall₂ Column (numbers words) (lines.filterMap bytecode) := by
  induction h with
  | nil => exact .nil
  | @word w words line lines hline _ ih =>
    cases hline with
    | @word label pad text _ hlabel hcolon hpad =>
      have hcode := bytecode_line hlabel (no_tab_field (w := w) hpad) text hcolon
      rw [strip_field hpad] at hcode
      rw [List.filterMap_cons_some hcode]
      exact .cons ⟨_, [], numeral_paddedHexText 8 w.toNat, blank_nil, (List.append_nil _).symm⟩ ih
  | other hline _ ih =>
    cases hline with
    | other htab => rwa [List.filterMap_cons_none (bytecode_of_no_tab htab)]

theorem columns_asm2hex (h : Listing words lines) : List.Forall₂ Column (numbers words)
    ((lines.filter fun x => x.contains '\t').map secondPart) := by
  induction h with
  | nil => exact .nil
  | @word w words line lines hline _ ih =>
    cases hline with
    | @word label pad text _ hlabel hcolon hpad =>
      have hcode := secondPart_line hlabel (no_tab_field (w := w) hpad) text
      rw [List.filter_cons_of_pos (by simp), List.map_cons, hcode]
      exact .cons (column_field hpad) ih
  | other hline _ ih =>
    cases hline with
    | other htab => rwa [List.filter_cons_of_neg (by simpa using htab)]

theorem storeUnsigned_toNat (e : Environment) (w : BitVec 32) : e.storeUnsigned w.toNat = w := by
  have hfits : FitsUnsigned 32 w.toNat := w.isLt
  rw [Environment.storeUnsigned, if_pos hfits, BitVec.ofInt_natCast, BitVec.ofNat_toNat,
    BitVec.setWidth_eq]

theorem readWords_join (e : Environment) {texts : List (List Char)}
    (h : List.Forall₂ Column (numbers words) texts) :
    readWords e ("\n".toList.intercalate texts) = some words := by
  refine (readWords_eq_some_iff e _ words).mpr ⟨numbers words, programText_join h, ?_⟩
  unfold numbers
  rw [List.map_map]
  exact (List.map_id words).symm.trans
    (List.map_congr_left fun w _ => (storeUnsigned_toNat e w).symm)

/-- What either script makes of a disassembly is read as its words. -/
theorem reads_script (e : Environment) {script : List (List Char) → List Char}
    (hscript : script ∈ [asm2hex, asm2hex3]) (h : Listing words lines) :
    Reads e (some (script lines)) words := by
  have hwords : readWords e (script lines) = some words := by
    rcases List.mem_pair.mp hscript with rfl | rfl
    · exact readWords_join e (columns_asm2hex h)
    · exact readWords_join e (columns_asm2hex3 h)
  obtain ⟨vs, hvs, heq⟩ := (readWords_eq_some_iff e _ words).mp hwords
  exact ⟨_, vs, rfl, hvs, heq⟩

theorem reads_scripts (e : Environment) {script : List (List Char) → List Char}
    (hscript : script ∈ [asm2hex, asm2hex3]) {programs : List (List (BitVec 32))}
    {listings : List (List (List Char))} (h : List.Forall₂ Listing programs listings) :
    List.Forall₂ (Reads e) (listings.map fun lines => some (script lines)) programs :=
  List.forall₂_map_left_iff.mpr (h.flip.imp fun _ _ => reads_script e hscript)

end Scripts

/-- Both scripts make a program file that the loader reads as the words of the disassembly: the
process comes to the prompt with these words loaded. -/
theorem main_of_listings (e : Environment) (slack : Memory) (stdin : List Char)
    (fuel prompts : ℕ) {programs : List (List (BitVec 32))} {listings : List (List (List Char))}
    (h : List.Forall₂ Listing programs listings) (hne : programs ≠ [])
    (hopen : e.dumpsimOpens = true) : ∀ script ∈ [asm2hex, asm2hex3],
      main e slack (listings.map fun lines => some (script lines)) stdin fuel prompts =
        iterate (getCommand e fuel) prompts
          { machine := initializeMachine slack programs, stdin, dumpsim := [] } := by
  intro script hscript
  have hreads := reads_scripts e hscript h
  have hfiles : (listings.map fun lines => some (script lines)) ≠ [] :=
    fun hnil => hne (List.forall₂_nil_left_iff.mp (hnil ▸ hreads))
  exact main_of_reads slack stdin fuel prompts hreads hfiles hopen

/-- A line of a disassembly as it is usually laid out. -/
def codeLine (label : String) (w : BitVec 32) (text : String) : List Char :=
  label.toList ++ '\t' :: (paddedHexText 8 w.toNat ++ [' '] ++ '\t' :: text.toList)

/-- The disassembly of a loop that counts X0 down from 10. -/
def countdownLines : List (List Char) := ["0000000000000000 <main>:\n".toList,
  codeLine "   0:" 0xd2800140 "mov\tx0, #0xa\n", "0000000000000004 <loop>:\n".toList,
  codeLine "   4:" 0xf1000400 "subs\tx0, x0, #0x1\n", codeLine "   8:" 0x54ffffe1 "b.ne\t4\n",
  codeLine "   c:" 0xd4400000 "hlt\t#0x0\n"]

/-- The disassembly of `hlt` alone. -/
def hltLines : List (List Char) :=
  ["0000000000000000 <.text>:\n".toList, codeLine "   0:" 0xd4400000 "hlt\t#0x0\n"]

/-- The words of both. -/
def listedWords : List (List (BitVec 32)) :=
  [[0xd2800140, 0xf1000400, 0x54ffffe1, 0xd4400000], [0xd4400000]]

theorem listing_listedWords : List.Forall₂ Listing listedWords [countdownLines, hltLines] := by
  have hspace : ∀ c ∈ [' '], c = ' ' := List.forall_mem_singleton.mpr rfl
  have hword {label text : List Char} (w : BitVec 32) (htab : '\t' ∉ label)
      (hcolon : (strip label).getLast? = some ':') := @ListingLine.word label [' '] text w htab
        hcolon hspace
  refine .cons ?_ (.cons (.other (.other (by decide)) (.word (hword _ (by decide) rfl) .nil)) .nil)
  exact .other (.other (by decide)) (.word (hword _ (by decide) rfl)
    (.other (.other (by decide)) (.word (hword _ (by decide) rfl)
      (.word (hword _ (by decide) rfl) (.word (hword _ (by decide) rfl) .nil)))))

/-- The process at its second prompt, after `?` at the first. -/
def atPrompt : Console :=
  { machine := initializeMachine (fun _ _ => 0) listedWords, stdin := [], dumpsim := [] }

theorem main_of_listings_two :
    main wrapping (fun _ _ => 0) ([countdownLines, hltLines].map fun lines => some (asm2hex lines))
      "?".toList 0 1 = .ok atPrompt ∧
    main wrapping (fun _ _ => 0) ([countdownLines, hltLines].map fun lines => some (asm2hex3 lines))
      "?".toList 0 1 = .ok atPrompt := by
  have hmain := main_of_listings wrapping (fun _ _ => 0) "?".toList 0 1 listing_listedWords
    (List.cons_ne_nil _ _) rfl
  have hstep := getCommand_spells (e := wrapping) (s := atPrompt) blank_nil
    (spells_spelling .help) delimited_nil 0
  have hprompt : iterate (getCommand wrapping 0) 1 { atPrompt with stdin := "?".toList } =
      .ok atPrompt := bind_ok_iff.mpr ⟨atPrompt, hstep, rfl⟩
  exact ⟨(hmain asm2hex (List.mem_pair.mpr (.inl rfl))).trans hprompt,
    (hmain asm2hex3 (List.mem_pair.mpr (.inr rfl))).trans hprompt⟩

end ArmSim.Verify
