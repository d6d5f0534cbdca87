import ArmSim.Shell.Console
import ArmSim.Verify.Loading
import Mathlib.Data.List.DropRight

/-! Program files as a format: which texts the loader accepts, and the words that it reads from
them. -/
namespace ArmSim.Verify
open Shell Text Scan

section Convert
variable {k : Conversion} {input rest : List Char} {v : ℤ}

/-- A conversion succeeds exactly if the input item behind the white space is a numeral. -/
theorem convert_eq_converted_iff : convert k input = .converted v rest ↔
    ∃ item, InputItem k (skipSpace input) item rest ∧ Numeral k item v := by
  unfold convert
  generalize skipSpace input = text
  constructor
  · intro h
    cases text with
    | nil => exact absurd h nofun
    | cons c cs =>
      dsimp only at h
      split at h
      · rename_i v' hv
        obtain ⟨rfl, rfl⟩ := Scanned.converted.inj h
        obtain ⟨item, ht, hitem⟩ :=
          inputItem_of_munch (Prod.eta (munch k.next .start (c :: cs))).symm
        exact ⟨item, hitem, (value_after_start item v').mp (by rw [ht]; exact hv)⟩
      · exact absurd h nofun
  · rintro ⟨item, hitem, hv⟩
    obtain ⟨t, ht, hmunch⟩ := hitem.munch
    rw [← value_after_start, ht, Option.bind_some] at hv
    cases text with
    | nil =>
      obtain ⟨rfl, -⟩ := List.append_eq_nil_iff.mp hitem.split.symm
      rw [← Option.some.inj ht] at hv
      exact absurd hv nofun
    | cons c cs => simp only [hmunch, hv]

theorem convert_eq_inputFailure_iff : convert k input = .inputFailure ↔ skipSpace input = [] := by
  unfold convert
  cases skipSpace input with
  | nil => simp
  | cons c cs =>
    dsimp only
    split <;> simp

end Convert

/-- The texts of program files, with the numbers written in them: white space and hexadecimal
numerals, each of which goes as far as it can. -/
inductive ProgramText : List Char → List ℤ → Prop
  | done {text : List Char} : skipSpace text = [] → ProgramText text []
  | word {text item rest : List Char} {v : ℤ} {vs : List ℤ} :
      InputItem .hexadecimal (skipSpace text) item rest → Numeral .hexadecimal item v →
      ProgramText rest vs → ProgramText text (v :: vs)

theorem skipSpace_skipSpace (text : List Char) : skipSpace (skipSpace text) = skipSpace text :=
  List.dropWhile_idempotent _ _

/-- White space in front plays no role. -/
theorem programText_skipSpace_iff {text : List Char} {vs : List ℤ} :
    ProgramText (skipSpace text) vs ↔ ProgramText text vs := by
  constructor
  · intro h
    cases h with
    | done h => exact .done (skipSpace_skipSpace text ▸ h)
    | word hitem hv hrest => exact .word (skipSpace_skipSpace text ▸ hitem) hv hrest
  · intro h
    cases h with
    | done h => exact .done ((skipSpace_skipSpace text).trans h)
    | word hitem hv hrest => exact .word ((skipSpace_skipSpace text).symm ▸ hitem) hv hrest

/-- A text has one reading at most. -/
theorem ProgramText.unique {text : List Char} {vs vs' : List ℤ} (h : ProgramText text vs)
    (h' : ProgramText text vs') : vs = vs' := by
  induction h generalizing vs' with
  | done hempty =>
    cases h' with
    | done => rfl
    | word hitem hv =>
      have hnone := convert_eq_converted_iff.mpr ⟨_, hitem, hv⟩
      rw [convert_eq_inputFailure_iff.mpr hempty] at hnone
      exact absurd hnone nofun
  | word hitem hv _ ih =>
    have hconv := convert_eq_converted_iff.mpr ⟨_, hitem, hv⟩
    cases h' with
    | done hempty =>
      rw [convert_eq_inputFailure_iff.mpr hempty] at hconv
      exact absurd hconv nofun
    | word hitem' hv' hrest' =>
      rw [convert_eq_converted_iff.mpr ⟨_, hitem', hv'⟩] at hconv
      obtain ⟨rfl, rfl⟩ := Scanned.converted.inj hconv
      rw [ih hrest']

/-- The loader accepts exactly the program texts, and stores the numbers written in them. -/
theorem readWords_eq_some_iff (e : Environment) (text : List Char) (words : List (BitVec 32)) :
    readWords e text = some words ↔
      ∃ vs, ProgramText text vs ∧ words = vs.map e.storeUnsigned := by
  induction text using readWords.induct generalizing words with
  | case1 text h =>
    have hempty := ProgramText.done (convert_eq_inputFailure_iff.mp h)
    rw [readWords_of_inputFailure h, Option.some.injEq]
    constructor
    · rintro rfl
      exact ⟨[], hempty, rfl⟩
    · rintro ⟨vs, hvs, rfl⟩
      rw [hvs.unique hempty]
      rfl
  | case2 text rest h =>
    rw [readWords_of_matchingFailure h]
    refine iff_of_false nofun ?_
    rintro ⟨vs, hvs, -⟩
    cases hvs with
    | done hempty =>
      rw [convert_eq_inputFailure_iff.mpr hempty] at h
      exact absurd h nofun
    | word hitem hv =>
      rw [convert_eq_converted_iff.mpr ⟨_, hitem, hv⟩] at h
      exact absurd h nofun
  | case3 text v rest h ih =>
    rw [readWords_of_converted h, Option.map_eq_some_iff]
    constructor
    · rintro ⟨tail, htail, rfl⟩
      obtain ⟨vs, hvs, rfl⟩ := (ih tail).mp htail
      obtain ⟨item, hitem, hv⟩ := convert_eq_converted_iff.mp h
      exact ⟨v :: vs, .word hitem hv (programText_skipSpace_iff.mp hvs), rfl⟩
    · rintro ⟨vs, hvs, rfl⟩
      cases hvs with
      | done hempty =>
        rw [convert_eq_inputFailure_iff.mpr hempty] at h
        exact absurd h nofun
      | word hitem hv hrest =>
        rw [convert_eq_converted_iff.mpr ⟨_, hitem, hv⟩] at h
        obtain ⟨rfl, rfl⟩ := Scanned.converted.inj h
        exact ⟨_, (ih _).mpr ⟨_, programText_skipSpace_iff.mpr hrest, rfl⟩, rfl⟩

/-- The file can be opened, and `words` are what its text says. -/
def Reads (e : Environment) (file : Option (List Char)) (words : List (BitVec 32)) : Prop :=
  ∃ text vs, file = some text ∧ ProgramText text vs ∧ words = vs.map e.storeUnsigned

section Start
variable {e : Environment} {slack : Memory} {files : List (Option (List Char))}
  {programs : List (List (BitVec 32))}

theorem loadFile_of_reads {file : Option (List Char)} {words : List (BitVec 32)}
    (h : Reads e file words) (m : Machine) : loadFile e file m = .ok (loadProgram words m) := by
  obtain ⟨text, vs, rfl, hvs, rfl⟩ := h
  unfold loadFile
  simp only [(readWords_eq_some_iff e text _).mpr ⟨vs, hvs, rfl⟩]

theorem loadFile_of_not_reads {file : Option (List Char)} (h : ¬ ∃ words, Reads e file words)
    (m : Machine) : loadFile e file m = .error (.exit (-1) none) := by
  unfold loadFile
  cases file with
  | none => rfl
  | some text =>
    cases hread : readWords e text with
    | none => simp only [hread]
    | some words =>
      obtain ⟨vs, hvs, hwords⟩ := (readWords_eq_some_iff e text words).mp hread
      exact absurd ⟨words, text, vs, rfl, hvs, hwords⟩ h

theorem initializeFiles_of_reads (h : List.Forall₂ (Reads e) files programs) :
    initializeFiles e slack files = .ok (initializeMachine slack programs) := by
  have hfold (m : Machine) : files.foldlM (fun m file => loadFile e file m) m =
      .ok (programs.foldl (fun m words => loadProgram words m) m) := by
    induction h generalizing m with
    | nil => rfl
    | @cons file words files programs hfile _ ih =>
      rw [List.foldlM_cons, loadFile_of_reads hfile]
      exact ih _
  unfold initializeFiles
  simp only [hfold]
  rfl

theorem initializeFiles_of_not_reads (h : ¬ ∃ programs, List.Forall₂ (Reads e) files programs) :
    initializeFiles e slack files = .error (.exit (-1) none) := by
  have hfold (m : Machine) : files.foldlM (fun m file => loadFile e file m) m =
      .error (.exit (-1) none) := by
    induction files generalizing m with
    | nil => exact absurd ⟨[], .nil⟩ h
    | cons file files ih =>
      rw [List.foldlM_cons]
      by_cases hfile : ∃ words, Reads e file words
      · obtain ⟨words, hwords⟩ := hfile
        rw [loadFile_of_reads hwords]
        refine ih (fun hrest => h ?_) _
        obtain ⟨programs, hprograms⟩ := hrest
        exact ⟨words :: programs, .cons hwords hprograms⟩
      · rw [loadFile_of_not_reads hfile]
        rfl
  unfold initializeFiles
  simp only [hfold]
  rfl

variable (slack) (stdin : List Char) (fuel prompts : ℕ)

/-- Arguments that are all read bring the process to the prompt. -/
theorem main_of_reads (h : List.Forall₂ (Reads e) files programs) (hne : files ≠ [])
    (hopen : e.dumpsimOpens = true) : main e slack files stdin fuel prompts =
      Loop.iterate (getCommand e fuel) prompts
        { machine := initializeMachine slack programs, stdin, dumpsim := [] } := by
  unfold main
  simp [hne, hopen, initializeFiles_of_reads h, bind, Except.bind]

theorem main_of_nil : main e slack [] stdin fuel prompts = .error (.exit 1 none) := rfl

theorem main_of_not_reads (h : ¬ ∃ programs, List.Forall₂ (Reads e) files programs)
    (hne : files ≠ []) : main e slack files stdin fuel prompts = .error (.exit (-1) none) := by
  unfold main
  simp [hne, initializeFiles_of_not_reads h, bind, Except.bind]

theorem main_of_not_open (hne : files ≠ []) (hopen : ¬ e.dumpsimOpens = true) :
    main e slack files stdin fuel prompts = .error (.exit (-1) none) := by
  by_cases h : ∃ programs, List.Forall₂ (Reads e) files programs
  · obtain ⟨programs, hprograms⟩ := h
    unfold main
    simp [hne, hopen, initializeFiles_of_reads hprograms, bind, Except.bind]
  · exact main_of_not_reads slack stdin fuel prompts h hne

/-- The process comes to the prompt exactly if it has arguments, all of them are files with the
text of a program, and the dumpsim file can be opened. The machine is then the one that is
loaded with the numbers in the texts. -/
theorem main_start (e : Environment) (files : List (Option (List Char))) :
    if files = [] then main e slack files stdin fuel prompts = .error (.exit 1 none)
    else if e.dumpsimOpens = true then
      (∃ programs, List.Forall₂ (Reads e) files programs ∧
        main e slack files stdin fuel prompts = Loop.iterate (getCommand e fuel) prompts
          { machine := initializeMachine slack programs, stdin, dumpsim := [] }) ∨
      (¬ ∃ programs, List.Forall₂ (Reads e) files programs) ∧
        main e slack files stdin fuel prompts = .error (.exit (-1) none)
    else main e slack files stdin fuel prompts = .error (.exit (-1) none) := by
  split_ifs with hne hopen
  · rw [hne]
    exact main_of_nil slack stdin fuel prompts
  · by_cases h : ∃ programs, List.Forall₂ (Reads e) files programs
    · obtain ⟨programs, hprograms⟩ := h
      exact .inl ⟨programs, hprograms, main_of_reads slack stdin fuel prompts hprograms hne hopen⟩
    · exact .inr ⟨h, main_of_not_reads slack stdin fuel prompts h hne⟩
  · exact main_of_not_open slack stdin fuel prompts hne hopen

end Start

end ArmSim.Verify
