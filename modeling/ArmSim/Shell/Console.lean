import ArmSim.Core.Numeral
import ArmSim.Shell.Commands

/-! The process around the machine: program files, standard input and the dumpsim file, all as
text. Standard output only repeats what is written to the dumpsim file, and is left out. -/
namespace ArmSim.Shell
open Sim Text Scan

/-- What the process finds around it, and what C leaves open: the cycles, and the value that a
conversion stores when the object cannot represent it. -/
structure Environment where
  cycle : Machine → Indeterminate
  int : ℤ → BitVec 32
  unsigned : ℤ → BitVec 32
  long : ℤ → BitVec 64
  /-- Whether `fopen("dumpsim", "w")` succeeds. -/
  dumpsimOpens : Bool

/-- The value is one of an `int`. -/
def FitsInt (v : ℤ) : Prop := -2 ^ 31 ≤ v ∧ v < 2 ^ 31

/-- `strtoul` negates in the type itself, so only the digits have to fit. -/
def FitsUnsigned (w : ℕ) (v : ℤ) : Prop := v.natAbs < 2 ^ w

instance (v : ℤ) : Decidable (FitsInt v) := inferInstanceAs (Decidable (_ ∧ _))

instance (w : ℕ) (v : ℤ) : Decidable (FitsUnsigned w v) := inferInstanceAs (Decidable (_ < _))

section Store
variable (e : Environment) (v : ℤ)

/-- The object of `%d` and `%i`. -/
def Environment.storeInt : BitVec 32 := if FitsInt v then BitVec.ofInt 32 v else e.int v

/-- The object of `%x`. -/
def Environment.storeUnsigned : BitVec 32 :=
  if FitsUnsigned 32 v then BitVec.ofInt 32 v else e.unsigned v

/-- The object of `%lx`. -/
def Environment.storeLong : BitVec 64 :=
  if FitsUnsigned 64 v then BitVec.ofInt 64 v else e.long v

end Store

/-! ### Reading -/

def skipSpace (input : List Char) : List Char := input.dropWhile isSpace

/-- What a conversion of an integer does, with the input that it leaves. -/
inductive Scanned
  | inputFailure
  | matchingFailure (rest : List Char)
  | converted (v : ℤ) (rest : List Char)

/-- One conversion. A `0x` without digits behind it fails, as ISO C has it, where glibc reads 0. -/
def convert (k : Conversion) (input : List Char) : Scanned :=
  match skipSpace input with
  | [] => .inputFailure
  | c :: cs =>
    let (t, rest) := munch k.next .start (c :: cs)
    match t.value with
    | some v => .converted v rest
    | none => .matchingFailure rest

/-- `scanf` on a format of such conversions: the integers converted before the first failure. -/
def scanf : List Conversion → List Char → List ℤ × List Char
  | [], input => ([], input)
  | k :: ks, input =>
    match convert k input with
    | .inputFailure => ([], [])
    | .matchingFailure rest => ([], rest)
    | .converted v rest =>
      let (vs, rest) := scanf ks rest
      (v :: vs, rest)

/-- `scanf("%s", buffer)`; the word is empty at the end of the input. -/
def scanWord (input : List Char) : List Char × List Char :=
  ((skipSpace input).takeWhile fun c => !isSpace c, (skipSpace input).dropWhile fun c => !isSpace c)

/-! ### Writing -/

def dashes : List Char := "-------------------------------------\n".toList

/-- One line of `rdump` for register `k`. -/
def registerText (k : Fin armRegs) (v : BitVec 64) : List Char :=
  ["X".toList, decimalText k.val, ": 0x".toList, hexText v.toNat, "\n".toList].flatten

/-- What `rdump` appends to the dumpsim file. -/
def rdumpText (count : BitVec 32) (s : CpuState) : List Char :=
  ["\nCurrent register/bus values :\n".toList,
    dashes,
    "Instruction Count : ".toList, decimalText count.toNat, "\n".toList,
    "PC                : 0x".toList, hexText s.pc.toNat, "\n".toList,
    "Registers:\n".toList,
    (List.finRange armRegs).flatMap fun k => registerText k (s.regs.get k),
    "FLAG_N: ".toList, decimalText s.flagN.toInt, "\n".toList,
    "FLAG_Z: ".toList, decimalText s.flagZ.toInt, "\n".toList,
    "\n".toList].flatten

/-- One line of `mdump`. -/
def wordText (line : BitVec 32 × BitVec 32) : List Char :=
  ["  0x".toList, paddedHexText 8 line.1.toNat, " (".toList, decimalText line.1.toInt,
    ") : 0x".toList, hexText line.2.toNat, "\n".toList].flatten

/-- What `mdump` appends to the dumpsim file. -/
def mdumpText (start stop : BitVec 32) (lines : List (BitVec 32 × BitVec 32)) : List Char :=
  ["\nMemory content [0x".toList, paddedHexText 8 start.toNat, "..0x".toList,
    paddedHexText 8 stop.toNat, "] :\n".toList,
    dashes,
    lines.flatMap wordText,
    "\n".toList].flatten

/-! ### The prompt -/

/-- The machine with the input still to be read and the dumpsim file as written so far. -/
structure Console where
  machine : Machine
  stdin : List Char
  dumpsim : List Char

/-- The ways in which the process does not come to the next prompt. `exit` comes with the
dumpsim file, if it has been opened; `running` means that the fuel ran out first. -/
inductive Stop
  | exit (status : ℤ) (dumpsim : Option (List Char))
  | fault (f : Fault)
  | bufferOverrun
  | running

/-- Where a case of the `switch` leads: to a command, out of the process, or nowhere because
`scanf` has not read all operands. -/
inductive Action
  | command (c : Command)
  | quit
  | skip

/-- `switch(buffer[0])`, with the operands that its cases scan. -/
def switch (e : Environment) (buffer0 : Char) (buffer1 : Option Char) (input : List Char) :
    Action × List Char :=
  if buffer0 = 'G' ∨ buffer0 = 'g' then (.command .go, input)
  else if buffer0 = 'M' ∨ buffer0 = 'm' then
    match scanf [.integer, .integer] input with
    | ([start, stop], rest) => (.command (.mdump (e.storeInt start) (e.storeInt stop)), rest)
    | (_, rest) => (.skip, rest)
  else if buffer0 = '?' then (.command .help, input)
  else if buffer0 = 'Q' ∨ buffer0 = 'q' then (.quit, input)
  else if buffer0 = 'R' ∨ buffer0 = 'r' then
    if buffer1 = some 'd' ∨ buffer1 = some 'D' then (.command .rdump, input)
    else
      match scanf [.decimal] input with
      | ([cycles], rest) => (.command (.run (e.storeInt cycles)), rest)
      | (_, rest) => (.skip, rest)
  else if buffer0 = 'I' ∨ buffer0 = 'i' then
    match scanf [.integer, .hexadecimal] input with
    | ([registerNo, registerValue], rest) =>
      (.command (.input (e.storeInt registerNo) (e.storeLong registerValue)), rest)
    | (_, rest) => (.skip, rest)
  else (.command .invalid, input)

/-- The machine that a command leaves, and the end of the process if it leaves none. -/
def Console.advance (c : Console) : Except Fault Machine → Except Stop Console
  | .ok m => .ok { c with machine := m }
  | .error f => .error (.fault f)

/-- The calls that the cases make; `fuel` bounds the loops of `go` and `mdump`. -/
def Command.perform (e : Environment) (fuel : ℕ) (c : Console) : Command → Except Stop Console
  | .go =>
    match Shell.go e.cycle fuel c.machine with
    | .ok none => .error .running
    | .ok (some m) => c.advance (.ok m)
    | .error f => c.advance (.error f)
  | .run cycles => c.advance (Shell.run e.cycle cycles c.machine)
  | .mdump start stop =>
    match mdumpLoop c.machine.memory stop fuel start with
    | none => .error .running
    | some lines => .ok { c with dumpsim := c.dumpsim ++ mdumpText start stop lines }
  | .rdump => .ok { c with
      dumpsim := c.dumpsim ++ rdumpText c.machine.instructionCount c.machine.currentState }
  | .help | .invalid => .ok c
  | .input registerNo registerValue => c.advance (Shell.input registerNo registerValue c.machine)

/-- `char buffer[20]`. -/
def bufferSize : ℕ := 20

/-- `get_command`. A character of the input stands for one byte, and the terminating zero takes the
last place of the buffer. -/
def getCommand (e : Environment) (fuel : ℕ) (c : Console) : Except Stop Console :=
  match scanWord c.stdin with
  | ([], _) => .error (.exit 0 (some c.dumpsim))
  | (buffer0 :: more, input) =>
    if bufferSize < (buffer0 :: more).length + 1 then .error .bufferOverrun
    else
      match switch e buffer0 more.head? input with
      | (.quit, _) => .error (.exit 0 (some c.dumpsim))
      | (.skip, rest) => .ok { c with stdin := rest }
      | (.command command, rest) => command.perform e fuel { c with stdin := rest }

/-! ### Start-up -/

theorem skipSpace_length_le (input : List Char) : (skipSpace input).length ≤ input.length :=
  (List.dropWhile_sublist isSpace).length_le

/-- A conversion consumes at least one character. -/
theorem length_of_converted {k : Conversion} {input rest : List Char} {v : ℤ}
    (h : convert k input = .converted v rest) : rest.length < input.length := by
  have hskip := skipSpace_length_le input
  unfold convert at h
  generalize skipSpace input = text at h hskip
  cases text with
  | nil => exact absurd h nofun
  | cons c cs =>
    obtain ⟨item, hsplit, hafter, -⟩ :=
      munch_eq_iff.mp (Prod.eta (munch k.next .start (c :: cs))).symm
    dsimp only at h
    split at h
    · rename_i v' hv
      obtain ⟨rfl, rfl⟩ := Scanned.converted.inj h
      have hitem : item ≠ [] := by
        rintro rfl
        rw [← Option.some.inj hafter] at hv
        exact absurd hv nofun
      have hlen := congrArg List.length hsplit
      have hpos := List.length_pos_iff.mpr hitem
      rw [List.length_append] at hlen
      omega
    · exact absurd h nofun

/-- The `fscanf` loop of `load_program`; `none` if it ends on a matching failure. The white
space of the format is skipped behind every word. -/
def readWords (e : Environment) (text : List Char) : Option (List (BitVec 32)) :=
  match _h : convert .hexadecimal text with
  | .inputFailure => some []
  | .matchingFailure _ => none
  | .converted v rest => (readWords e (skipSpace rest)).map (e.storeUnsigned v :: ·)
termination_by text.length
decreasing_by exact (skipSpace_length_le rest).trans_lt (length_of_converted _h)

section ReadWords
variable {e : Environment} {text rest : List Char} {v : ℤ}

theorem readWords_of_inputFailure (h : convert .hexadecimal text = .inputFailure) :
    readWords e text = some [] := by
  unfold readWords
  split <;> simp_all

theorem readWords_of_matchingFailure (h : convert .hexadecimal text = .matchingFailure rest) :
    readWords e text = none := by
  unfold readWords
  split <;> simp_all

theorem readWords_of_converted (h : convert .hexadecimal text = .converted v rest) :
    readWords e text = (readWords e (skipSpace rest)).map (e.storeUnsigned v :: ·) := by
  rw [readWords]
  split <;> simp_all

end ReadWords

/-- `load_program`; a file that cannot be opened has no text. -/
def loadFile (e : Environment) (file : Option (List Char)) (m : Machine) :
    Except Stop Machine :=
  match file with
  | none => .error (.exit (-1) none)
  | some text =>
    match readWords e text with
    | none => .error (.exit (-1) none)
    | some words => .ok (loadProgram words m)

/-- `initialize` on the texts of the files. The names follow each other in memory, as the walk
over `argv[1]` assumes. -/
def initializeFiles (e : Environment) (slack : Memory) (files : List (Option (List Char))) :
    Except Stop Machine := do
  let boot : Machine :=
    { currentState := bootState, nextState := bootState, memory := initMemory slack,
      runBit := 0, instructionCount := 0 }
  let m ← files.foldlM (fun m file => loadFile e file m) boot
  return { m with nextState := m.currentState, runBit := 1 }

/-- `main` up to the prompt with the number `prompts`. -/
def main (e : Environment) (slack : Memory) (files : List (Option (List Char)))
    (stdin : List Char) (fuel prompts : ℕ) : Except Stop Console := do
  if files = [] then .error (.exit 1 none)
  let m ← initializeFiles e slack files
  if !e.dumpsimOpens then .error (.exit (-1) none)
  Loop.iterate (getCommand e fuel) prompts { machine := m, stdin, dumpsim := [] }

end ArmSim.Shell
