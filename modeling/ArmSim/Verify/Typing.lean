import ArmSim.Verify.ProgramFile
import ArmSim.Verify.Prompt

/-! Typing commands. Every command has a spelling, and however a sequence of commands is spelled
and spaced, the prompts that read it perform exactly these commands, in this order. -/
namespace ArmSim.Verify
open Shell Text Scan Loop

/-- A word that fits the buffer. -/
structure Word (w : List Char) : Prop where
  fits : w.length < bufferSize
  solid : ∀ c ∈ w, isSpace c = false

/-- What may stand behind an operand. -/
def Delimited (rest : List Char) : Prop := ∀ c ∈ rest.head?, isSpace c = true

/-- The white space in front of an operand. -/
structure Gap (gap : List Char) : Prop where
  nonempty : gap ≠ []
  blank : Blank gap

/-- The ways to type a command: a word with its letter in front, and the operands in any notation
that their conversion has for an integer of their type. -/
inductive Spells : Command → List Char → Prop
  | go {b : Char} {more : List Char} : b = 'G' ∨ b = 'g' → Word (b :: more) →
      Spells .go (b :: more)
  | run {b : Char} {more gap item : List Char} {v : ℤ} : b = 'R' ∨ b = 'r' →
      ¬ (more.head? = some 'd' ∨ more.head? = some 'D') → Word (b :: more) → Gap gap →
      Numeral .decimal item v → FitsInt v →
      Spells (.run (BitVec.ofInt 32 v)) (b :: more ++ (gap ++ item))
  | mdump {b : Char} {more gap item gap' item' : List Char} {v v' : ℤ} : b = 'M' ∨ b = 'm' →
      Word (b :: more) → Gap gap → Numeral .integer item v → FitsInt v → Gap gap' →
      Numeral .integer item' v' → FitsInt v' →
      Spells (.mdump (BitVec.ofInt 32 v) (BitVec.ofInt 32 v'))
        (b :: more ++ (gap ++ (item ++ (gap' ++ item'))))
  | rdump {b b' : Char} {more : List Char} : b = 'R' ∨ b = 'r' → b' = 'd' ∨ b' = 'D' →
      Word (b :: b' :: more) → Spells .rdump (b :: b' :: more)
  | help {more : List Char} : Word ('?' :: more) → Spells .help ('?' :: more)
  | input {b : Char} {more gap item gap' item' : List Char} {v v' : ℤ} : b = 'I' ∨ b = 'i' →
      Word (b :: more) → Gap gap → Numeral .integer item v → FitsInt v → Gap gap' →
      Numeral .hexadecimal item' v' → FitsUnsigned 64 v' →
      Spells (.input (BitVec.ofInt 32 v) (BitVec.ofInt 64 v'))
        (b :: more ++ (gap ++ (item ++ (gap' ++ item'))))
  | invalid {b : Char} {more : List Char} :
      b ∉ ['G', 'g', 'M', 'm', '?', 'Q', 'q', 'R', 'r', 'I', 'i'] → Word (b :: more) →
      Spells .invalid (b :: more)

/-- The commands are typed one after the other, and `tail` is what follows. -/
inductive Typed : List Command → List Char → List Char → Prop
  | done (tail : List Char) : Typed [] tail tail
  | command {c : Command} {cs : List Command} {lead text rest tail : List Char} : Blank lead →
      Spells c text → Delimited rest → Typed cs rest tail →
      Typed (c :: cs) (lead ++ (text ++ rest)) tail

section Scan

theorem skipSpace_blank {gap : List Char} (h : Blank gap) (rest : List Char) :
    skipSpace (gap ++ rest) = skipSpace rest := by
  unfold skipSpace
  induction gap with
  | nil => rfl
  | cons c gap ih =>
    obtain ⟨hc, hgap⟩ := List.forall_mem_cons.mp h
    rw [List.cons_append, List.dropWhile_cons_of_pos hc, ih hgap]

theorem skipSpace_solid {c : Char} (h : isSpace c = false) (rest : List Char) :
    skipSpace (c :: rest) = c :: rest :=
  List.dropWhile_cons_of_neg (by simp [h])

theorem Gap.delimited {gap : List Char} (h : Gap gap) (rest : List Char) :
    Delimited (gap ++ rest) := by
  obtain ⟨c, cs, rfl⟩ := List.exists_cons_of_ne_nil h.nonempty
  intro c' hc'
  obtain rfl := Option.some.inj hc'
  exact h.blank c List.mem_cons_self

theorem delimited_nil : Delimited [] := by simp [Delimited]

theorem Delimited.ends {rest : List Char} (h : Delimited rest) : Ends rest :=
  fun c hc => digitValue_of_isSpace (h c hc)

/-- An operand behind white space is converted, and what follows it is left. -/
theorem convert_numeral {k : Conversion} {gap item rest : List Char} {v : ℤ} (hgap : Blank gap)
    (h : Numeral k item v) (hr : Delimited rest) :
    convert k (gap ++ (item ++ rest)) = .converted v rest := by
  obtain ⟨c, ds, rfl, hc⟩ := h.head
  have hskip : skipSpace (gap ++ (c :: ds ++ rest)) = c :: ds ++ rest := by
    rw [skipSpace_blank hgap]
    exact skipSpace_solid hc _
  rw [convert_eq_converted_iff, hskip]
  exact ⟨c :: ds, inputItem_of_ends h hr.ends, h⟩

theorem scanWord_word {lead w rest : List Char} (hlead : Blank lead) (hw : Word w) (hne : w ≠ [])
    (hr : Delimited rest) : scanWord (lead ++ (w ++ rest)) = (w, rest) := by
  obtain ⟨c, cs, rfl⟩ := List.exists_cons_of_ne_nil hne
  have hsolid : ∀ d ∈ c :: cs, (!isSpace d) = true := fun d hd => by simp [hw.solid d hd]
  have hskip : skipSpace (lead ++ (c :: cs ++ rest)) = c :: cs ++ rest := by
    rw [skipSpace_blank hlead]
    exact skipSpace_solid (hw.solid c List.mem_cons_self) _
  unfold scanWord
  rw [hskip, List.takeWhile_append_of_pos hsolid, List.dropWhile_append_of_pos hsolid]
  cases rest with
  | nil => simp
  | cons d ds =>
    have hd : isSpace d = true := hr d rfl
    simp [hd]

theorem scanf_one {k : Conversion} {gap item rest : List Char} {v : ℤ} (hgap : Blank gap)
    (h : Numeral k item v) (hr : Delimited rest) :
    scanf [k] (gap ++ (item ++ rest)) = ([v], rest) := by
  simp only [scanf, convert_numeral hgap h hr]

theorem scanf_two {k k' : Conversion} {gap item gap' item' rest : List Char} {v v' : ℤ}
    (hgap : Blank gap) (h : Numeral k item v) (hgap' : Gap gap') (h' : Numeral k' item' v')
    (hr : Delimited rest) :
    scanf [k, k'] (gap ++ (item ++ (gap' ++ (item' ++ rest)))) = ([v, v'], rest) := by
  simp only [scanf, convert_numeral hgap h (hgap'.delimited _),
    convert_numeral hgap'.blank h' hr]

end Scan

section Prompt
variable {e : Environment} {s : Console}

theorem nextAction_word {lead more input rest : List Char} {b : Char} {c : Command}
    (hlead : Blank lead) (hw : Word (b :: more)) (hr : Delimited input)
    (hs : switch e b more.head? input = (.command c, rest)) :
    nextAction e (lead ++ (b :: more ++ input)) = some (.command c, rest) := by
  have hword := scanWord_word hlead hw (List.cons_ne_nil b more) hr
  have hfits : ¬ bufferSize < (b :: more).length + 1 := by
    have := hw.fits
    omega
  unfold nextAction
  simp only [hword, if_neg hfits, hs]

/-- A prompt that finds the spelling of a command reads this command. -/
theorem nextAction_spells (e : Environment) {c : Command} {lead text rest : List Char}
    (hlead : Blank lead) (h : Spells c text) (hr : Delimited rest) :
    nextAction e (lead ++ (text ++ rest)) = some (.command c, rest) := by
  cases h with
  | go hb hw =>
    refine nextAction_word hlead hw hr ?_
    rcases hb with rfl | rfl <;> rfl
  | help hw => exact nextAction_word hlead hw hr rfl
  | rdump hb hb' hw =>
    refine nextAction_word hlead hw hr ?_
    rcases hb with rfl | rfl <;> rcases hb' with rfl | rfl <;> rfl
  | invalid hb hw =>
    refine nextAction_word hlead hw hr ?_
    simp only [List.mem_cons, List.not_mem_nil, or_false, not_or] at hb
    simp [switch, hb]
  | run hb hmore hw hgap hv hfit =>
    rw [List.append_assoc, List.append_assoc]
    refine nextAction_word hlead hw (hgap.delimited _) ?_
    have hscan := scanf_one hgap.blank hv hr
    rcases hb with rfl | rfl <;> simp [switch, hmore, hscan, Environment.storeInt, hfit]
  | mdump hb hw hgap hv hfit hgap' hv' hfit' =>
    simp only [List.append_assoc]
    refine nextAction_word hlead hw (hgap.delimited _) ?_
    have hscan := scanf_two hgap.blank hv hgap' hv' hr
    rcases hb with rfl | rfl <;> simp [switch, hscan, Environment.storeInt, hfit, hfit']
  | input hb hw hgap hv hfit hgap' hv' hfit' =>
    simp only [List.append_assoc]
    refine nextAction_word hlead hw (hgap.delimited _) ?_
    have hscan := scanf_two hgap.blank hv hgap' hv' hr
    rcases hb with rfl | rfl <;>
      simp [switch, hscan, Environment.storeInt, Environment.storeLong, hfit, hfit']

/-- A prompt that finds the spelling of a command performs this command. -/
theorem getCommand_spells {c : Command} {lead text rest : List Char} (hlead : Blank lead)
    (h : Spells c text) (hr : Delimited rest) (fuel : ℕ) :
    getCommand e fuel { s with stdin := lead ++ (text ++ rest) } =
      c.perform e fuel { s with stdin := rest } :=
  getCommand_of_read (s := { s with stdin := lead ++ (text ++ rest) })
    (nextAction_spells e hlead h hr) fuel

/-- What is typed is what the prompts read. -/
theorem Typed.commandsRead_eq (e : Environment) {cs : List Command} {input tail : List Char}
    (h : Typed cs input tail) : commandsRead e cs.length input = cs := by
  induction h with
  | done tail => rfl
  | command hlead hc hr _ ih =>
    rw [List.length_cons, commandsRead, nextAction_spells e hlead hc hr]
    exact congrArg (List.cons _) ih

theorem dumpText_append (ds ds' : List Dump) : dumpText (ds ++ ds') = dumpText ds ++ dumpText ds' :=
  List.flatMap_append

theorem dumpText_injective : Function.Injective dumpText :=
  prefixCode_dump.flatMap_injective Dump.text_ne_nil

theorem Typed.prompts_iff {cs : List Command} {input tail : List Char} (h : Typed cs input tail)
    (m m' : Machine) (d : List Char) (ds : List Dump) : Transcript e.cycle m cs ds m' ↔
      ∃ enough, ∀ fuel ≥ enough, iterate (getCommand e fuel) cs.length
        { machine := m, stdin := input, dumpsim := d } =
          .ok { machine := m', stdin := tail, dumpsim := d ++ dumpText ds } := by
  constructor
  · intro ht
    induction h generalizing m d ds with
    | done tail =>
      obtain ⟨rfl, rfl⟩ := ht
      refine ⟨0, fun _ _ => ?_⟩
      rw [dumpText, List.flatMap_nil, List.append_nil]
      rfl
    | @command c cs lead text rest tail hlead hc hr _ ih =>
      obtain ⟨m₁, ds₁, hdone, hcs, rfl⟩ := ht
      let s₀ : Console := { machine := m, stdin := rest, dumpsim := d }
      obtain ⟨enough₁, hperform⟩ := perform_of_completes (e := e) (s := s₀) hdone
      obtain ⟨enough₂, hrest⟩ := ih m₁ (d ++ dumpText (dumps m c)) ds₁ hcs
      refine ⟨max enough₁ enough₂, fun fuel hfuel => ?_⟩
      have hend : c.perform e enough₁ s₀ ≠ .error .running := by simp [hperform]
      have hfirst := (perform_mono hend (by omega : enough₁ ≤ fuel)).trans hperform
      rw [← getCommand_spells (s := s₀) hlead hc hr] at hfirst
      have hlast := hrest fuel (by omega)
      rw [List.append_assoc, ← dumpText_append] at hlast
      exact bind_ok_iff.mpr ⟨_, hfirst, hlast⟩
  · rintro ⟨enough, hit⟩
    have hrun := hit enough le_rfl
    clear hit
    induction h generalizing m d ds with
    | done tail =>
      obtain ⟨rfl, -, hd⟩ := Console.mk.inj (Except.ok.inj hrun)
      have hnil : dumpText ds = dumpText [] := List.self_eq_append_right.mp hd
      exact ⟨rfl, dumpText_injective hnil⟩
    | @command c cs lead text rest tail hlead hc hr _ ih =>
      obtain ⟨s₁, hs₁, hrun⟩ := bind_ok_iff.mp hrun
      rw [getCommand_spells (s := { machine := m, stdin := rest, dumpsim := d }) hlead hc hr] at hs₁
      obtain ⟨hdone, hs⟩ := completes_of_perform hs₁
      -- the file tells which dumps the rest of the commands have made
      obtain ⟨-, ds₁, -, hd⟩ := prompts_transcript hrun
      rw [hs] at hrun hd
      dsimp only at hrun hd
      rw [List.append_assoc, ← dumpText_append] at hd
      obtain rfl := dumpText_injective (List.append_cancel_left hd)
      rw [dumpText_append, ← List.append_assoc] at hrun
      exact ⟨s₁.machine, ds₁, hdone, ih _ _ _ hrun, rfl⟩

end Prompt

section Spelling

/-- A spelling of each command. -/
def spelling : Command → List Char
  | .go => "go".toList
  | .run cycles => "run".toList ++ (" ".toList ++ decimalText cycles.toInt)
  | .mdump start stop => "mdump".toList ++ (" ".toList ++ (decimalText start.toInt ++
      (" ".toList ++ decimalText stop.toInt)))
  | .rdump => "rdump".toList
  | .help => "?".toList
  | .input registerNo registerValue => "input".toList ++ (" ".toList ++
      (decimalText registerNo.toInt ++ (" ".toList ++ hexText registerValue.toNat)))
  | .invalid => "nop".toList

theorem fitsInt_toInt (v : BitVec 32) : FitsInt v.toInt :=
  ⟨BitVec.le_toInt v, BitVec.toInt_lt⟩

theorem word_of_all {w : List Char} (hfits : w.length < bufferSize)
    (hsolid : w.all (fun c => !isSpace c) = true) : Word w :=
  ⟨hfits, fun c hc => by simpa using List.all_eq_true.mp hsolid c hc⟩

theorem gap_singleton {c : Char} (h : isSpace c = true) : Gap [c] :=
  ⟨List.cons_ne_nil _ _, List.forall_mem_singleton.mpr h⟩

theorem spells_spelling (c : Command) : Spells c (spelling c) := by
  have hgap : Gap " ".toList := gap_singleton rfl
  cases c with
  | go => exact .go (.inr rfl) (word_of_all (by decide) (by decide))
  | run cycles =>
    have hw : Word ['r', 'u', 'n'] := word_of_all (by decide) (by decide)
    have h := Spells.run (.inr rfl) (by decide) hw hgap
      (numeral_decimalText cycles.toInt) (fitsInt_toInt cycles)
    rwa [BitVec.ofInt_toInt] at h
  | mdump start stop =>
    have hw : Word ['m', 'd', 'u', 'm', 'p'] := word_of_all (by decide) (by decide)
    have h := Spells.mdump (.inr rfl) hw hgap
      (numeral_integer_decimalText start.toInt) (fitsInt_toInt start) hgap
      (numeral_integer_decimalText stop.toInt) (fitsInt_toInt stop)
    rwa [BitVec.ofInt_toInt, BitVec.ofInt_toInt] at h
  | rdump => exact .rdump (.inr rfl) (.inl rfl) (word_of_all (by decide) (by decide))
  | help => exact .help (word_of_all (by decide) (by decide))
  | input r v =>
    have hw : Word ['i', 'n', 'p', 'u', 't'] := word_of_all (by decide) (by decide)
    have h := Spells.input (.inr rfl) hw hgap
      (numeral_integer_decimalText r.toInt) (fitsInt_toInt r) hgap (numeral_hexText v.toNat)
      (show FitsUnsigned 64 v.toNat from v.isLt)
    rwa [BitVec.ofInt_toInt, BitVec.ofInt_natCast, BitVec.ofNat_toNat, BitVec.setWidth_eq] at h
  | invalid => exact .invalid (by decide) (word_of_all (by decide) (by decide))

theorem exists_typed (cs : List Command) : ∃ input, Delimited input ∧ Typed cs input [] := by
  induction cs with
  | nil => exact ⟨[], delimited_nil, .done []⟩
  | cons c cs ih =>
    obtain ⟨rest, hr, hrest⟩ := ih
    have hgap : Gap "\n".toList := gap_singleton rfl
    exact ⟨_, hgap.delimited _, .command hgap.blank (spells_spelling c) hr hrest⟩

end Spelling

/-- Every sequence of commands can be typed, and however it is typed, the prompts that read it
perform these commands on the machine and append their dumps to the dumpsim file. -/
theorem typed_commands (e : Environment) (cs : List Command) : (∃ input, Typed cs input []) ∧
    ∀ input tail, Typed cs input tail → ∀ (m m' : Machine) (d : List Char) (ds : List Dump),
      Transcript e.cycle m cs ds m' ↔ ∃ enough, ∀ fuel ≥ enough,
        iterate (getCommand e fuel) cs.length { machine := m, stdin := input, dumpsim := d } =
          .ok { machine := m', stdin := tail, dumpsim := d ++ dumpText ds } := by
  obtain ⟨input, -, hinput⟩ := exists_typed cs
  exact ⟨⟨input, hinput⟩, fun input tail h => h.prompts_iff⟩

/-- Conversions out of range wrap, and what a cycle leaves open is zero. -/
def wrapping : Environment where
  cycle _ := .zeroed
  int := BitVec.ofInt 32
  unsigned := BitVec.ofInt 32
  long := BitVec.ofInt 64
  dumpsimOpens := true

theorem transcript_help_rdump (e : Environment) (m : Machine) : Transcript e.cycle m
    [.help, .rdump] [.registers m.instructionCount m.currentState] m :=
  ⟨m, _, rfl, ⟨m, [], rfl, ⟨rfl, rfl⟩, rfl⟩, rfl⟩

/-- Two commands on one line. -/
theorem typed_commands_two : ∃ m enough, ∀ fuel ≥ enough,
    iterate (getCommand wrapping fuel) [Command.help, Command.rdump].length
        { machine := m, stdin := "? rdump".toList, dumpsim := [] } =
      .ok { machine := m, stdin := [],
            dumpsim := [] ++ dumpText [.registers m.instructionCount m.currentState] } := by
  have hgap : Gap " ".toList := gap_singleton rfl
  have htyped : Typed [.help, .rdump] "? rdump".toList [] :=
    .command blank_nil (spells_spelling .help) (hgap.delimited _)
      (.command hgap.blank (spells_spelling .rdump) delimited_nil (.done []))
  exact ⟨initializeMachine (fun _ _ => 0) [[]], ((typed_commands wrapping _).2 _ _ htyped _ _ []
    _).mp (transcript_help_rdump wrapping _)⟩

end ArmSim.Verify
