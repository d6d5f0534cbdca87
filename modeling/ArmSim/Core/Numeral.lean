import ArmSim.Core.Codec
import ArmSim.Core.Scan
import Mathlib.Data.Nat.Digits.Defs
import Mathlib.Tactic.IntervalCases

/-! Integers as the C library reads and writes them. The conversions `%d`, `%i` and `%x` are
recognisers that collect the value; what they accept is the grammar of numerals, and what
`printf` writes is such a numeral. -/
namespace ArmSim.Text
open Scan Codec

/-- The white space of the "C" locale. -/
def isSpace (c : Char) : Bool :=
  c = ' ' || c = '\t' || c = '\n' || c = '\r' || c = '\x0b' || c = '\x0c'

/-- Nothing but white space. -/
def Blank (cs : List Char) : Prop := ∀ c ∈ cs, isSpace c = true

theorem blank_nil : Blank [] := List.forall_mem_nil _

def digitValue (c : Char) : Option ℕ :=
  if '0' ≤ c ∧ c ≤ '9' then some (c.toNat - '0'.toNat)
  else if 'a' ≤ c ∧ c ≤ 'f' then some (c.toNat - 'a'.toNat + 10)
  else if 'A' ≤ c ∧ c ≤ 'F' then some (c.toNat - 'A'.toNat + 10)
  else none

def digit? (b : ℕ) (c : Char) : Option ℕ := (digitValue c).filter (· < b)

/-- The digits `cs` of base `b` behind those that stand for `n`. -/
def accumulate (b n : ℕ) (cs : List Char) : Option ℕ :=
  cs.foldlM (fun n c => (digit? b c).map (b * n + ·)) n

/-- `%d`, `%i` and `%x`. -/
inductive Conversion
  | decimal | integer | hexadecimal
deriving DecidableEq, Repr

/-- How far a numeral has been read. -/
inductive Progress
  | start
  | sign (negative : Bool)
  /-- A first digit 0, which may belong to a prefix `0x`. -/
  | zero (negative : Bool)
  | mark (negative : Bool)
  | digits (negative : Bool) (base n : ℕ)
deriving DecidableEq, Repr

namespace Conversion

/-- The base of a numeral that does not start with 0. -/
def base : Conversion → ℕ
  | decimal | integer => 10
  | hexadecimal => 16

/-- The base behind a first digit 0 without a mark. -/
def zeroBase : Conversion → ℕ
  | decimal => 10
  | integer => 8
  | hexadecimal => 16

def first (k : Conversion) (negative : Bool) (c : Char) : Option Progress :=
  if k ≠ decimal ∧ c = '0' then some (.zero negative)
  else (digit? k.base c).map (.digits negative k.base)

def next (k : Conversion) : Progress → Char → Option Progress
  | .start, c =>
    if c = '+' then some (.sign false)
    else if c = '-' then some (.sign true)
    else k.first false c
  | .sign negative, c => k.first negative c
  | .zero negative, c =>
    if c = 'x' ∨ c = 'X' then some (.mark negative)
    else (digit? k.zeroBase c).map (.digits negative k.zeroBase)
  | .mark negative, c => (digit? 16 c).map (.digits negative 16)
  | .digits negative b n, c => (digit? b c).map fun d => .digits negative b (b * n + d)

end Conversion

def signed (negative : Bool) (n : ℕ) : ℤ := if negative then -n else n

/-- The integer of a complete numeral. -/
def Progress.value : Progress → Option ℤ
  | .zero _ => some 0
  | .digits negative _ n => some (signed negative n)
  | .start | .sign _ | .mark _ => none

/-- One or more digits of base `b` that stand for `n`. -/
def Digits (b : ℕ) (cs : List Char) (n : ℕ) : Prop := cs ≠ [] ∧ accumulate b 0 cs = some n

/-- A numeral without its sign. -/
inductive Magnitude : Conversion → List Char → ℕ → Prop
  | decimal {cs n} : Digits 10 cs n → Magnitude .decimal cs n
  | hexadecimal {cs n} : Digits 16 cs n → Magnitude .hexadecimal cs n
  | integer {cs n} : '0' ∉ cs.head? → Digits 10 cs n → Magnitude .integer cs n
  | octal {cs n} : Digits 8 ('0' :: cs) n → Magnitude .integer ('0' :: cs) n
  | marked {k x cs n} : k ≠ .decimal → x = 'x' ∨ x = 'X' → Digits 16 cs n →
      Magnitude k ('0' :: x :: cs) n

/-- The matching sequences of a conversion, with the integers that they stand for. -/
inductive Numeral (k : Conversion) : List Char → ℤ → Prop
  | unsigned {cs n} : Magnitude k cs n → Numeral k cs n
  | plus {cs n} : Magnitude k cs n → Numeral k ('+' :: cs) n
  | minus {cs n} : Magnitude k cs n → Numeral k ('-' :: cs) (-n)

section Accumulate
variable {b : ℕ}

theorem accumulate_cons (n : ℕ) (c : Char) (cs : List Char) :
    accumulate b n (c :: cs) = (digit? b c).bind fun d => accumulate b (b * n + d) cs := by
  unfold accumulate
  rw [List.foldlM_cons]
  cases digit? b c <;> rfl

theorem accumulate_append (n : ℕ) (cs ds : List Char) :
    accumulate b n (cs ++ ds) = (accumulate b n cs).bind fun m => accumulate b m ds :=
  List.foldlM_append

end Accumulate

section Recogniser
variable {k : Conversion}

theorem after_digits (negative : Bool) (b n : ℕ) (cs : List Char) :
    after k.next (.digits negative b n) cs =
      (accumulate b n cs).map (.digits negative b) := by
  induction cs generalizing n with
  | nil => rfl
  | cons c cs ih =>
    rw [after_cons, accumulate_cons]
    cases hc : digit? b c with
    | none => simp [Conversion.next, hc]
    | some d => simp [Conversion.next, hc, ih]

/-- The first digit brings the recogniser into the state of having read digits. -/
theorem digits_cons {b : ℕ} {c : Char} {cs : List Char} {n : ℕ} : Digits b (c :: cs) n ↔
    ∃ d, digit? b c = some d ∧ accumulate b d cs = some n := by
  simp [Digits, accumulate_cons, Option.bind_eq_some_iff]

private theorem value_after_first (negative : Bool) (b : ℕ) (c : Char) (cs : List Char) (v : ℤ) :
    (((digit? b c).map (Progress.digits negative b)).bind fun t =>
      (after k.next t cs).bind Progress.value) = some v ↔
      ∃ n, Digits b (c :: cs) n ∧ v = signed negative n := by
  simp only [digits_cons]
  cases hc : digit? b c with
  | none => simp
  | some d =>
    simp only [Option.map_some, Option.bind_some, after_digits, Option.some.injEq, exists_eq_left']
    cases accumulate b d cs with
    | none => simp
    | some n => simp [Progress.value, eq_comm]

theorem magnitude_iff_of_ne_zero {c : Char} {cs : List Char} {n : ℕ}
    (h : ¬ (k ≠ .decimal ∧ c = '0')) : Magnitude k (c :: cs) n ↔ Digits k.base (c :: cs) n := by
  constructor
  · intro hm
    cases hm with
    | decimal hd | hexadecimal hd | integer _ hd => exact hd
    | octal | marked => exact absurd ⟨by first | assumption | decide, rfl⟩ h
  · intro hd
    cases k with
    | decimal => exact .decimal hd
    | hexadecimal => exact .hexadecimal hd
    | integer =>
      refine .integer (fun hc => ?_) hd
      exact h ⟨by decide, Option.some.inj hc⟩

theorem magnitude_zero_iff (hk : k ≠ .decimal) {cs : List Char} {n : ℕ} :
    Magnitude k ('0' :: cs) n ↔ Digits k.zeroBase ('0' :: cs) n ∨
      ∃ x ds, cs = x :: ds ∧ (x = 'x' ∨ x = 'X') ∧ Digits 16 ds n := by
  constructor
  · intro hm
    cases hm with
    | decimal => exact absurd rfl hk
    | hexadecimal hd | octal hd => exact .inl hd
    | integer h0 => exact absurd rfl h0
    | marked _ hx hd => exact .inr ⟨_, _, rfl, hx, hd⟩
  · rintro (hd | ⟨x, ds, rfl, hx, hd⟩)
    · cases k with
      | decimal => exact absurd rfl hk
      | hexadecimal => exact .hexadecimal hd
      | integer => exact .octal hd
    · exact .marked hk hx hd

theorem digit?_zero {b : ℕ} (hb : 0 < b) : digit? b '0' = some 0 :=
  Option.filter_eq_some_iff.mpr ⟨rfl, decide_eq_true hb⟩

/-- The mark is no digit. -/
theorem digit?_mark {x : Char} (hx : x = 'x' ∨ x = 'X') (b : ℕ) : digit? b x = none := by
  rcases hx with rfl | rfl <;> rfl

private theorem value_after_zero (hk : k ≠ .decimal) (negative : Bool) (cs : List Char) (v : ℤ) :
    (after k.next (.zero negative) cs).bind Progress.value = some v ↔
      ∃ n, Magnitude k ('0' :: cs) n ∧ v = signed negative n := by
  have hbase : 0 < k.zeroBase := by cases k <;> decide
  have hzero : signed negative 0 = 0 := by cases negative <;> rfl
  simp only [magnitude_zero_iff hk, digits_cons (c := '0'), digit?_zero hbase, Option.some.injEq,
    exists_eq_left']
  cases cs with
  | nil => simp [after, accumulate, Progress.value, hzero, eq_comm]
  | cons c cs =>
    rw [after_cons, accumulate_cons]
    by_cases hx : c = 'x' ∨ c = 'X'
    · -- the mark has to be followed by hexadecimal digits
      have hmark : k.next (.zero negative) c = some (.mark negative) := if_pos hx
      simp only [hmark, digit?_mark hx, Option.bind_some, Option.bind_none, reduceCtorEq, false_or]
      cases cs with
      | nil => simp [after, Progress.value, Digits]
      | cons d ds =>
        rw [after_cons, Option.bind_assoc]
        simpa [hx, Conversion.next] using value_after_first negative 16 d ds v
    · have hplain : k.next (.zero negative) c =
          (digit? k.zeroBase c).map (.digits negative k.zeroBase) := if_neg hx
      have hfirst := value_after_first (k := k) negative k.zeroBase c cs v
      simp only [digits_cons] at hfirst
      rw [hplain, Option.bind_assoc, hfirst]
      simp [hx, Option.bind_eq_some_iff]

theorem not_magnitude_nil (n : ℕ) : ¬ Magnitude k [] n := by
  rintro (h | h | ⟨-, h⟩) <;> exact h.1 rfl

/-- A sign is no digit. -/
theorem not_magnitude_sign {c : Char} (hc : c = '+' ∨ c = '-') (cs : List Char) (n : ℕ) :
    ¬ Magnitude k (c :: cs) n := by
  have hnone (b : ℕ) : digit? b c = none := by rcases hc with rfl | rfl <;> rfl
  have hzero : c ≠ '0' := by rcases hc with rfl | rfl <;> decide
  rw [magnitude_iff_of_ne_zero fun h => hzero h.2, digits_cons, hnone]
  simp

private theorem value_after_sign (negative : Bool) (cs : List Char) (v : ℤ) :
    (after k.next (.sign negative) cs).bind Progress.value = some v ↔
      ∃ n, Magnitude k cs n ∧ v = signed negative n := by
  cases cs with
  | nil =>
    simp [after, Progress.value, not_magnitude_nil]
  | cons c cs =>
    rw [after_cons, Option.bind_assoc]
    change ((k.first negative c).bind _) = _ ↔ _
    unfold Conversion.first
    by_cases h : k ≠ .decimal ∧ c = '0'
    · obtain ⟨hk, rfl⟩ := h
      rw [if_pos ⟨hk, rfl⟩, Option.bind_some]
      exact value_after_zero hk negative cs v
    · simp only [if_neg h, magnitude_iff_of_ne_zero h]
      exact value_after_first negative k.base c cs v

/-- The recogniser accepts the numerals of its conversion, with their value. -/
theorem value_after_start (cs : List Char) (v : ℤ) :
    (after k.next .start cs).bind Progress.value = some v ↔ Numeral k cs v := by
  cases cs with
  | nil =>
    simp only [after, List.foldlM_nil, Progress.value, Option.pure_def, Option.bind_some,
      reduceCtorEq, false_iff]
    rintro ⟨h⟩
    exact not_magnitude_nil _ h
  | cons c cs =>
    rw [after_cons, Option.bind_assoc]
    by_cases hp : c = '+'
    · subst hp
      have hnext : k.next .start '+' = some (.sign false) := rfl
      rw [hnext, Option.bind_some, value_after_sign]
      constructor
      · rintro ⟨n, hn, rfl⟩
        exact .plus hn
      · rintro (h | h | h)
        · exact absurd h (not_magnitude_sign (.inl rfl) _ _)
        · exact ⟨_, h, rfl⟩
    by_cases hm : c = '-'
    · subst hm
      have hnext : k.next .start '-' = some (.sign true) := rfl
      rw [hnext, Option.bind_some, value_after_sign]
      constructor
      · rintro ⟨n, hn, rfl⟩
        exact .minus hn
      · rintro (h | h | h)
        · exact absurd h (not_magnitude_sign (.inr rfl) _ _)
        · exact ⟨_, h, rfl⟩
    · have hnext : k.next .start c = k.next (.sign false) c := by
        simp only [Conversion.next, if_neg hp, if_neg hm]
      rw [hnext, ← Option.bind_assoc, ← after_cons, value_after_sign]
      constructor
      · rintro ⟨n, hn, rfl⟩
        exact .unsigned hn
      · rintro (h | h | h)
        · exact ⟨_, h, rfl⟩
        · exact absurd rfl hp
        · exact absurd rfl hm

/-- Every state can be completed to a numeral. -/
theorem next_live (s : Progress) : ∃ more t, after k.next s more = some t ∧ t.value.isSome := by
  have hfirst (negative : Bool) : ∃ t, after k.next (.sign negative) ['0'] = some t ∧
      t.value.isSome := by
    cases k <;> exact ⟨_, rfl, rfl⟩
  cases s with
  | start =>
    obtain ⟨t, ht, hv⟩ := hfirst false
    exact ⟨['0'], t, ht, hv⟩
  | sign negative =>
    obtain ⟨t, ht, hv⟩ := hfirst negative
    exact ⟨['0'], t, ht, hv⟩
  | mark negative => exact ⟨['0'], .digits negative 16 0, rfl, rfl⟩
  | zero negative => exact ⟨[], .zero negative, rfl, rfl⟩
  | digits negative b n => exact ⟨[], .digits negative b n, rfl, rfl⟩

/-- The input item of a conversion: the longest beginning of the input that is a numeral or can
be continued to one. -/
structure InputItem (k : Conversion) (input item rest : List Char) : Prop where
  split : input = item ++ rest
  viable : ∃ more v, Numeral k (item ++ more) v
  longest : ∀ other, other <+: input → (∃ more v, Numeral k (other ++ more) v) → other <+: item

private theorem viable_iff_numeral {item : List Char} :
    Viable k.next Progress.value .start item ↔ ∃ more v, Numeral k (item ++ more) v := by
  simp only [Viable, ← value_after_start, Option.bind_eq_some_iff, Option.isSome_iff_exists]
  constructor
  · rintro ⟨more, t, ht, v, hv⟩
    exact ⟨more, v, t, ht, hv⟩
  · rintro ⟨more, v, t, ht, hv⟩
    exact ⟨more, t, ht, v, hv⟩

theorem inputItem_iff {input item rest : List Char} : InputItem k input item rest ↔
    LongestItem k.next Progress.value .start input item rest := by
  constructor
  · rintro ⟨hsplit, hviable, hlongest⟩
    refine ⟨hsplit, viable_iff_numeral.mpr hviable, fun other hother hv => ?_⟩
    exact hlongest other hother (viable_iff_numeral.mp hv)
  · rintro ⟨hsplit, hviable, hlongest⟩
    refine ⟨hsplit, viable_iff_numeral.mp hviable, fun other hother hv => ?_⟩
    exact hlongest other hother (viable_iff_numeral.mpr hv)

theorem inputItem_of_munch {input rest : List Char} {t : Progress}
    (h : munch k.next .start input = (t, rest)) :
    ∃ item, after k.next .start item = some t ∧ InputItem k input item rest := by
  obtain ⟨item, ht, hitem⟩ := longestItem_of_munch next_live h
  exact ⟨item, ht, inputItem_iff.mpr hitem⟩

/-- The input item is what the recogniser reads. -/
theorem InputItem.munch {input item rest : List Char} (h : InputItem k input item rest) :
    ∃ t, after k.next .start item = some t ∧ munch k.next .start input = (t, rest) := by
  obtain ⟨item', ht, h'⟩ := longestItem_of_munch next_live
    (Prod.eta (Scan.munch k.next .start input)).symm
  obtain ⟨rfl, hrest⟩ := (inputItem_iff.mp h).unique h'
  exact ⟨_, ht, by rw [hrest]⟩

/-- The text cannot go on with a digit or the mark of a prefix. -/
def Ends (rest : List Char) : Prop :=
  ∀ c ∈ rest.head?, digitValue c = none ∧ c ≠ 'x' ∧ c ≠ 'X'

instance : DecidablePred Ends
  | [] => isTrue nofun
  | c :: _ => decidable_of_iff (digitValue c = none ∧ c ≠ 'x' ∧ c ≠ 'X') (by simp [Ends])

theorem stops_of_ends {t : Progress} (ht : t.value.isSome) {rest : List Char} (h : Ends rest) :
    Stops k.next t rest := by
  intro c hc
  obtain ⟨hd, hx, hX⟩ := h c hc
  have hnone (b : ℕ) : digit? b c = none := by rw [digit?, hd, Option.filter_none]
  cases t with
  | start | sign | mark => exact absurd ht nofun
  | zero => simp [Conversion.next, hx, hX, hnone]
  | digits => simp [Conversion.next, hnone]

/-- A numeral that cannot go on is read as a whole. -/
theorem munch_numeral {item rest : List Char} {v : ℤ} (h : Numeral k item v) (hr : Ends rest) :
    ∃ t, munch k.next .start (item ++ rest) = (t, rest) ∧ t.value = some v := by
  obtain ⟨t, ht, hv⟩ := Option.bind_eq_some_iff.mp ((value_after_start item v).mpr h)
  exact ⟨t, munch_append ht (stops_of_ends (by rw [hv]; rfl) hr), hv⟩

theorem inputItem_of_ends {item rest : List Char} {v : ℤ} (h : Numeral k item v)
    (hr : Ends rest) : InputItem k (item ++ rest) item rest := by
  obtain ⟨t, hmunch, -⟩ := munch_numeral h hr
  obtain ⟨item', -, hitem⟩ := inputItem_of_munch hmunch
  rwa [← List.append_cancel_right hitem.split] at hitem

theorem digitValue_of_isSpace {c : Char} (h : isSpace c = true) :
    digitValue c = none ∧ c ≠ 'x' ∧ c ≠ 'X' := by
  simp only [isSpace, Bool.or_eq_true, decide_eq_true_eq] at h
  rcases h with ((((rfl | rfl) | rfl) | rfl) | rfl) | rfl <;> decide

/-- A numeral starts with its sign or with a digit. -/
theorem Numeral.head {cs : List Char} {v : ℤ} (h : Numeral k cs v) :
    ∃ c ds, cs = c :: ds ∧ isSpace c = false := by
  have hdigits {b : ℕ} {ds : List Char} {n : ℕ} (hd : Digits b ds n) :
      ∃ c es, ds = c :: es ∧ isSpace c = false := by
    obtain ⟨c, es, rfl⟩ := List.exists_cons_of_ne_nil hd.1
    obtain ⟨d, hc, -⟩ := digits_cons.mp hd
    refine ⟨c, es, rfl, Bool.eq_false_iff.mpr fun hs => ?_⟩
    rw [digit?, (digitValue_of_isSpace hs).1] at hc
    exact absurd hc nofun
  cases h with
  | plus | minus => exact ⟨_, _, rfl, rfl⟩
  | unsigned h =>
    cases h with
    | decimal hd | hexadecimal hd | integer _ hd | octal hd => exact hdigits hd
    | marked => exact ⟨_, _, rfl, rfl⟩

/-- The value of a numeral and the text behind it can be told from their concatenation. -/
theorem Numeral.unique {item item' rest rest' : List Char} {v v' : ℤ} (h : Numeral k item v)
    (hr : Ends rest) (h' : Numeral k item' v') (hr' : Ends rest')
    (heq : item ++ rest = item' ++ rest') : v = v' ∧ rest = rest' := by
  obtain ⟨t, ht, hv⟩ := munch_numeral h hr
  obtain ⟨t', ht', hv'⟩ := munch_numeral h' hr'
  rw [heq, ht'] at ht
  obtain ⟨rfl, rfl⟩ := Prod.mk.inj ht
  exact ⟨Option.some.inj (hv.symm.trans hv'), rfl⟩

theorem Ends.append {d : List Char} (hd : d ≠ []) (h : Ends d) (rest : List Char) :
    Ends (d ++ rest) := by
  obtain ⟨c, cs, rfl⟩ := List.exists_cons_of_ne_nil hd
  exact h

/-- Numerals before a text that ends them. -/
theorem prefixCode_numeral {α : Type*} {f : α → List Char} (val : α → ℤ)
    (hf : ∀ a, Numeral k (f a) (val a)) (hval : Function.Injective val) {d : List Char}
    (hd : d ≠ []) (hends : Ends d) : PrefixCode fun a => f a ++ d := by
  intro a b s t h
  rw [List.append_assoc, List.append_assoc] at h
  obtain ⟨hab, hst⟩ := (hf a).unique (hends.append hd s) (hf b) (hends.append hd t) h
  exact ⟨hval hab, List.append_cancel_left hst⟩

end Recogniser

/-! ### Printing -/

/-- `%d` and, for what is not negative, `%u`. -/
def decimalText (v : ℤ) : List Char :=
  if v < 0 then '-' :: Nat.toDigits 10 v.natAbs else Nat.toDigits 10 v.natAbs

/-- `%x`. -/
def hexText (n : ℕ) : List Char := Nat.toDigits 16 n

/-- `%0<width>x`. -/
def paddedHexText (width n : ℕ) : List Char :=
  List.replicate (width - (hexText n).length) '0' ++ hexText n

theorem digit?_digitChar {b d : ℕ} (hb : b ≤ 16) (hd : d < b) :
    digit? b (Nat.digitChar d) = some d := by
  have hvalue : ∀ d < 16, digitValue (Nat.digitChar d) = some d := by decide
  exact Option.filter_eq_some_iff.mpr ⟨hvalue d (by omega), decide_eq_true hd⟩

/-- Induction on the digits, the last one taken off first. -/
theorem accumulate_toDigits {b : ℕ} (hb : 1 < b) (hb' : b ≤ 16) (n : ℕ) :
    accumulate b 0 (Nat.toDigits b n) = some n := by
  induction n using Nat.strong_induction_on with
  | h n ih =>
    by_cases hn : n < b
    · rw [Nat.toDigits_of_lt_base hn, accumulate_cons, digit?_digitChar hb' hn]
      simp [accumulate]
    · have hlt : n / b < n := Nat.div_lt_self (by omega) hb
      have hmod : n % b < b := Nat.mod_lt n (by omega)
      rw [Nat.toDigits_of_base_le hb (by omega), accumulate_append, ih _ hlt, Option.bind_some,
        accumulate_cons, digit?_digitChar hb' hmod]
      simp [accumulate, Nat.div_add_mod]

theorem digits_toDigits {b : ℕ} (hb : 1 < b) (hb' : b ≤ 16) (n : ℕ) :
    Digits b (Nat.toDigits b n) n := ⟨Nat.toDigits_ne_nil, accumulate_toDigits hb hb' n⟩

theorem Digits.pad {b : ℕ} {cs : List Char} {n : ℕ} (hb : 0 < b) (h : Digits b cs n) (k : ℕ) :
    Digits b (List.replicate k '0' ++ cs) n := by
  induction k with
  | zero => exact h
  | succ k ih => exact digits_cons.mpr ⟨0, digit?_zero hb, ih.2⟩

theorem numeral_of_magnitude {k : Conversion} {v : ℤ}
    (h : Magnitude k (Nat.toDigits 10 v.natAbs) v.natAbs) : Numeral k (decimalText v) v := by
  unfold decimalText
  split
  · have hv : v = -(v.natAbs : ℤ) := by omega
    rw [hv, Int.natAbs_neg, Int.natAbs_natCast]
    exact .minus h
  · have hv : v = (v.natAbs : ℤ) := by omega
    rw [hv, Int.natAbs_natCast]
    exact .unsigned h

theorem numeral_decimalText (v : ℤ) : Numeral .decimal (decimalText v) v :=
  numeral_of_magnitude (.decimal (digits_toDigits (by decide) (by decide) _))

/-- Only the numeral of zero starts with the digit 0. -/
theorem digitChar_eq_zero_of_head {b n : ℕ} (hb : 1 < b) (h : '0' ∈ (Nat.toDigits b n).head?) :
    n = 0 := by
  induction n using Nat.strong_induction_on with
  | h n ih =>
    by_cases hn : n < b
    · rw [Nat.toDigits_of_lt_base hn] at h
      exact Nat.digitChar_eq_zero.mp (Option.some.inj h)
    · have hlt : n / b < n := Nat.div_lt_self (by omega) hb
      have hpos : 0 < n / b := Nat.div_pos (by omega) (by omega)
      rw [Nat.toDigits_of_base_le hb (by omega),
        List.head?_append_of_ne_nil _ Nat.toDigits_ne_nil] at h
      have hzero := ih _ hlt h
      omega

theorem numeral_integer_decimalText (v : ℤ) : Numeral .integer (decimalText v) v := by
  apply numeral_of_magnitude
  by_cases h : '0' ∈ (Nat.toDigits 10 v.natAbs).head?
  · rw [digitChar_eq_zero_of_head (by decide) h]
    exact .octal ⟨List.cons_ne_nil _ _, rfl⟩
  · exact .integer h (digits_toDigits (by decide) (by decide) _)

theorem numeral_hexText (n : ℕ) : Numeral .hexadecimal (hexText n) n :=
  .unsigned (.hexadecimal (digits_toDigits (by decide) (by decide) n))

theorem numeral_paddedHexText (width n : ℕ) : Numeral .hexadecimal (paddedHexText width n) n :=
  .unsigned (.hexadecimal ((digits_toDigits (by decide) (by decide) n).pad (by decide) _))

end ArmSim.Text
