import Mathlib.Data.List.Infix
import Mathlib.Data.Nat.Notation
import Mathlib.Tactic.Common

/-! Reading the longest item that an input starts with. A recogniser takes one symbol after the
other for as long as the symbols read can still be continued to a sequence that it accepts; the
first symbol that ends this remains unread. -/
namespace ArmSim.Scan

universe u v w

variable {σ : Type u} {α : Type v} {β : Type w} (next : σ → α → Option σ)

/-- The state after a whole sequence, if all of it can be read. -/
def after (s : σ) (as : List α) : Option σ := as.foldlM next s

/-- The state in which reading stops, and the rest of the input. -/
def munch (s : σ) : List α → σ × List α
  | [] => (s, [])
  | a :: as =>
    match next s a with
    | some t => munch t as
    | none => (s, a :: as)

/-- The input is empty or starts with a symbol that cannot be read. -/
def Stops (s : σ) (input : List α) : Prop := ∀ a ∈ input.head?, next s a = none

/-- A sequence that can be continued to an accepted one. -/
def Viable (value : σ → Option β) (s : σ) (item : List α) : Prop :=
  ∃ more t, after next s (item ++ more) = some t ∧ (value t).isSome

/-- The longest beginning of the input that is viable. -/
structure LongestItem (value : σ → Option β) (s : σ) (input item rest : List α) : Prop where
  split : input = item ++ rest
  viable : Viable next value s item
  longest : ∀ other, other <+: input → Viable next value s other → other <+: item

variable {next}

theorem after_cons {s : σ} (a : α) (as : List α) :
    after next s (a :: as) = (next s a).bind fun t => after next t as := List.foldlM_cons

theorem after_append {s : σ} (as bs : List α) :
    after next s (as ++ bs) = (after next s as).bind fun t => after next t bs := List.foldlM_append

theorem stops_nil (s : σ) : Stops next s [] := nofun

theorem stops_cons {s : σ} {a : α} {as : List α} : Stops next s (a :: as) ↔ next s a = none := by
  simp [Stops]

/-- Reading stops exactly where no further symbol can be read. -/
theorem munch_eq_iff {s t : σ} {input rest : List α} : munch next s input = (t, rest) ↔
    ∃ item, input = item ++ rest ∧ after next s item = some t ∧ Stops next t rest := by
  induction input generalizing s with
  | nil =>
    unfold munch
    constructor
    · intro h
      obtain ⟨rfl, rfl⟩ := Prod.mk.inj h
      exact ⟨[], rfl, rfl, stops_nil _⟩
    · rintro ⟨item, hsplit, hafter, -⟩
      obtain ⟨rfl, rfl⟩ := List.append_eq_nil_iff.mp hsplit.symm
      rw [Option.some.inj hafter]
  | cons a as ih =>
    unfold munch
    cases ha : next s a with
    | none =>
      constructor
      · rintro ⟨⟩
        exact ⟨[], rfl, rfl, stops_cons.mpr ha⟩
      · rintro ⟨_ | ⟨b, item⟩, hsplit, hafter, -⟩
        · rw [hsplit, Option.some.inj hafter]
          rfl
        · obtain ⟨rfl, -⟩ := List.cons.inj hsplit
          rw [after_cons, ha] at hafter
          exact absurd hafter nofun
    | some s' =>
      dsimp only
      rw [ih]
      constructor
      · rintro ⟨item, rfl, hafter, hstops⟩
        refine ⟨a :: item, rfl, ?_, hstops⟩
        rw [after_cons, ha]
        exact hafter
      · rintro ⟨_ | ⟨b, item⟩, hsplit, hafter, hstops⟩
        · -- nothing is read although the first symbol can be
          obtain rfl := Option.some.inj hafter
          rw [← List.nil_append rest, ← hsplit, stops_cons, ha] at hstops
          exact absurd hstops nofun
        · obtain ⟨rfl, rfl⟩ := List.cons.inj hsplit
          rw [after_cons, ha] at hafter
          exact ⟨item, rfl, hafter, hstops⟩

theorem munch_append {s t : σ} {item rest : List α} (hafter : after next s item = some t)
    (hstops : Stops next t rest) : munch next s (item ++ rest) = (t, rest) :=
  munch_eq_iff.mpr ⟨item, rfl, hafter, hstops⟩

/-- No symbol is read twice or invented. -/
theorem munch_length_le (s : σ) (input : List α) :
    (munch next s input).2.length ≤ input.length := by
  obtain ⟨item, hsplit, -, -⟩ := munch_eq_iff.mp (Prod.eta (munch next s input)).symm
  have hlen := congrArg List.length hsplit
  rw [List.length_append] at hlen
  omega

section Longest
variable {value : σ → Option β} (hlive : ∀ s, ∃ more t, after next s more = some t ∧
  (value t).isSome)
include hlive

/-- If every state can reach an accepting one, a sequence is viable as soon as it can be read. -/
theorem viable_iff {s : σ} {item : List α} :
    Viable next value s item ↔ (after next s item).isSome := by
  constructor
  · rintro ⟨more, t, hafter, -⟩
    rw [after_append] at hafter
    obtain ⟨t', ht', -⟩ := Option.bind_eq_some_iff.mp hafter
    rw [ht']
    rfl
  · intro h
    obtain ⟨t, ht⟩ := Option.isSome_iff_exists.mp h
    obtain ⟨more, t', hmore, hvalue⟩ := hlive t
    refine ⟨more, t', ?_, hvalue⟩
    rw [after_append, ht]
    exact hmore

/-- What is read is the longest viable beginning of the input. -/
theorem longestItem_of_munch {s t : σ} {input rest : List α}
    (h : munch next s input = (t, rest)) :
    ∃ item, after next s item = some t ∧ LongestItem next value s input item rest := by
  obtain ⟨item, hsplit, hafter, hstops⟩ := munch_eq_iff.mp h
  refine ⟨item, hafter, hsplit, (viable_iff hlive).mpr (by rw [hafter]; rfl), ?_⟩
  rintro other ⟨tail, htail⟩ hviable
  rw [viable_iff hlive] at hviable
  rw [hsplit] at htail
  rcases List.append_eq_append_iff.mp htail with ⟨more, rfl, -⟩ | ⟨more, rfl, rfl⟩
  · exact List.prefix_append other more
  · -- a longer sequence would continue with the symbol at which reading stopped
    cases more with
    | nil => rw [List.append_nil]
    | cons a as =>
      rw [after_append, hafter] at hviable
      have hnone := stops_cons.mp hstops
      rw [Option.bind_some, after_cons, hnone] at hviable
      exact absurd hviable nofun

end Longest

theorem LongestItem.unique {value : σ → Option β} {s : σ} {input item item' rest rest' : List α}
    (h : LongestItem next value s input item rest)
    (h' : LongestItem next value s input item' rest') : item = item' ∧ rest = rest' := by
  have hle : item <+: item' := h'.longest item ⟨rest, h.split.symm⟩ h.viable
  have hge : item' <+: item := h.longest item' ⟨rest', h'.split.symm⟩ h'.viable
  obtain rfl := List.IsPrefix.eq_of_length_le hle hge.length_le
  exact ⟨rfl, List.append_cancel_left (h.split.symm.trans h'.split)⟩

end ArmSim.Scan
