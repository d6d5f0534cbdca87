import Mathlib.Data.List.Basic
import Mathlib.Data.Prod.Basic
import Mathlib.Tactic.Common

/-! Writers whose output tells the value that was written and where its text ends, whatever
follows. They are closed under the ways in which a report is put together from its parts. -/
namespace ArmSim.Codec

universe u v w

variable {α : Type u} {γ : Type v} {ι : Type w}

/-- The value and the rest of the text can be told from their concatenation. -/
def PrefixCode (f : α → List γ) : Prop := ∀ a b s t, f a ++ s = f b ++ t → a = b ∧ s = t

variable {f : α → List γ}

/-- A text of `f` that is closed by `l`, with the rest of the report behind it. -/
theorem PrefixCode.cancel {l : List γ} (hf : PrefixCode fun a => f a ++ l) {a b : α}
    {s t : List γ} (h : f a ++ (l ++ s) = f b ++ (l ++ t)) : a = b ∧ s = t := by
  rw [← List.append_assoc, ← List.append_assoc] at h
  exact hf a b s t h

/-- No text of `f` can be mistaken for the beginning of a text that starts with `l`. -/
def Apart (f : α → List γ) (l : List γ) : Prop := ∀ a s t, f a ++ s ≠ l ++ t

/-- Any number of items, closed by a text that no item starts with. -/
theorem PrefixCode.list (hf : PrefixCode f) {stop : List γ} (hstop : Apart f stop) :
    PrefixCode fun as : List α => as.flatMap f ++ stop := by
  intro as bs s t h
  rw [List.append_assoc, List.append_assoc] at h
  induction as generalizing bs with
  | nil =>
    cases bs with
    | nil => exact ⟨rfl, List.append_cancel_left h⟩
    | cons b bs =>
      rw [List.flatMap_cons, List.append_assoc] at h
      exact absurd h.symm (hstop b _ _)
  | cons a as ih =>
    rw [List.flatMap_cons, List.append_assoc] at h
    cases bs with
    | nil => exact absurd h (hstop a _ _)
    | cons b bs =>
      rw [List.flatMap_cons, List.append_assoc] at h
      obtain ⟨rfl, hrest⟩ := hf a b _ _ h
      obtain ⟨rfl, hst⟩ := ih bs hrest
      exact ⟨rfl, hst⟩

/-- The items of a fixed list of places, each written in the way of its place. -/
theorem prefixCode_family {f : ι → α → List γ} (hf : ∀ k, PrefixCode (f k)) (ks : List ι)
    {r r' : ι → α} {s t : List γ}
    (h : (ks.flatMap fun k => f k (r k)) ++ s = (ks.flatMap fun k => f k (r' k)) ++ t) :
    (∀ k ∈ ks, r k = r' k) ∧ s = t := by
  induction ks with
  | nil => exact ⟨nofun, h⟩
  | cons k ks ih =>
    rw [List.flatMap_cons, List.flatMap_cons, List.append_assoc, List.append_assoc] at h
    obtain ⟨hk, h⟩ := hf k _ _ _ _ h
    obtain ⟨hks, hst⟩ := ih h
    exact ⟨List.forall_mem_cons.mpr ⟨hk, hks⟩, hst⟩

/-- A sequence of texts tells the sequence of values. -/
theorem PrefixCode.flatMap_injective (hf : PrefixCode f) (hne : ∀ a, f a ≠ []) :
    Function.Injective fun as : List α => as.flatMap f := by
  intro as bs h
  dsimp only at h
  induction as generalizing bs with
  | nil =>
    cases bs with
    | nil => rfl
    | cons b bs => exact absurd (List.append_eq_nil_iff.mp h.symm).1 (hne b)
  | cons a as ih =>
    cases bs with
    | nil => exact absurd (List.append_eq_nil_iff.mp h).1 (hne a)
    | cons b bs =>
      rw [List.flatMap_cons, List.flatMap_cons] at h
      obtain ⟨rfl, hrest⟩ := hf a b _ _ h
      rw [ih hrest]

end ArmSim.Codec
