import Mathlib.Data.List.Basic

/-! Searching a table by key, once and in several passes with different keys. -/
namespace ArmSim.Lookup

variable {α κ : Type*} [BEq κ] [LawfulBEq κ] (key : α → κ)

/-- The first entry with the given key. -/
def lookup (table : List α) (x : κ) : Option α := table.find? fun e => key e == x

/-- The first entry that any of the passes finds, the passes taken in order. -/
def firstHit (table : List α) : List κ → Option α
  | [] => none
  | x :: xs => (lookup key table x).or (firstHit table xs)

variable {key}

theorem lookup_eq_none_iff {table : List α} {x : κ} :
    lookup key table x = none ↔ ∀ e ∈ table, key e ≠ x := by
  simp [lookup]

theorem mem_of_lookup {table : List α} {x : κ} {e : α} (h : lookup key table x = some e) :
    e ∈ table ∧ key e = x :=
  ⟨List.mem_of_find?_eq_some h, by simpa [lookup] using List.find?_some h⟩

/-- When equal keys mean equal entries, the order of the table plays no role. -/
theorem lookup_eq_some_iff {table : List α}
    (hkey : ∀ a ∈ table, ∀ b ∈ table, key a = key b → a = b) {x : κ} {e : α} :
    lookup key table x = some e ↔ e ∈ table ∧ key e = x := by
  constructor
  · exact mem_of_lookup
  · rintro ⟨he, rfl⟩
    cases h : lookup key table (key e) with
    | none => exact absurd rfl (lookup_eq_none_iff.mp h e he)
    | some a =>
      obtain ⟨ha, hk⟩ := mem_of_lookup h
      rw [hkey a ha e he hk]

/-- A later pass counts only when the earlier ones find nothing at all. -/
theorem firstHit_cons_eq_some_iff {table : List α} {x : κ} {xs : List κ} {e : α} :
    firstHit key table (x :: xs) = some e ↔
      lookup key table x = some e ∨
        (∀ a ∈ table, key a ≠ x) ∧ firstHit key table xs = some e := by
  rw [firstHit, Option.or_eq_some_iff, lookup_eq_none_iff]

theorem mem_of_firstHit {table : List α} {xs : List κ} {e : α}
    (h : firstHit key table xs = some e) : e ∈ table := by
  induction xs with
  | nil => simp [firstHit] at h
  | cons x xs ih =>
    rcases firstHit_cons_eq_some_iff.mp h with hx | ⟨-, hxs⟩
    · exact (mem_of_lookup hx).1
    · exact ih hxs

end ArmSim.Lookup
