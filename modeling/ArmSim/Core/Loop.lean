import Mathlib.Data.Nat.Notation
import Mathlib.Logic.Relation
import Mathlib.Tactic.Common

/-! Partial step functions and the two loops that drive them: a counted loop that
stops early on a halted state, and an unbounded loop evaluated with fuel. Nothing
here depends on what a step does. -/
namespace ArmSim.Loop
open Relation

universe u v

variable {σ : Type u} {ε : Type v} (step : σ → Except ε σ) (halted : σ → Bool)

/-- Exactly `n` steps, without any halting test. -/
def iterate : ℕ → σ → Except ε σ
  | 0, s => .ok s
  | n + 1, s => step s >>= iterate n

/-- At most `n` steps; the halting test comes before each of them. -/
def counted : ℕ → σ → Except ε σ
  | 0, s => .ok s
  | n + 1, s => if halted s then .ok s else step s >>= counted n

/-- Step until halted. `none` means that the fuel ran out first. -/
def unbounded : ℕ → σ → Except ε (Option σ)
  | 0, s => .ok (if halted s then some s else none)
  | n + 1, s => if halted s then .ok (some s) else step s >>= unbounded n

/-- The first halted state after `s` is `t`, reached by exactly `k` steps. -/
def FirstHalt (k : ℕ) (s t : σ) : Prop :=
  iterate step k s = .ok t ∧ halted t = true ∧
    ∀ j < k, ∃ u, iterate step j s = .ok u ∧ halted u = false

theorem bind_ok_iff {α β : Type u} {x : Except ε α} {f : α → Except ε β} {b : β} :
    (x >>= f) = .ok b ↔ ∃ a, x = .ok a ∧ f a = .ok b := by
  cases x with
  | error e => simp [bind, Except.bind]
  | ok a => simp [bind, Except.bind]

theorem map_ok_iff {α β : Type u} {x : Except ε α} {f : α → β} {b : β} :
    x.map f = .ok b ↔ ∃ a, x = .ok a ∧ f a = b := by
  cases x <;> simp [Except.map]

/-- The computation succeeds with a value that meets `P`. -/
def Yields {α : Type u} (x : Except ε α) (P : α → Prop) : Prop := ∃ a, x = .ok a ∧ P a

section Yields
variable {α β : Type u} {x : Except ε α} {P : α → Prop}

theorem yields_iff {a : α} (h : x = .ok a) : Yields x P ↔ P a := by
  simp [Yields, h]

theorem yields_bind {f : α → Except ε β} {Q : β → Prop} :
    Yields (x >>= f) Q ↔ Yields x fun a => Yields (f a) Q := by
  simp only [Yields, bind_ok_iff]
  constructor
  · rintro ⟨b, ⟨a, ha, hb⟩, hQ⟩
    exact ⟨a, ha, b, hb, hQ⟩
  · rintro ⟨a, ha, b, hb, hQ⟩
    exact ⟨b, ⟨a, ha, hb⟩, hQ⟩

end Yields

variable {step halted}

theorem counted_of_halted {s : σ} (hs : halted s = true) (n : ℕ) :
    counted step halted n s = .ok s := by
  cases n <;> simp [counted, hs]

theorem unbounded_of_halted {s : σ} (hs : halted s = true) (n : ℕ) :
    unbounded step halted n s = .ok (some s) := by
  cases n <;> simp [unbounded, hs]

/-- A loop that has ended does not notice more fuel. -/
theorem unbounded_mono {m n : ℕ} {s : σ} (h : unbounded step halted m s ≠ .ok none)
    (hmn : m ≤ n) : unbounded step halted n s = unbounded step halted m s := by
  induction m generalizing s n with
  | zero =>
    cases hs : halted s with
    | true => rw [unbounded_of_halted hs, unbounded_of_halted hs]
    | false => exact absurd (by simp [unbounded, hs]) h
  | succ m ih =>
    obtain ⟨n, rfl⟩ : ∃ k, n = k + 1 := ⟨n - 1, by omega⟩
    simp only [unbounded] at h ⊢
    split_ifs at h ⊢
    · rfl
    · cases hstep : step s with
      | error e => rfl
      | ok s' =>
        rw [hstep] at h
        exact ih h (by omega)

/-- A counted loop may be cut at any point, also at or after the halting step. -/
theorem counted_add (m n : ℕ) (s : σ) :
    counted step halted (m + n) s = counted step halted m s >>= counted step halted n := by
  induction m generalizing s with
  | zero => rw [Nat.zero_add]; rfl
  | succ m ih =>
    rw [Nat.succ_add]
    cases hs : halted s with
    | true =>
      simp only [counted, hs, if_true]
      exact (counted_of_halted hs n).symm
    | false =>
      simp only [counted, hs, Bool.false_eq_true, if_false, bind_assoc]
      exact bind_congr ih

/-- The two loops agree with `k` plain steps once the bound reaches the first halt. -/
theorem FirstHalt.loops_eq {k : ℕ} {s t : σ} (h : FirstHalt step halted k s t) {n : ℕ}
    (hn : k ≤ n) :
    counted step halted n s = .ok t ∧ unbounded step halted n s = .ok (some t) := by
  obtain ⟨hit, ht, hbefore⟩ := h
  induction k generalizing s n with
  | zero =>
    obtain rfl : s = t := Except.ok.inj hit
    exact ⟨counted_of_halted ht n, unbounded_of_halted ht n⟩
  | succ k ih =>
    obtain ⟨n, rfl⟩ : ∃ m, n = m + 1 := ⟨n - 1, by omega⟩
    obtain ⟨u, hu, hit⟩ := bind_ok_iff.mp hit
    have hs : halted s = false := by
      obtain ⟨s', hs', hf⟩ := hbefore 0 (by omega)
      rwa [Except.ok.inj hs']
    have hlater : ∀ j < k, ∃ v, iterate step j u = .ok v ∧ halted v = false := by
      intro j hj
      obtain ⟨v, hv, hf⟩ := hbefore (j + 1) (by omega)
      obtain ⟨u', hu', hv⟩ := bind_ok_iff.mp hv
      rw [hu] at hu'
      exact ⟨v, Except.ok.inj hu' ▸ hv, hf⟩
    obtain ⟨hc, hw⟩ := ih (by omega : k ≤ n) hit hlater
    constructor
    · simp only [counted, hs]
      exact bind_ok_iff.mpr ⟨u, hu, hc⟩
    · simp only [unbounded, hs]
      exact bind_ok_iff.mpr ⟨u, hu, hw⟩

theorem iterate_succ_right (n : ℕ) (s : σ) :
    iterate step (n + 1) s = iterate step n s >>= step := by
  induction n generalizing s with
  | zero => exact bind_pure (step s)
  | succ n ih =>
    change step s >>= iterate step (n + 1) = (step s >>= iterate step n) >>= step
    rw [bind_assoc]
    exact bind_congr ih

/-- What a step preserves on the states of a class lasts while the run stays in the class. -/
theorem iterate_keeps {P Q : σ → Prop} (hstep : ∀ a b, P a → Q a → step a = .ok b → P b)
    {n : ℕ} {s t : σ} (hs : P s) (hQ : ∀ j < n, ∀ v, iterate step j s = .ok v → Q v)
    (h : iterate step n s = .ok t) : P t := by
  induction n generalizing t with
  | zero => exact Except.ok.inj h ▸ hs
  | succ n ih =>
    rw [iterate_succ_right] at h
    obtain ⟨v, hv, h⟩ := bind_ok_iff.mp h
    have hPv := ih (fun j hj => hQ j (by omega)) hv
    exact hstep v t hPv (hQ n (by omega) v hv) h

section Reach
variable {R : σ → σ → Prop} (hR : ∀ a b, step a = .ok b → R a b)
include hR

theorem counted_reaches {n : ℕ} {s t : σ} (h : counted step halted n s = .ok t) :
    ReflTransGen R s t := by
  induction n generalizing s with
  | zero => exact Except.ok.inj h ▸ .refl
  | succ n ih =>
    simp only [counted] at h
    split_ifs at h with hs
    · exact Except.ok.inj h ▸ .refl
    · obtain ⟨u, hu, h⟩ := bind_ok_iff.mp h
      exact .head (hR s u hu) (ih h)

theorem unbounded_reaches {n : ℕ} {s t : σ} (h : unbounded step halted n s = .ok (some t)) :
    ReflTransGen R s t := by
  induction n generalizing s with
  | zero =>
    simp only [unbounded] at h
    split_ifs at h with hs
    · exact Option.some.inj (Except.ok.inj h) ▸ .refl
    · simp at h
  | succ n ih =>
    simp only [unbounded] at h
    split_ifs at h with hs
    · exact Option.some.inj (Except.ok.inj h) ▸ .refl
    · obtain ⟨u, hu, h⟩ := bind_ok_iff.mp h
      exact .head (hR s u hu) (ih h)

end Reach

end ArmSim.Loop
