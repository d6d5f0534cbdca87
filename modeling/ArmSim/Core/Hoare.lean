import ArmSim.Core.Simulation

/-! Pre- and postconditions with a count of the steps. One assertion leads to another if every
state with the first has a run of exactly so many steps to a state with the second. -/
namespace ArmSim.Hoare
open Simulation

universe u v

variable {α : Type u} (Next : α → α → Prop)

def Leads (P : α → Prop) (n : ℕ) (Q : α → Prop) : Prop := ∀ a, P a → ∃ b, Run Next n a b ∧ Q b

variable {Next} {P Q R : α → Prop} {m n : ℕ}

theorem Leads.skip (h : ∀ a, P a → Q a) : Leads Next P 0 Q :=
  fun a ha => ⟨a, .done a, h a ha⟩

theorem Leads.step (h : ∀ a, P a → ∃ b, Next a b ∧ Q b) : Leads Next P 1 Q := by
  intro a ha
  obtain ⟨b, hab, hb⟩ := h a ha
  exact ⟨b, .step hab (.done b), hb⟩

theorem Leads.seq (h : Leads Next P m Q) (h' : Leads Next Q n R) : Leads Next P (m + n) R := by
  intro a ha
  obtain ⟨b, hab, hb⟩ := h a ha
  obtain ⟨c, hbc, hc⟩ := h' b hb
  exact ⟨c, hab.append hbc, hc⟩

theorem Leads.mono (h : Leads Next P n Q) (hQ : ∀ a, Q a → R a) : Leads Next P n R := by
  intro a ha
  obtain ⟨b, hab, hb⟩ := h a ha
  exact ⟨b, hab, hQ b hb⟩

/-- A loop of `n` rounds, all of the same length. The assertion tells how many are left. -/
theorem Leads.counted {I : ℕ → α → Prop} (h : ∀ k < n, Leads Next (I (k + 1)) m (I k)) :
    Leads Next (I n) (m * n) (I 0) := by
  induction n with
  | zero => exact .skip fun _ ha => ha
  | succ n ih =>
    rw [Nat.mul_succ, Nat.add_comm (m * n)]
    exact (h n (Nat.lt_succ_self n)).seq (ih fun k hk => h k (by omega))

/-- A loop with a variant. A round may be of any length, and the last one leads out. -/
theorem Leads.loop {ι : Type v} {r : ι → ι → Prop} (hr : WellFounded r) {I : ι → α → Prop}
    (h : ∀ i, ∃ n, Leads Next (I i) n Q ∨ ∃ j, r j i ∧ Leads Next (I i) n (I j)) (i : ι) :
    ∃ n, Leads Next (I i) n Q := by
  induction i using hr.induction with
  | h i ih =>
    obtain ⟨m, hout | ⟨j, hj, hround⟩⟩ := h i
    · exact ⟨m, hout⟩
    · obtain ⟨n, hrest⟩ := ih j hj
      exact ⟨m + n, hround.seq hrest⟩

end ArmSim.Hoare
