import ArmSim.Core.Simulation
import ArmSim.Verify.Chunking

/-! Commands on two machines that stay in a relation. What one cycle and one register input keep is
kept by every command. -/
namespace ArmSim.Verify
open Shell Sim Simulation

/-- Whether a dump ends does not depend on what it shows. -/
theorem mdumpLoop_isSome (mem mem' : Memory) (stop : BitVec 32) (fuel : ℕ) (a : BitVec 32) :
    (mdumpLoop mem stop fuel a).isSome = (mdumpLoop mem' stop fuel a).isSome := by
  induction fuel generalizing a with
  | zero => rfl
  | succ fuel ih =>
    unfold mdumpLoop
    split
    · rw [Option.isSome_map, Option.isSome_map, ih]
    · rfl

theorem completes_lockstep {R : Machine → Machine → Prop} {u : Machine → Indeterminate}
    (hstep : ∀ a a' b, R a b → step u a = .ok a' → ∃ b', step u b = .ok b' ∧ R a' b')
    (hrunBit : ∀ a b, R a b → a.runBit = b.runBit)
    (hinput : ∀ r v a a' b, R a b → input r v a = .ok a' → ∃ b', input r v b = .ok b' ∧ R a' b')
    {c : Command} {a b a' : Machine} (h : R a b) (hc : c.Completes u a a') :
    ∃ b', c.Completes u b b' ∧ R a' b' := by
  have hhalted (a b : Machine) (hab : R a b) : halted a = halted b := by
    unfold halted
    rw [hrunBit a b hab]
  cases c with
  | go =>
    obtain ⟨fuel, hgo⟩ := hc
    rw [go_eq_unbounded] at hgo
    obtain ⟨b', hb, hab⟩ := unbounded_lockstep hstep hhalted h hgo
    exact ⟨b', ⟨fuel, (go_eq_unbounded fuel b).trans hb⟩, hab⟩
  | run n =>
    have hrun := (run_eq_counted n a).symm.trans hc
    obtain ⟨b', hb, hab⟩ := counted_lockstep hstep hhalted h hrun
    exact ⟨b', (run_eq_counted n b).trans hb, hab⟩
  | mdump start stop =>
    obtain ⟨⟨fuel, hends⟩, rfl⟩ := hc
    exact ⟨b, ⟨⟨fuel, (mdumpLoop_isSome _ _ stop fuel start).symm.trans hends⟩, rfl⟩, h⟩
  | rdump | help | invalid =>
    obtain rfl := hc
    exact ⟨b, rfl, h⟩
  | input r v => exact hinput r v a a' b h hc

end ArmSim.Verify
