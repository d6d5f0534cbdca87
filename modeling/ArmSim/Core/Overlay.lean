import Mathlib.Data.List.Induction

/-! Partial updates of a function. When several are applied one after the other, the last one
that is defined at a point decides its value. -/
namespace ArmSim.Overlay

universe u v w x

variable {α : Type u} {β : Type v}

/-- `f`, except where `g` has a value. -/
def overlay (g : α → Option β) (f : α → β) : α → β := fun a => (g a).getD (f a)

theorem overlay_none (f : α → β) : overlay (fun _ => none) f = f := rfl

theorem overlay_overlay (g g' : α → Option β) (f : α → β) :
    overlay g' (overlay g f) = overlay (fun a => (g' a).or (g a)) f := by
  funext a
  exact Option.getD_or.symm

/-- The value at `a` of the last update that has one. -/
def latest (gs : List (α → Option β)) (a : α) : Option β := gs.reverse.findSome? fun g => g a

theorem latest_concat (gs : List (α → Option β)) (g : α → Option β) :
    latest (gs ++ [g]) = fun a => (g a).or (latest gs a) := by
  funext a
  unfold latest
  rw [List.reverse_concat, List.findSome?_cons]
  cases g a <;> rfl

/-- If every step of a fold is seen as the update `image i`, the fold is seen as the latest of
these updates. -/
theorem view_foldl {σ : Type w} {ι : Type x} (view : σ → α → β) {load : σ → ι → σ}
    {image : ι → α → Option β} {l : List ι}
    (hstep : ∀ i ∈ l, ∀ s, view (load s i) = overlay (image i) (view s)) (s : σ) :
    view (l.foldl load s) = overlay (latest (l.map image)) (view s) := by
  induction l using List.reverseRecOn with
  | nil => rfl
  | append_singleton l i ih =>
    have hl := ih fun j hj => hstep j (List.mem_append_left [i] hj)
    have hi := hstep i (List.mem_append_right l (List.mem_singleton_self i)) (l.foldl load s)
    rw [List.foldl_append, List.foldl_cons, List.foldl_nil, hi, hl, overlay_overlay,
      List.map_append, List.map_singleton, latest_concat]

end ArmSim.Overlay
