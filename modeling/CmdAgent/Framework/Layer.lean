import CmdAgent.Framework.Ends

/-!
# Layers

A program over a larger state (`τ` for `σ`) that may stop for more reasons (`φ`
for `ε`): it runs programs over the smaller state (`Layer.lift`), and between
them works on what the larger state has besides. `Erases x y` says that `x`,
with all that left out, is `y`: it does to the smaller state what `y` does,
unless it stops for a reason that `y` does not have. A step of `x` that leaves
the smaller state alone (`Silent`) can be left out.
-/

namespace CmdAgent

structure Layer (ε σ φ τ : Type) where
  view : τ → σ
  put : σ → τ → τ
  stop : ε → φ
  view_put : ∀ s t, view (put s t) = s

namespace Layer

variable {ε σ φ τ α β : Type} (L : Layer ε σ φ τ)

def lift (x : EStateM ε σ α) : EStateM φ τ α := fun t =>
  match x (L.view t) with
  | .ok a s => .ok a (L.put s t)
  | .error e s => .error (L.stop e) (L.put s t)

def Erases (x : EStateM φ τ α) (y : EStateM ε σ α) : Prop :=
  ∀ t, Ends x t (fun a t' => y (L.view t) = .ok a (L.view t'))
    (fun f t' => ∀ e, f = L.stop e → y (L.view t) = .error e (L.view t'))

def Silent (x : EStateM φ τ α) : Prop :=
  ∀ t, Ends x t (fun _ t' => L.view t' = L.view t) (fun f _ => ∀ e, f ≠ L.stop e)

variable {L}

theorem ends_lift {x : EStateM ε σ α} {t : τ} {Q : α → τ → Prop} {E : φ → τ → Prop}
    (h : Ends x (L.view t) (fun a s => Q a (L.put s t)) (fun e s => E (L.stop e) (L.put s t))) :
    Ends (L.lift x) t Q E := by
  unfold Ends lift at *
  cases hx : x (L.view t) with
  | ok a s => rw [hx] at h; exact h
  | error e s => rw [hx] at h; exact h

theorem erases_lift (hstop : Function.Injective L.stop) (x : EStateM ε σ α) : L.Erases (L.lift x) x := by
  intro t
  refine ends_lift ?_
  unfold Ends
  cases hx : x (L.view t) with
  | ok a s => simp only [L.view_put]
  | error e s =>
    intro e' he
    rw [hstop he, L.view_put]

theorem Erases.bind {x : EStateM φ τ α} {y : EStateM ε σ α} {f : α → EStateM φ τ β} {g : α → EStateM ε σ β}
    (hx : L.Erases x y) (hf : ∀ a, L.Erases (f a) (g a)) : L.Erases (x >>= f) (y >>= g) := by
  intro t
  refine .bind ((hx t).mono (fun a t' hy => ?_) fun e t' hy e' he => bind_stop (hy e' he))
  rw [bind_run hy]
  exact hf a t'

theorem Erases.pure (a : α) : L.Erases (Pure.pure a) (Pure.pure a) := fun _ => Ends.pure rfl

/-- A step that can be left out. -/
theorem Silent.erases_bind {x : EStateM φ τ α} {f : α → EStateM φ τ β} {y : EStateM ε σ β} (hx : L.Silent x)
    (hf : ∀ a, L.Erases (f a) y) : L.Erases (x >>= f) y := by
  intro t
  refine .bind ((hx t).mono (fun a t' hview => ?_) fun f t' hf e he => absurd he (hf e))
  rw [← hview]
  exact hf a t'

theorem Silent.bind {x : EStateM φ τ α} {f : α → EStateM φ τ β} (hx : L.Silent x) (hf : ∀ a, L.Silent (f a)) :
    L.Silent (x >>= f) := by
  intro t
  refine .bind ((hx t).mono (fun a t' hview => ?_) fun _ _ h => h)
  rw [← hview]
  exact hf a t'

theorem Silent.pure (a : α) : L.Silent (Pure.pure a) := fun _ => Ends.pure rfl

end Layer

end CmdAgent
