import Mathlib.Logic.Basic

/-!
# How a program ends

A program over a state that may stop early (`EStateM`): it returns a value,
or stops with a reason, and either way leaves a state. `Ends x s Q E` says how
the run of `x` from `s` ends: `Q` of the value and the state if it returns,
`E` of the reason and the state if it stops. The rules follow the program's
text.
-/

namespace CmdAgent

variable {ε σ α β : Type}

/-- A program goes on with the value its first part returned. -/
theorem bind_run {x : EStateM ε σ α} {f : α → EStateM ε σ β} {s s' : σ} {a : α} (h : x s = .ok a s') :
    (x >>= f) s = f a s' := by
  simp only [Bind.bind, EStateM.bind, h]

theorem bind_stop {x : EStateM ε σ α} {f : α → EStateM ε σ β} {s s' : σ} {e : ε} (h : x s = .error e s') :
    (x >>= f) s = .error e s' := by
  simp only [Bind.bind, EStateM.bind, h]

/-- The value a program returns, if it does. -/
def returned (x : EStateM ε σ α) (s : σ) : Option α :=
  match x s with
  | .ok a _ => some a
  | .error _ _ => none

theorem returned_of_run {x : EStateM ε σ α} {s s' : σ} {a : α} (h : x s = .ok a s') : returned x s = some a := by
  rw [returned, h]

def Ends (x : EStateM ε σ α) (s : σ) (Q : α → σ → Prop) (E : ε → σ → Prop) : Prop :=
  match x s with
  | .ok a s' => Q a s'
  | .error e s' => E e s'

namespace Ends

variable {x : EStateM ε σ α} {f : α → EStateM ε σ β} {s : σ} {E E' : ε → σ → Prop}

theorem ok {Q : α → σ → Prop} {a : α} {s' : σ} (h : Ends x s Q E) (hx : x s = .ok a s') : Q a s' := by
  simpa only [Ends, hx] using h

theorem error {Q : α → σ → Prop} {e : ε} {s' : σ} (h : Ends x s Q E) (hx : x s = .error e s') :
    E e s' := by
  simpa only [Ends, hx] using h

theorem mono {Q Q' : α → σ → Prop} (h : Ends x s Q E) (hQ : ∀ a s', Q a s' → Q' a s')
    (hE : ∀ e s', E e s' → E' e s') : Ends x s Q' E' := by
  unfold Ends at h ⊢
  split
  · rename_i hx; rw [hx] at h; exact hQ _ _ h
  · rename_i hx; rw [hx] at h; exact hE _ _ h

theorem and {Q Q' : α → σ → Prop} (h : Ends x s Q E) (h' : Ends x s Q' E') :
    Ends x s (fun a s' => Q a s' ∧ Q' a s') (fun e s' => E e s' ∧ E' e s') := by
  unfold Ends at h h' ⊢
  split
  · rename_i hx; rw [hx] at h h'; exact ⟨h, h'⟩
  · rename_i hx; rw [hx] at h h'; exact ⟨h, h'⟩

theorem bind {Q : β → σ → Prop} (h : Ends x s (fun a s' => Ends (f a) s' Q E) E) :
    Ends (x >>= f) s Q E := by
  unfold Ends at h ⊢
  simp only [Bind.bind, EStateM.bind]
  cases hx : x s with
  | ok a s' => rw [hx] at h; exact h
  | error e s' => rw [hx] at h; exact h

theorem pure {Q : α → σ → Prop} {a : α} (h : Q a s) : Ends (Pure.pure a : EStateM ε σ α) s Q E := h

theorem throw {Q : α → σ → Prop} {e : ε} (h : E e s) : Ends (throw e : EStateM ε σ α) s Q E := h

theorem get {Q : σ → σ → Prop} (h : Q s s) : Ends (get : EStateM ε σ σ) s Q E := h

theorem modify {Q : PUnit → σ → Prop} {g : σ → σ} (h : Q ⟨⟩ (g s)) :
    Ends (modify g : EStateM ε σ PUnit) s Q E := h

end Ends

end CmdAgent
