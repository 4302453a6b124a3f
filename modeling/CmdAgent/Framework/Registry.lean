import Mathlib.Logic.Function.Basic

/-!
# Who registered a key last

Clients connect at addresses, an address being used by one client at a time,
and register keys, each with a value. A key belongs to the client that
registered it last, and it is found where this client is connected, if it
still is (`Registry.Finds`). A client that has left never comes back, though
another one may connect at its address.

Each operation is described by what it does to `Finds`.
-/

namespace CmdAgent

/-- The client connected at each address, no client at two of them, and the
last registration of each key. -/
@[ext]
structure Registry (κ φ γ τ : Type) where
  client : φ → Option γ
  last : κ → Option (γ × τ)
  inj : ∀ f g c, client f = some c → client g = some c → f = g

namespace Registry

variable {κ φ γ τ : Type}

/-- The last client to register `k` did so with `v` and is connected at `f`. -/
def Finds (r : Registry κ φ γ τ) (k : κ) (f : φ) (v : τ) : Prop :=
  ∃ c, r.last k = some (c, v) ∧ r.client f = some c

def connect [DecidableEq φ] (r : Registry κ φ γ τ) (f : φ) (c : γ) (h : ∀ g, r.client g ≠ some c) :
    Registry κ φ γ τ where
  client := Function.update r.client f (some c)
  last := r.last
  inj g g' d hg hg' := by
    by_cases hgf : g = f
    · by_cases hgf' : g' = f
      · rw [hgf, hgf']
      · subst hgf
        rw [Function.update_self, Option.some.injEq] at hg
        rw [Function.update_of_ne hgf', ← hg] at hg'
        exact absurd hg' (h g')
    · rw [Function.update_of_ne hgf] at hg
      by_cases hgf' : g' = f
      · subst hgf'
        rw [Function.update_self, Option.some.injEq] at hg'
        rw [← hg'] at hg
        exact absurd hg (h g)
      · rw [Function.update_of_ne hgf'] at hg'
        exact r.inj g g' d hg hg'

def leave [DecidableEq φ] (r : Registry κ φ γ τ) (f : φ) : Registry κ φ γ τ where
  client := Function.update r.client f none
  last := r.last
  inj g g' d hg hg' := by
    have hne : ∀ {x}, Function.update r.client f none x = some d → r.client x = some d := fun {x} hx => by
      by_cases hxf : x = f
      · rw [hxf, Function.update_self] at hx; cases hx
      · rwa [Function.update_of_ne hxf] at hx
    exact r.inj g g' d (hne hg) (hne hg')

def register [DecidableEq κ] (r : Registry κ φ γ τ) (k : κ) (c : γ) (v : τ) : Registry κ φ γ τ :=
  { r with last := Function.update r.last k (some (c, v)) }

variable {r : Registry κ φ γ τ} {k : κ} {f g : φ} {c : γ} {v w : τ}

/-- A client that has registered nothing yet changes nothing by connecting. -/
theorem finds_connect [DecidableEq φ] (h : ∀ g, r.client g ≠ some c) (hc : ∀ k v, r.last k ≠ some (c, v))
    (hf : r.client f = none) : (r.connect f c h).Finds k g v ↔ r.Finds k g v := by
  refine exists_congr fun d => and_congr_right fun hl => ?_
  by_cases hgf : g = f
  · have hd : c ≠ d := fun e => hc k v (e ▸ hl)
    subst hgf
    simp [connect, hf, hd]
  · simp only [connect, Function.update_of_ne hgf]

theorem finds_leave [DecidableEq φ] : (r.leave f).Finds k g v ↔ g ≠ f ∧ r.Finds k g v := by
  by_cases hgf : g = f
  · subst hgf
    simp [Finds, leave]
  · simp [Finds, leave, hgf]

theorem finds_register [DecidableEq κ] (hc : r.client f = some c) (l : κ) :
    (r.register k c v).Finds l g w ↔ if l = k then g = f ∧ w = v else r.Finds l g w := by
  by_cases hlk : l = k
  · subst hlk
    simp only [Finds, register, Function.update_self, if_true]
    constructor
    · rintro ⟨d, hd, hg⟩
      rw [Option.some.injEq, Prod.mk.injEq] at hd
      obtain ⟨rfl, rfl⟩ := hd
      exact ⟨r.inj g f c hg hc, rfl⟩
    · rintro ⟨rfl, rfl⟩
      exact ⟨c, rfl, hc⟩
  · simp only [Finds, register, Function.update_of_ne hlk, if_neg hlk]

/-- The client is connected at some address. -/
def Connected (r : Registry κ φ γ τ) (c : γ) : Prop := ∃ f, r.client f = some c

theorem connected_connect [DecidableEq φ] {d : γ} (h : ∀ g, r.client g ≠ some c) (hf : r.client f = none) :
    (r.connect f c h).Connected d ↔ d = c ∨ r.Connected d := by
  constructor
  · rintro ⟨g, hg⟩
    by_cases hgf : g = f
    · simp only [connect, hgf, Function.update_self, Option.some.injEq] at hg
      exact .inl hg.symm
    · simp only [connect, Function.update_of_ne hgf] at hg
      exact .inr ⟨g, hg⟩
  · rintro (rfl | ⟨g, hg⟩)
    · exact ⟨f, by simp [connect]⟩
    · have hgf : g ≠ f := fun e => by rw [e, hf] at hg; cases hg
      exact ⟨g, by simpa only [connect, Function.update_of_ne hgf] using hg⟩

theorem connected_leave [DecidableEq φ] {d : γ} (hc : r.client f = some c) :
    (r.leave f).Connected d ↔ d ≠ c ∧ r.Connected d := by
  constructor
  · rintro ⟨g, hg⟩
    by_cases hgf : g = f
    · simp [leave, hgf] at hg
    · simp only [leave, Function.update_of_ne hgf] at hg
      exact ⟨fun e => hgf (r.inj g f c (e ▸ hg) hc), g, hg⟩
  · rintro ⟨hne, g, hg⟩
    have hgf : g ≠ f := fun e => hne (Option.some.inj (hg.symm.trans (e ▸ hc)))
    exact ⟨g, by simpa only [leave, Function.update_of_ne hgf] using hg⟩

end Registry

end CmdAgent
