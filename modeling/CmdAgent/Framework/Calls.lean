import CmdAgent.Framework.Ends

/-!
# Sequences of calls

The calls of a module change a state and return a value (`run`), and a
specification says of each what it may return and what it makes of an abstract
state (`spec`). If each call, from a state that stands for an abstract one,
returns as specified and leaves a state that stands for the specified one
(`Implements`), then so does every sequence of calls (`runAll_implements`).
-/

namespace CmdAgent

variable {ε σ τ α β : Type}

def Implements (run : α → EStateM ε σ β) (spec : α → τ → β → τ → Prop) (R : σ → τ → Prop) (a : α) : Prop :=
  ∀ s t, R s t → ∃ b s' t', run a s = .ok b s' ∧ spec a t b t' ∧ R s' t'

/-- Make the calls one after the other, and return their results. -/
def runAll (run : α → EStateM ε σ β) : List α → EStateM ε σ (List β)
  | [] => pure []
  | a :: as => do
    let b ← run a
    let bs ← runAll run as
    pure (b :: bs)

/-- What a sequence of calls may return and make of an abstract state. -/
inductive SpecAll (spec : α → τ → β → τ → Prop) : List α → τ → List β → τ → Prop where
  | nil {t : τ} : SpecAll spec [] t [] t
  | cons {a : α} {as : List α} {t t' t'' : τ} {b : β} {bs : List β} (h : spec a t b t')
    (hs : SpecAll spec as t' bs t'') : SpecAll spec (a :: as) t (b :: bs) t''

theorem runAll_implements {run : α → EStateM ε σ β} {spec : α → τ → β → τ → Prop} {R : σ → τ → Prop} {as : List α}
    (h : ∀ a ∈ as, Implements run spec R a) : Implements (runAll run) (SpecAll spec) R as := by
  induction as with
  | nil => exact fun s t hR => ⟨[], s, t, rfl, .nil, hR⟩
  | cons a as ih =>
    intro s t hR
    obtain ⟨b, s₁, t₁, hrun, hspec, hR₁⟩ := h a (List.mem_cons_self ..) s t hR
    obtain ⟨bs, s₂, t₂, hruns, hspecs, hR₂⟩ := ih (fun a' ha' => h a' (List.mem_cons_of_mem _ ha')) s₁ t₁ hR₁
    refine ⟨b :: bs, s₂, t₂, ?_, .cons hspec hspecs, hR₂⟩
    rw [runAll, bind_run hrun, bind_run hruns]
    rfl

end CmdAgent
