import CmdAgent.Framework.Machine
import Mathlib.Data.List.Basic

/-!
# Machines that are restarted

The runs of a machine one after another. At any moment the present run may
end, and the next one begins from an initial state that `boot` allows after
the state the run was left in; `Lives` holds the present state and the states
the runs before it were left in, newest first. What is proved of one run, given
what is known of the state the last one was left in, holds of all
(`Reach.lives`).
-/

namespace CmdAgent

structure Lives (σ : Type) where
  now : σ
  past : List σ

namespace Machine

variable {σ ι : Type} {M : Machine σ ι} {C : σ → ι → Prop} {first : σ → Prop} {boot : σ → σ → Prop}

/-- The runs of `M` whose steps all meet the condition `C`, one after another. -/
def restarting (M : Machine σ ι) (C : σ → ι → Prop) (first : σ → Prop) (boot : σ → σ → Prop) :
    Machine (Lives σ) (ι ⊕ σ) where
  init l := (M.init l.now ∧ first l.now) ∧ l.past = []
  admits l
    | .inl i => M.admits l.now i ∧ C l.now i
    | .inr s => M.init s ∧ boot l.now s
  next l
    | .inl i => { l with now := M.next l.now i }
    | .inr s => ⟨s, l.now :: l.past⟩

theorem Reach.lives {I : List σ → σ → Prop} (hfirst : ∀ s, (M.restrict first C).Reach s → I [] s)
    (hnext : ∀ past s₀ s, I past s₀ → (M.restrict (boot s₀) C).Reach s → I (s₀ :: past) s) {l : Lives σ}
    (h : (M.restarting C first boot).Reach l) : I l.past l.now := by
  -- the present run is the first one, or it began after a state of which `I` holds
  have hrun : (l.past = [] ∧ (M.restrict first C).Reach l.now) ∨
      ∃ s₀ past, l.past = s₀ :: past ∧ I past s₀ ∧ (M.restrict (boot s₀) C).Reach l.now := by
    induction h with
    | init h => exact .inl ⟨h.2, .init h.1⟩
    | @step l i _ ha ih =>
      cases i with
      | inl i =>
        rcases ih with ⟨hp, hr⟩ | ⟨s₀, past, hp, hI, hr⟩
        · exact .inl ⟨hp, .step hr ha⟩
        · exact .inr ⟨s₀, past, hp, hI, .step hr ha⟩
      | inr s =>
        have hI : I l.past l.now := by
          rcases ih with ⟨hp, hr⟩ | ⟨s₀, past, hp, hI, hr⟩
          · rw [hp]; exact hfirst _ hr
          · rw [hp]; exact hnext past s₀ _ hI hr
        exact .inr ⟨l.now, l.past, rfl, hI, .init ha⟩
  rcases hrun with ⟨hp, hr⟩ | ⟨s₀, past, hp, hI, hr⟩
  · rw [hp]
    exact hfirst _ hr
  · rw [hp]
    exact hnext past s₀ _ hI hr

/-- The present run goes on. -/
theorem Reach.relive {s : σ} {past : List σ} (h : (M.restarting C first boot).Reach ⟨s, past⟩) (is : List ι)
    (ha : (M.restrict first C).Admits s is) : (M.restarting C first boot).Reach ⟨M.exec s is, past⟩ := by
  induction is generalizing s with
  | nil => exact h
  | cons i is ih =>
    have hstep : (M.restarting C first boot).admits ⟨s, past⟩ (.inl i) := ha.1
    exact ih (.step h hstep) ha.2

/-- The next run begins. -/
theorem Reach.reboot {s s' : σ} {past : List σ} (h : (M.restarting C first boot).Reach ⟨s, past⟩) (hs : M.init s')
    (hb : boot s s') : (M.restarting C first boot).Reach ⟨s', s :: past⟩ := by
  have hstep : (M.restarting C first boot).admits ⟨s, past⟩ (.inr s') := ⟨hs, hb⟩
  exact .step h hstep

end Machine

end CmdAgent
