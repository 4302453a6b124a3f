import Mathlib.Logic.Basic

/-!
# Machines and their runs

A machine takes a step from a state at each input it admits there. `Reach`
holds of the states its runs get to; a property of the initial states that
every step keeps holds of all of them (`Reach.inv`). `restrict` admits only
the inputs that satisfy a condition as well: its runs are the machine's runs
whose steps all meet the condition (`Reach.of_restrict`). A list of inputs can
be run (`exec`), and gets to a reachable state if each of them is admitted
where it comes (`Reach.exec`).
-/

namespace CmdAgent

structure Machine (σ ι : Type) where
  init : σ → Prop
  admits : σ → ι → Prop
  next : σ → ι → σ

namespace Machine

variable {σ ι : Type} {M : Machine σ ι}

inductive Reach (M : Machine σ ι) : σ → Prop where
  | init {s : σ} : M.init s → Reach M s
  | step {s : σ} {i : ι} : Reach M s → M.admits s i → Reach M (M.next s i)

theorem Reach.inv {I : σ → Prop} (h₀ : ∀ s, M.init s → I s)
    (hs : ∀ s i, I s → M.admits s i → I (M.next s i)) {s : σ} (h : M.Reach s) : I s := by
  induction h with
  | init h => exact h₀ _ h
  | step _ ha ih => exact hs _ _ ih ha

/-- An invariant proved with the help of one that is known already. -/
theorem Reach.inv_of {I J : σ → Prop} (hJ : ∀ s, M.Reach s → J s) (h₀ : ∀ s, M.init s → I s)
    (hs : ∀ s i, J s → I s → M.admits s i → I (M.next s i)) {s : σ} (h : M.Reach s) : I s := by
  induction h with
  | init h => exact h₀ _ h
  | step hr ha ih => exact hs _ _ (hJ _ hr) ih ha

/-- The machine whose steps meet the condition `P`, from the initial states
that meet `P₀`. -/
def restrict (M : Machine σ ι) (P₀ : σ → Prop) (P : σ → ι → Prop) : Machine σ ι where
  init s := M.init s ∧ P₀ s
  admits s i := M.admits s i ∧ P s i
  next := M.next

instance {P₀ : σ → Prop} {P : σ → ι → Prop} [∀ s i, Decidable (M.admits s i)] [∀ s i, Decidable (P s i)] (s : σ)
    (i : ι) : Decidable ((M.restrict P₀ P).admits s i) :=
  inferInstanceAs (Decidable (_ ∧ _))

theorem Reach.of_restrict {P₀ : σ → Prop} {P : σ → ι → Prop} {s : σ}
    (h : (M.restrict P₀ P).Reach s) : M.Reach s := by
  induction h with
  | init h => exact .init h.1
  | step _ ha ih => exact .step ih ha.1

theorem Reach.to_restrict {s : σ} (h : M.Reach s) :
    (M.restrict (fun _ => True) (fun _ _ => True)).Reach s := by
  induction h with
  | init h => exact .init ⟨h, trivial⟩
  | step _ ha ih => exact .step ih ⟨ha, trivial⟩

theorem Reach.restrict_mono {P₀ P₀' : σ → Prop} {P P' : σ → ι → Prop} (h₀ : ∀ s, P₀ s → P₀' s)
    (hs : ∀ s i, P s i → P' s i) {s : σ} (h : (M.restrict P₀ P).Reach s) : (M.restrict P₀' P').Reach s := by
  induction h with
  | init h => exact .init ⟨h.1, h₀ _ h.2⟩
  | step _ ha ih => exact .step ih ⟨ha.1, hs _ _ ha.2⟩

/-- The state after a list of inputs. -/
def exec (M : Machine σ ι) (s : σ) (is : List ι) : σ := is.foldl M.next s

/-- Each input of the list is admitted where it comes. -/
def Admits (M : Machine σ ι) : σ → List ι → Prop
  | _, [] => True
  | s, i :: is => M.admits s i ∧ Admits M (M.next s i) is

instance decidableAdmits [∀ s i, Decidable (M.admits s i)] : ∀ s is, Decidable (M.Admits s is)
  | _, [] => isTrue trivial
  | s, i :: is =>
    have := decidableAdmits (M.next s i) is
    inferInstanceAs (Decidable (_ ∧ _))

theorem Reach.exec {s : σ} {is : List ι} (h : M.Reach s) (ha : M.Admits s is) : M.Reach (M.exec s is) := by
  induction is generalizing s with
  | nil => exact h
  | cons i is ih => exact ih (.step h ha.1) ha.2

end Machine

end CmdAgent
