import Mathlib.Data.Finset.Image
import Mathlib.Logic.Function.Basic

/-!
# Brokers

Clients connect and leave, register keys, and give commands for keys. A key
belongs to the client that registered it last; a command for it is delivered
to this client if it is connected, and to nobody otherwise
(`Broker.recipient`). A broker has no addresses: a client is known by itself.

What is delivered for a key does not depend on the operations that concern
neither the key nor a client that ever registers it (`recipients_concerning`),
nor on what the clients are called (`run_rename`).
-/

namespace CmdAgent

structure Broker (κ γ : Type) where
  online : Finset γ
  owner : κ → Option γ
  /-- What has been delivered to whom, newest first. -/
  delivered : List (κ × γ)

namespace Broker

variable {κ γ : Type}

inductive Op (κ γ : Type) where
  | connect (c : γ)
  | leave (c : γ)
  | register (k : κ) (c : γ)
  | command (k : κ)
  deriving DecidableEq

def empty : Broker κ γ := ⟨∅, fun _ => none, []⟩

section

variable [DecidableEq γ]

/-- The client that gets a command for the key `k`. -/
def recipient (b : Broker κ γ) (k : κ) : Option γ := (b.owner k).filter (· ∈ b.online)

theorem recipient_eq_some {b : Broker κ γ} {k : κ} {c : γ} :
    b.recipient k = some c ↔ b.owner k = some c ∧ c ∈ b.online := by
  simp [recipient, Option.filter_eq_some_iff]

variable [DecidableEq κ]

def step (b : Broker κ γ) : Op κ γ → Broker κ γ
  | .connect c => { b with online := insert c b.online }
  | .leave c => { b with online := b.online.erase c }
  | .register k c => { b with owner := Function.update b.owner k (some c) }
  | .command k => { b with delivered := (b.recipient k).toList.map (k, ·) ++ b.delivered }

theorem step_command_none {b : Broker κ γ} {k : κ} (h : b.recipient k = none) : b.step (.command k) = b := by
  simp [step, h]

theorem step_command_some {b : Broker κ γ} {k : κ} {c : γ} (h : b.recipient k = some c) :
    b.step (.command k) = { b with delivered := (k, c) :: b.delivered } := by
  simp [step, h]

def run (ops : List (Op κ γ)) : Broker κ γ := ops.foldl step empty

/-! ## One key -/

/-- The clients that the commands for `k` were delivered to, newest first. -/
def recipients (b : Broker κ γ) (k : κ) : List γ := b.delivered.filterMap fun p => if p.1 = k then some p.2 else none

/-- The operation is about the key `k`, or one of the clients `C` comes or goes. -/
def Op.Concerns (k : κ) (C : γ → Prop) : Op κ γ → Prop
  | .connect c | .leave c => C c
  | .register l _ | .command l => l = k

instance {k : κ} {C : γ → Prop} [DecidablePred C] : DecidablePred (Op.Concerns k C)
  | .connect c | .leave c => inferInstanceAs (Decidable (C c))
  | .register l _ | .command l => inferInstanceAs (Decidable (l = k))

/-- Two brokers that do the same for the key `k`, which belongs to one of the
clients `C`. -/
structure Alike (k : κ) (C : γ → Prop) (b b' : Broker κ γ) : Prop where
  online : ∀ c, C c → (c ∈ b.online ↔ c ∈ b'.online)
  owner : b.owner k = b'.owner k
  known : ∀ c, b.owner k = some c → C c
  recipients : b.recipients k = b'.recipients k

variable {k : κ} {C : γ → Prop} {b b' : Broker κ γ}

theorem Alike.recipient (h : Alike k C b b') : b.recipient k = b'.recipient k := by
  refine Option.ext fun c => ?_
  rw [recipient_eq_some, recipient_eq_some, ← h.owner]
  constructor
  · rintro ⟨ho, hc⟩
    exact ⟨ho, (h.online c (h.known c ho)).mp hc⟩
  · rintro ⟨ho, hc⟩
    exact ⟨ho, (h.online c (h.known c ho)).mpr hc⟩

theorem recipients_command (b : Broker κ γ) (l k : κ) :
    (b.step (.command l)).recipients k = (if l = k then (b.recipient k).toList else []) ++ b.recipients k := by
  unfold recipients step
  rw [List.filterMap_append]
  by_cases hl : l = k
  · subst hl
    cases b.recipient l <;> simp
  · cases b.recipient l <;> simp [hl]

/-- Both take an operation. -/
theorem Alike.step (h : Alike k C b b') {op : Op κ γ} (hC : ∀ c, op = .register k c → C c) :
    Alike k C (b.step op) (b'.step op) := by
  cases op with
  | connect c =>
    refine ⟨fun d hd => ?_, h.owner, h.known, h.recipients⟩
    simp only [Broker.step, Finset.mem_insert, h.online d hd]
  | leave c =>
    refine ⟨fun d hd => ?_, h.owner, h.known, h.recipients⟩
    simp only [Broker.step, Finset.mem_erase, h.online d hd]
  | register l c =>
    refine ⟨h.online, ?_, fun d hd => ?_, h.recipients⟩
    · simp only [Broker.step, Function.update_apply, h.owner]
    · simp only [Broker.step, Function.update_apply] at hd
      split at hd
      · rename_i hk
        obtain rfl := Option.some.inj hd
        exact hC c (by rw [hk])
      · exact h.known d hd
  | command l =>
    refine ⟨h.online, h.owner, h.known, ?_⟩
    rw [recipients_command, recipients_command, h.recipient, h.recipients]

/-- Only the first takes it, and it does not concern the key. -/
theorem Alike.skip (h : Alike k C b b') {op : Op κ γ} (hop : ¬op.Concerns k C) : Alike k C (b.step op) b' := by
  cases op with
  | connect c =>
    refine ⟨fun d hd => ?_, h.owner, h.known, h.recipients⟩
    have hne : d ≠ c := fun e => hop (e ▸ hd)
    simp only [Broker.step, Finset.mem_insert, hne, false_or, h.online d hd]
  | leave c =>
    refine ⟨fun d hd => ?_, h.owner, h.known, h.recipients⟩
    have hne : d ≠ c := fun e => hop (e ▸ hd)
    simp only [Broker.step, Finset.mem_erase, ne_eq, hne, not_false_eq_true, true_and, h.online d hd]
  | register l c =>
    have hkl : k ≠ l := fun e => hop e.symm
    have howner : (b.step (.register l c)).owner k = b.owner k := Function.update_of_ne hkl _ _
    exact ⟨h.online, howner.trans h.owner, fun d hd => h.known d (howner.symm.trans hd), h.recipients⟩
  | command l =>
    have hlk : l ≠ k := hop
    refine ⟨h.online, h.owner, h.known, ?_⟩
    rw [recipients_command, if_neg hlk, List.nil_append, h.recipients]

theorem alike_run [DecidablePred C] {ops : List (Op κ γ)} (hC : ∀ c, .register k c ∈ ops → C c) :
    Alike k C (run ops) (run (ops.filter (Op.Concerns k C))) := by
  have hall : ∀ (b b' : Broker κ γ), Alike k C b b' →
      Alike k C (ops.foldl Broker.step b) ((ops.filter (Op.Concerns k C)).foldl Broker.step b') := by
    induction ops with
    | nil => exact fun _ _ h => h
    | cons op ops ih =>
      intro b b' h
      have ih := ih fun c hc => hC c (List.mem_cons_of_mem _ hc)
      by_cases hop : op.Concerns k C
      · rw [List.filter_cons_of_pos (by simpa using hop)]
        exact ih _ _ (h.step fun c hc => hC c (hc ▸ List.mem_cons_self ..))
      · rw [List.filter_cons_of_neg (by simpa using hop)]
        exact ih _ _ (h.skip hop)
  exact hall _ _ ⟨fun _ _ => Iff.rfl, rfl, fun _ h => (nomatch h), rfl⟩

/-- The operations about the key `k`, and the comings and goings of the clients
that ever register it. -/
def concerning (k : κ) (ops : List (Op κ γ)) : List (Op κ γ) := ops.filter (Op.Concerns k fun c => .register k c ∈ ops)

theorem recipients_concerning (k : κ) (ops : List (Op κ γ)) :
    (run ops).recipients k = (run (concerning k ops)).recipients k :=
  (alike_run fun _ h => h).recipients

end

/-! ## Names of clients -/

section

variable {γ' : Type} {ρ : γ → γ'} [DecidableEq γ']

def Op.rename (ρ : γ → γ') : Op κ γ → Op κ γ'
  | .connect c => .connect (ρ c)
  | .leave c => .leave (ρ c)
  | .register k c => .register k (ρ c)
  | .command k => .command k

def rename (ρ : γ → γ') (b : Broker κ γ) : Broker κ γ' :=
  ⟨b.online.image ρ, fun k => (b.owner k).map ρ, b.delivered.map fun p => (p.1, ρ p.2)⟩

theorem recipients_rename [DecidableEq κ] (b : Broker κ γ) (k : κ) : (b.rename ρ).recipients k = (b.recipients k).map ρ := by
  unfold recipients rename
  rw [List.filterMap_map, List.map_filterMap]
  congr 1
  funext p
  by_cases hp : p.1 = k <;> simp [hp]

variable [DecidableEq γ] (hρ : Function.Injective ρ)

include hρ

theorem recipient_rename (b : Broker κ γ) (k : κ) : (b.rename ρ).recipient k = (b.recipient k).map ρ := by
  show ((b.owner k).map ρ).filter (· ∈ b.online.image ρ) = _
  unfold recipient
  cases b.owner k with
  | none => rfl
  | some c => by_cases hc : c ∈ b.online <;> simp [Option.filter, hρ.eq_iff, hc]

variable [DecidableEq κ]

theorem step_rename (b : Broker κ γ) (op : Op κ γ) : (b.rename ρ).step (op.rename ρ) = (b.step op).rename ρ := by
  cases op with
  | connect c => simp [step, rename, Op.rename, Finset.image_insert]
  | leave c => simp [step, rename, Op.rename, Finset.image_erase hρ]
  | register k c =>
    simp only [step, rename, Op.rename, Broker.mk.injEq, true_and, and_true]
    funext l
    simp only [Function.update_apply]
    split <;> rfl
  | command k =>
    simp only [Op.rename, step, recipient_rename hρ]
    cases b.recipient k <;> rfl

theorem run_rename (ops : List (Op κ γ)) : run (ops.map (Op.rename ρ)) = (run ops).rename ρ := by
  have hall : ∀ b : Broker κ γ,
      (ops.map (Op.rename ρ)).foldl step (b.rename ρ) = (ops.foldl step b).rename ρ := by
    induction ops with
    | nil => exact fun _ => rfl
    | cons op ops ih =>
      intro b
      rw [List.map_cons, List.foldl_cons, List.foldl_cons, step_rename hρ]
      exact ih _
  exact hall .empty

end

end Broker

end CmdAgent
