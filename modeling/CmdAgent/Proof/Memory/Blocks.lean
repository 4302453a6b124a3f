import CmdAgent.Impl.Memory
import CmdAgent.Proof.Parse

/-!
# Blocks and pointers

`Grows` says how a part of the program changes the blocks: those there were are
kept, and some of each kind are new. Parsing a message sets pointers of the
session (`Points`): a pointer leads into the message if the message binds its
key to a string, other than an empty path, for which a block is allocated and
lost; otherwise it leads where it did (`foreach_ends`). A fault is a read
through a pointer into a block that is not in use (`FaultOf`).
-/

namespace CmdAgent.Memory

variable {P : Params} {m m' : Mem} {ans : Answers}

/-! ## Blocks -/

/-- One block of the kind `j`. -/
def one (j k : Kind) : Nat := if j = k then 1 else 0

/-- The blocks of `m` are those of `m'`, but for new ones: `n k` of the kind `k`. -/
structure Grows (m m' : Mem) (n : Kind → Nat) : Prop where
  owner : m'.owner = m.owner
  session : m'.session = m.session
  fault : m'.fault = m.fault
  next : m.blocks.next ≤ m'.blocks.next
  live : ∀ p, p.1 < m.blocks.next → (p ∈ m'.blocks.live ↔ p ∈ m.blocks.live)
  count : ∀ k, m'.blocks.count k = m.blocks.count k + n k

theorem Grows.refl (m : Mem) : Grows m m 0 := ⟨rfl, rfl, rfl, le_rfl, fun _ _ => Iff.rfl, fun _ => rfl⟩

theorem Grows.trans {m₁ : Mem} {n n' : Kind → Nat} (h : Grows m m₁ n) (h' : Grows m₁ m' n') :
    Grows m m' fun k => n k + n' k where
  owner := h'.owner.trans h.owner
  session := h'.session.trans h.session
  fault := h'.fault.trans h.fault
  next := h.next.trans h'.next
  live p hp := (h'.live p (lt_of_lt_of_le hp h.next)).trans (h.live p hp)
  count k := by rw [h'.count, h.count, Nat.add_assoc]

theorem Grows.congr {n l : Kind → Nat} (h : Grows m m' n) (hn : ∀ k, n k = l k) : Grows m m' l := by
  rw [← funext hn]
  exact h

/-- The server has no part in it. -/
theorem Grows.server {n : Kind → Nat} (h : Grows m m' n) (s : State) : Grows m { m' with server := s } n :=
  ⟨h.owner, h.session, h.fault, h.next, h.live, h.count⟩

theorem Grows.malloc {n : Kind → Nat} (h : Grows m m' n) (j : Kind) :
    Grows m { m' with blocks := m'.blocks.alloc j } fun k => n k + one j k := by
  refine h.trans ⟨rfl, rfl, rfl, Nat.le_succ _, fun p hp => ?_, fun k => Arena.count_alloc k⟩
  have hne : p ≠ (m'.blocks.next, j) := fun e => absurd hp (by rw [e]; exact lt_irrefl _)
  rw [Arena.mem_alloc, or_iff_right hne]

/-- A new block is released again. -/
theorem Grows.free {n l : Kind → Nat} (h : Grows m m' n) {b : Nat} {j : Kind} (hb : (b, j) ∈ m'.blocks.live)
    (hnew : m.blocks.next ≤ b) (hn : ∀ k, n k = l k + one j k) :
    Grows m { m' with blocks := m'.blocks.free b } l where
  owner := h.owner
  session := h.session
  fault := h.fault
  next := h.next
  live p hp := by
    have hne : p.1 ≠ b := by omega
    rw [← h.live p hp, Arena.mem_free, and_iff_left hne]
  count k := by
    have h₁ := h.count k
    have h₂ := Arena.count_free hb k
    have h₃ := hn k
    unfold one at h₃
    show (m'.blocks.free b).count k = _
    omega

theorem free_run {b : Nat} (h : m.blocks.Live b) : free b m = .ok ⟨⟩ { m with blocks := m.blocks.free b } := if_pos h

/-! ## Faults -/

/-- The server has stopped, or the fault is a read through one of the pointers
of `m` into released memory. -/
def FaultOf (only : Field → Bool) (m : Mem) (f : Fault) : Prop :=
  (∃ e, f = .stop e) ∨ ∃ g b, f = .released g ∧ only g = true ∧ m.owner g = some b ∧ ¬m.blocks.Live b

theorem FaultOf.of_grows {only : Field → Bool} {n : Kind → Nat} (h : Grows m m' n) {f : Fault}
    (hf : FaultOf only m' f) : FaultOf only m f := by
  rcases hf with hs | ⟨g, b, rfl, hg, hb, hlive⟩
  · exact .inl hs
  · refine .inr ⟨g, b, rfl, hg, h.owner ▸ hb, fun hl => hlive ?_⟩
    obtain ⟨p, hp, rfl⟩ := List.mem_map.mp hl
    exact List.mem_map_of_mem ((h.live p (m.blocks.below p hp)).mpr hp)

theorem deref_ends {only : Field → Bool} {f : Field} (hf : only f = true) (m : Mem) :
    Ends (deref f) m (fun _ m' => m' = m) (fun e _ => FaultOf only m e) := by
  unfold Ends deref
  by_cases h : ∀ b ∈ m.owner f, m.blocks.Live b
  · rw [if_pos h]
  · rw [if_neg h]
    push Not at h
    obtain ⟨b, hb, hl⟩ := h
    exact .inr ⟨f, b, rfl, hf, hb, hl⟩

/-- A part of the server changes the server, or stops it. -/
theorem lift_stops {α : Type} {x : Proc α} {Q : α → State → Prop} (h : Ends x m.server Q fun _ _ => True) :
    Ends (lift x) m (fun a m' => Q a m'.server ∧ m' = { m with server := m'.server }) (fun e _ => ∃ e', e = .stop e') :=
  Layer.ends_lift (h.mono (fun _ _ hq => ⟨hq, rfl⟩) fun e _ _ => ⟨e, rfl⟩)

theorem lift_ends {only : Field → Bool} {α : Type} {x : Proc α} {Q : α → State → Prop}
    (h : Ends x m.server Q fun _ _ => True) :
    Ends (lift x) m (fun a m' => Q a m'.server ∧ m' = { m with server := m'.server }) (fun e _ => FaultOf only m e) :=
  (lift_stops h).mono (fun _ _ h => h) fun _ _ h => .inl h

/-! ## Pointers -/

def Field.key : Field → Bytes
  | .cmdType => ascii "commend_type"
  | .minerMac => ascii "miner_mac"
  | .path => ascii "path"
  | .pathInstall => ascii "path_install"

/-- The block that the pointer leads into, taken from a string of the message in
`doc`. -/
def Field.into (f : Field) (doc : Nat) (s : Bytes) : Option Nat :=
  if (f = .path ∨ f = .pathInstall) ∧ s.length = 0 then none else some doc

/-- The blocks allocated for empty paths, and lost at once. -/
def blank : Member → Nat
  | (key, .string s) => if (key = Field.path.key ∨ key = Field.pathInstall.key) ∧ s.length = 0 then 1 else 0
  | _ => 0

def blanks (ms : List Member) : Nat := (ms.map blank).sum

/-- Pointers have been set as `g` says, and `n` blocks allocated. -/
structure Points (m m' : Mem) (g : Field → Option (Option Nat)) (n : Nat) : Prop where
  grows : Grows m { m' with owner := m.owner } fun k => n * one .blank k
  server : m'.server = m.server
  owner : ∀ f, m'.owner f = (g f).getD (m.owner f)

theorem Points.refl (m : Mem) : Points m m (fun _ => none) 0 :=
  ⟨(Grows.refl m).congr fun _ => by simp, rfl, fun _ => rfl⟩

theorem Points.trans {m₁ : Mem} {g g' : Field → Option (Option Nat)} {n n' : Nat} (h : Points m m₁ g n)
    (h' : Points m₁ m' g' n') : Points m m' (fun f => (g' f).or (g f)) (n + n') where
  grows := by
    have h₁ := h.grows
    have h₂ := h'.grows
    refine ⟨rfl, h₂.session.trans h₁.session, h₂.fault.trans h₁.fault, h₁.next.trans h₂.next,
      fun p hp => (h₂.live p (lt_of_lt_of_le hp h₁.next)).trans (h₁.live p hp), fun k => ?_⟩
    have e₁ : m₁.blocks.count k = m.blocks.count k + n * one .blank k := h₁.count k
    have e₂ : m'.blocks.count k = m₁.blocks.count k + n' * one .blank k := h₂.count k
    show m'.blocks.count k = _
    rw [e₂, e₁, Nat.add_mul, Nat.add_assoc]
  server := h'.server.trans h.server
  owner f := by
    rw [h'.owner, h.owner]
    cases g' f <;> rfl

theorem stringOf_key (F f : Field) (s : Bytes) :
    stringOf f.key (F.key, .string s) = if f = F then some s else none := by
  cases F <;> cases f <;> rfl

/-- How a message in `doc` that binds the key of `f` to `s` sets the pointer, if
it is one of those that are set at all. -/
def sets (only : Field → Bool) (doc : Nat) (f : Field) (s : Option Bytes) : Option (Option Nat) :=
  if only f then s.map (f.into doc) else none

theorem sets_or {only : Field → Bool} {doc : Nat} {f : Field} (s s' : Option Bytes) :
    sets only doc f (s.or s') = (sets only doc f s).or (sets only doc f s') := by
  unfold sets
  split
  · cases s <;> rfl
  · rfl

/-- A member with the key of a field sets it, and no other. -/
theorem points_update {only : Field → Bool} {F : Field} {s : Bytes} {doc : Nat} (hF : only F = true) {n : Nat}
    (hg : Grows m { m' with owner := m.owner } fun k => n * one .blank k) (hs : m'.server = m.server)
    (ho : m'.owner = Function.update m.owner F (F.into doc s)) :
    Points m m' (fun f => sets only doc f (stringOf f.key (F.key, .string s))) n := by
  refine ⟨hg, hs, fun f => ?_⟩
  rw [ho, stringOf_key, Function.update_apply]
  by_cases hf : f = F
  · subst hf
    rw [if_pos rfl, if_pos rfl, sets, if_pos hF]
    rfl
  · rw [if_neg hf, if_neg hf]
    unfold sets
    split <;> rfl

/-- A member that sets no pointer. -/
theorem points_none {only : Field → Bool} {x : Member} (h : ∀ f, only f = true → stringOf f.key x = none) (doc : Nat)
    (m : Mem) : Points m m (fun f => sets only doc f (stringOf f.key x)) 0 := by
  have hnone : (fun f => sets only doc f (stringOf f.key x)) = fun _ => none := by
    funext f
    unfold sets
    split
    · rename_i hf
      rw [h f hf]
      rfl
    · rfl
  rw [hnone]
  exact .refl m

theorem grows_zero (m : Mem) : Grows m m fun k => 0 * one .blank k := (Grows.refl m).congr fun _ => by simp

theorem cmdMember_ends (doc : Nat) (x : Member) (m : Mem) :
    Ends (cmdMember doc x) m (fun _ m' => Points m m' (fun f => sets (fun _ => true) doc f (stringOf f.key x)) (blank x))
      (fun _ _ => False) := by
  obtain ⟨key, v⟩ := x
  have hg := grows_zero m
  have hg' := ((Grows.refl m).malloc .blank).congr (l := fun k => 1 * one .blank k) fun _ => by simp
  cases v with
  | string s =>
    by_cases hkey : ∃ F : Field, key = F.key
    · obtain ⟨F, rfl⟩ := hkey
      cases F with
      | cmdType => exact points_update rfl hg rfl rfl
      | minerMac => exact points_update rfl hg rfl rfl
      | path =>
        cases s with
        | nil => exact points_update rfl hg' rfl rfl
        | cons b s => exact points_update rfl hg rfl rfl
      | pathInstall =>
        cases s with
        | nil => exact points_update rfl hg' rfl rfl
        | cons b s => exact points_update rfl hg rfl rfl
    · have hne : ∀ F : Field, key ≠ F.key := fun F e => hkey ⟨F, e⟩
      have hblank : blank (key, .string s) = 0 := by simp [blank, hne]
      have hpure : cmdMember doc (key, .string s) = pure ⟨⟩ := by
        have h₁ := hne .cmdType
        have h₂ := hne .minerMac
        have h₃ := hne .path
        have h₄ := hne .pathInstall
        simp only [Field.key] at h₁ h₂ h₃ h₄
        simp [cmdMember, h₁, h₂, h₃, h₄]
      rw [hblank, hpure]
      exact points_none (x := (key, .string s)) (fun f _ => if_neg (hne f)) doc m
  | _ => exact points_none (fun _ _ => rfl) doc m

theorem agentMember_ends (doc : Nat) (x : Member) (m : Mem) :
    Ends (agentMember doc x) m (fun _ m' => Points m m' (fun f => sets (· = .minerMac) doc f (stringOf f.key x)) 0)
      (fun _ _ => False) := by
  obtain ⟨key, v⟩ := x
  cases v with
  | string s =>
    by_cases hkey : key = Field.minerMac.key
    · subst hkey
      exact points_update rfl (grows_zero m) rfl rfl
    · have hpure : agentMember doc (key, .string s) = pure ⟨⟩ := if_neg hkey
      rw [hpure]
      refine points_none (x := (key, .string s)) (fun f hf => ?_) doc m
      rw [of_decide_eq_true hf]
      exact if_neg hkey
  | _ => exact points_none (fun _ _ => rfl) doc m

/-- The last member with the key of a field sets its pointer. -/
theorem foreach_ends {step : Member → MProc PUnit} {only : Field → Bool} {doc : Nat} {n : Member → Nat}
    (h : ∀ x m, Ends (step x) m (fun _ m' => Points m m' (fun f => sets only doc f (stringOf f.key x)) (n x))
      (fun _ _ => False)) (ms : List Member) (m : Mem) :
    Ends (foreach step ms) m
      (fun _ m' => Points m m' (fun f => sets only doc f (lastString f.key ms)) (ms.map n).sum) (fun _ _ => False) := by
  induction ms generalizing m with
  | nil => exact points_none (x := ([], .null)) (fun _ _ => rfl) doc m
  | cons x ms ih =>
    refine .bind ((h x m).mono (fun _ m₁ h₁ => (ih m₁).mono (fun _ m₂ h₂ => ?_) fun _ _ h => h) fun _ _ h => h)
    have h₃ := h₁.trans h₂
    simp only [← sets_or] at h₃
    rw [List.map_cons, List.sum_cons]
    exact h₃

end CmdAgent.Memory
