import Mathlib.Data.List.Count
import Mathlib.Data.List.Nodup

/-!
# Arenas

The blocks a program has allocated and not released yet, each with a number of
its own and with what it is for. A number is never given twice, so that a block
that has been released is never in use again. `count` keeps the books: an
allocation adds one block of its kind (`count_alloc`), and a release takes one
away (`count_free`).
-/

namespace CmdAgent

structure Arena (κ : Type) where
  live : List (Nat × κ)
  next : Nat
  nodup : (live.map Prod.fst).Nodup
  below : ∀ p ∈ live, p.1 < next

namespace Arena

variable {κ : Type}

def empty : Arena κ where
  live := []
  next := 0
  nodup := .nil
  below := by simp

/-- The block is in use. -/
def Live (a : Arena κ) (b : Nat) : Prop := b ∈ a.live.map Prod.fst

instance (a : Arena κ) (b : Nat) : Decidable (a.Live b) := inferInstanceAs (Decidable (_ ∈ _))

theorem Live.lt {a : Arena κ} {b : Nat} (h : a.Live b) : b < a.next := by
  obtain ⟨p, hp, rfl⟩ := List.mem_map.mp h
  exact a.below p hp

/-- Allocate the block `a.next`. -/
def alloc (a : Arena κ) (k : κ) : Arena κ where
  live := (a.next, k) :: a.live
  next := a.next + 1
  nodup := by
    rw [List.map_cons, List.nodup_cons]
    exact ⟨fun h => absurd (Live.lt h) (by simp), a.nodup⟩
  below p hp := by
    rcases List.mem_cons.mp hp with rfl | hp
    · exact Nat.lt_succ_self _
    · exact Nat.lt_succ_of_lt (a.below p hp)

def free (a : Arena κ) (b : Nat) : Arena κ where
  live := a.live.filter (·.1 ≠ b)
  next := a.next
  nodup := a.nodup.sublist (List.filter_sublist.map _)
  below p hp := a.below p (List.mem_of_mem_filter hp)

variable {a : Arena κ} {b c : Nat} {j : κ}

theorem live_of_mem (h : (b, j) ∈ a.live) : a.Live b := List.mem_map_of_mem h

theorem mem_alloc {p : Nat × κ} : p ∈ (a.alloc j).live ↔ p = (a.next, j) ∨ p ∈ a.live := List.mem_cons

theorem mem_free {p : Nat × κ} : p ∈ (a.free b).live ↔ p ∈ a.live ∧ p.1 ≠ b := by
  simp [free]

theorem live_alloc : (a.alloc j).Live c ↔ c = a.next ∨ a.Live c := List.mem_cons

theorem live_free : (a.free b).Live c ↔ a.Live c ∧ c ≠ b := by
  constructor
  · intro h
    obtain ⟨p, hp, rfl⟩ := List.mem_map.mp h
    exact ⟨List.mem_map_of_mem (mem_free.mp hp).1, (mem_free.mp hp).2⟩
  · rintro ⟨h, hne⟩
    obtain ⟨p, hp, rfl⟩ := List.mem_map.mp h
    exact List.mem_map_of_mem (mem_free.mpr ⟨hp, hne⟩)

/-! ## The books -/

section

variable [DecidableEq κ]

/-- The number of blocks of a kind. -/
def count (a : Arena κ) (k : κ) : Nat := (a.live.map Prod.snd).count k

theorem count_alloc (k : κ) : (a.alloc j).count k = a.count k + if j = k then 1 else 0 := by
  simp [count, alloc, List.count_cons]

/-- In a list with distinct keys, one entry goes with its key. -/
theorem count_filter_ne {l : List (Nat × κ)} (hn : (l.map Prod.fst).Nodup) (h : (b, j) ∈ l) (k : κ) :
    (l.map Prod.snd).count k = ((l.filter (·.1 ≠ b)).map Prod.snd).count k + if j = k then 1 else 0 := by
  induction l with
  | nil => cases h
  | cons p l ih =>
    rw [List.map_cons, List.nodup_cons] at hn
    rcases List.mem_cons.mp h with rfl | h
    · have hkeep : l.filter (·.1 ≠ b) = l := by
        refine List.filter_eq_self.mpr fun q hq => ?_
        have hne : q.1 ≠ b := fun e => hn.1 (List.mem_map.mpr ⟨q, hq, e⟩)
        simpa using hne
      rw [List.filter_cons_of_neg (by simp), hkeep]
      simp [List.count_cons]
    · have hne : p.1 ≠ b := fun e => hn.1 (e ▸ List.mem_map_of_mem h)
      rw [List.filter_cons_of_pos (by simpa using hne), List.map_cons, List.map_cons, List.count_cons, List.count_cons,
        ih hn.2 h]
      omega

theorem count_free (h : (b, j) ∈ a.live) (k : κ) : a.count k = (a.free b).count k + if j = k then 1 else 0 :=
  count_filter_ne a.nodup h k

end

end Arena

end CmdAgent
