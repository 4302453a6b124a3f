import Mathlib.Data.List.Basic

/-!
# Blocks of memory

A block of the heap as a program sees it through a pointer to its first cell:
`size` cells belong to it, and the cells after them to others. Nothing keeps a
program from reading those. What an allocation finds in the memory it gives,
in the block and past it, is a parameter of it.

A buffer that grows is described by the cells it holds in front
(`Block.Holds`): `holds_realloc` and `holds_write` are its two steps.
-/

namespace CmdAgent

variable {α : Type}

structure Block (α : Type) where
  size : Nat
  cells : Nat → α

namespace Block

/-- The cells that belong to the block. -/
def contents (b : Block α) : List α := (List.range b.size).map b.cells

def malloc (n : Nat) (found : Nat → α) : Block α := ⟨n, found⟩

/-- The cells that belong to the block before and after are kept; the others
are what was found in their place. -/
def realloc (b : Block α) (n : Nat) (found : Nat → α) : Block α :=
  ⟨n, fun i => if i < b.size ∧ i < n then b.cells i else found i⟩

/-- Write `src` from the index `offset` on. -/
def write (b : Block α) (offset : Nat) (src : List α) : Block α :=
  { b with cells := fun i => if offset ≤ i then src[i - offset]?.getD (b.cells i) else b.cells i }

/-- The block starts with `xs`. -/
structure Holds (b : Block α) (xs : List α) : Prop where
  length_le : xs.length ≤ b.size
  cells : ∀ i (h : i < xs.length), b.cells i = xs[i]

variable {b : Block α} {xs ys : List α} {n i : Nat} {found : Nat → α}

/-- Past its end a block shows what was found there. -/
theorem realloc_past (h : n ≤ i) : (b.realloc n found).cells i = found i :=
  if_neg fun hi => absurd hi.2 (by omega)

/-- A write leaves alone what lies behind it. -/
theorem write_past (h : n + xs.length ≤ i) : (b.write n xs).cells i = b.cells i := by
  have hnone : xs[i - n]? = none := List.getElem?_eq_none (by omega)
  simp only [write, hnone, Option.getD_none, ite_self]

theorem holds_realloc (h : b.Holds xs) (hn : xs.length ≤ n) : (b.realloc n found).Holds xs where
  length_le := hn
  cells i hi := by
    have hle := h.length_le
    rw [← h.cells i hi]
    exact if_pos ⟨by omega, by omega⟩

/-- Writing behind the cells a block holds appends to them. -/
theorem holds_write (h : b.Holds xs) (hn : (xs ++ ys).length ≤ b.size) : (b.write xs.length ys).Holds (xs ++ ys) where
  length_le := hn
  cells i hi := by
    by_cases hx : i < xs.length
    · rw [List.getElem_append_left hx, ← h.cells i hx]
      exact if_neg (by omega)
    · have hy : i - xs.length < ys.length := by rw [List.length_append] at hi; omega
      rw [List.getElem_append_right (by omega)]
      simp only [write, if_pos (show xs.length ≤ i by omega), List.getElem?_eq_getElem hy, Option.getD_some]

theorem Holds.nil : b.Holds [] := ⟨Nat.zero_le _, fun _ h => absurd h (Nat.not_lt_zero _)⟩

theorem Holds.take_contents (h : b.Holds xs) : b.contents.take xs.length = xs := by
  refine List.ext_getElem (by simp [contents, h.length_le]) fun i h₁ h₂ => ?_
  simp only [contents, List.getElem_take, List.getElem_map, List.getElem_range]
  exact h.cells i h₂

theorem Holds.contents_eq (h : b.Holds xs) (hn : b.size = xs.length) : b.contents = xs := by
  have hlen : b.contents.length = xs.length := by simp [contents, hn]
  rw [← h.take_contents, ← hlen, List.take_length]

/-- The last of the cells a block holds. -/
theorem Holds.cells_last (h : b.Holds (xs ++ ys)) (hne : ys ≠ []) :
    b.cells ((xs ++ ys).length - 1) = ys.getLast hne := by
  have hpos := List.length_pos_iff.mpr hne
  rw [h.cells _ (by rw [List.length_append]; omega), ← List.getLast_eq_getElem (by simp [hne]),
    List.getLast_append_of_ne_nil _ hne]

end Block

end CmdAgent
