import Mathlib.Data.List.Basic

/-!
# Histories

A history is the list of what has happened, newest first. `Grown Q past h`
says that `h` has grown out of `past`, entry by entry, and that `Q` held of
each new entry with the history up to it; `Each Q h` is the same for a whole
history. A property of every entry is proved where entries are made
(`Each.grown`) and used by splitting the history at an entry (`Each.of_eq`).
-/

namespace CmdAgent

variable {α : Type} {Q R : List α → α → Prop} {past h : List α}

/-- `Q` holds of every entry and the entries before it. -/
def Each (Q : List α → α → Prop) : List α → Prop
  | [] => True
  | a :: past => Q past a ∧ Each Q past

theorem Each.of_append {newer : List α} (he : Each Q (newer ++ past)) : Each Q past := by
  induction newer with
  | nil => exact he
  | cons a newer ih => exact ih he.2

theorem Each.of_eq {newer : List α} {a : α} (he : Each Q (newer ++ a :: past)) : Q past a :=
  (Each.of_append he).1

inductive Grown (Q : List α → α → Prop) (past : List α) : List α → Prop where
  | refl : Grown Q past past
  | cons {h : List α} {a : α} : Grown Q past h → Q h a → Grown Q past (a :: h)

theorem Grown.trans {mid : List α} (h₁ : Grown Q past mid) (h₂ : Grown Q mid h) : Grown Q past h := by
  induction h₂ with
  | refl => exact h₁
  | cons _ hq ih => exact ih.cons hq

/-- What holds of the new entries and held of the old ones holds of all. -/
theorem Each.grown (he : Each R past) (hg : Grown Q past h) (hqr : ∀ h a, Q h a → R h a) : Each R h := by
  induction hg with
  | refl => exact he
  | cons _ hq ih => exact ⟨hqr _ _ hq, ih⟩

end CmdAgent
