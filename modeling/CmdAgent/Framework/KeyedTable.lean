import Mathlib.Data.List.Nodup

/-!
# Tables with a unique key

A database table with a unique key column, as the list of its rows. The
structure carries the uniqueness of the keys, so every operation that gives a
table gives one that respects the key. What a table holds is read off by
`lookup`; each operation is described by what it does to `lookup`
(`lookup_insert`, `lookup_replace`, `lookup_deleteWhere`).
-/

namespace CmdAgent

/-- Rows of type `α`, no two with the same `key`. -/
structure KeyedTable {α κ : Type} (key : α → κ) where
  rows : List α
  unique : (rows.map key).Nodup

namespace KeyedTable

variable {α κ : Type} {key : α → κ}

def empty : KeyedTable key := ⟨[], List.nodup_nil⟩

variable [DecidableEq κ]

def rowsFor (t : KeyedTable key) (k : κ) : List α := t.rows.filter fun x => key x = k

def lookup (t : KeyedTable key) (k : κ) : Option α := t.rows.find? fun x => key x = k

theorem lookup_eq_some {t : KeyedTable key} {k : κ} {x : α} :
    t.lookup k = some x ↔ x ∈ t.rows ∧ key x = k := by
  constructor
  · intro h
    exact ⟨List.mem_of_find?_eq_some h, by simpa using List.find?_some h⟩
  · rintro ⟨hx, rfl⟩
    rcases hl : t.lookup (key x) with _ | y
    · have := List.find?_eq_none.mp hl x hx
      simp at this
    · have hy : y ∈ t.rows := List.mem_of_find?_eq_some hl
      have hk : key y = key x := by simpa using List.find?_some hl
      rw [List.inj_on_of_nodup_map t.unique hy hx hk]

theorem lookup_eq_none {t : KeyedTable key} {k : κ} : t.lookup k = none ↔ ∀ x ∈ t.rows, key x ≠ k := by
  simp [lookup, List.find?_eq_none]

/-- The rows with a key are what `lookup` finds: one row or none. -/
theorem rowsFor_eq (t : KeyedTable key) (k : κ) : t.rowsFor k = (t.lookup k).toList := by
  have hnd : (t.rowsFor k).Nodup := (List.Nodup.of_map _ t.unique).filter _
  have hmem : ∀ y, y ∈ t.rowsFor k ↔ t.lookup k = some y := fun y => by
    simp [rowsFor, lookup_eq_some]
  rcases hl : t.lookup k with _ | x
  · simp only [hl] at hmem
    exact List.eq_nil_iff_forall_not_mem.mpr fun y hy => by simpa using (hmem y).mp hy
  · simp only [hl, Option.some.injEq] at hmem
    refine List.perm_singleton.mp ((List.perm_ext_iff_of_nodup hnd (List.nodup_singleton x)).mpr fun y => ?_)
    rw [hmem y, List.mem_singleton, eq_comm]

def insert (t : KeyedTable key) (x : α) (h : t.lookup (key x) = none) : KeyedTable key where
  rows := t.rows ++ [x]
  unique := by
    rw [List.map_append, List.nodup_append]
    refine ⟨t.unique, List.nodup_singleton _, ?_⟩
    intro a ha b hb
    obtain ⟨y, hy, rfl⟩ := List.mem_map.mp ha
    rw [List.map_singleton, List.mem_singleton] at hb
    rw [hb]
    exact lookup_eq_none.mp h y hy

/-- Put `x` in the place of the row with its key, if there is one. -/
def replace (t : KeyedTable key) (x : α) : KeyedTable key where
  rows := t.rows.map fun y => if key y = key x then x else y
  unique := by
    have : (key ∘ fun y => if key y = key x then x else y) = key := by
      funext y
      simp only [Function.comp_apply]
      split
      · rename_i h; exact h.symm
      · rfl
    rw [List.map_map, this]
    exact t.unique

def deleteWhere (t : KeyedTable key) (p : α → Bool) : KeyedTable key where
  rows := t.rows.filter fun x => !p x
  unique := (List.Sublist.map key List.filter_sublist).nodup t.unique

@[simp] theorem lookup_empty (k : κ) : (empty : KeyedTable key).lookup k = none := rfl

theorem lookup_insert (t : KeyedTable key) (x : α) (h : t.lookup (key x) = none) (k : κ) :
    (t.insert x h).lookup k = if key x = k then some x else t.lookup k := by
  simp only [lookup, insert, List.find?_append, List.find?_singleton, decide_eq_true_eq]
  split
  · rename_i hk
    subst hk
    rw [show t.rows.find? (fun y => decide (key y = key x)) = none from h]
    rfl
  · simp

theorem lookup_replace (t : KeyedTable key) (x : α) (k : κ) :
    (t.replace x).lookup k = if key x = k ∧ t.lookup k ≠ none then some x else t.lookup k := by
  split
  · rename_i h
    obtain ⟨rfl, hn⟩ := h
    obtain ⟨y, hy⟩ := Option.ne_none_iff_exists'.mp hn
    obtain ⟨hm, hk⟩ := lookup_eq_some.mp hy
    exact lookup_eq_some.mpr ⟨List.mem_map.mpr ⟨y, hm, by simp [hk]⟩, rfl⟩
  · rename_i h
    rcases hl : t.lookup k with _ | y
    · refine lookup_eq_none.mpr fun z hz => ?_
      obtain ⟨y, hm, rfl⟩ := List.mem_map.mp hz
      have hy := lookup_eq_none.mp hl y hm
      split
      · rename_i hk; rw [← hk]; exact hy
      · exact hy
    · obtain ⟨hm, hk⟩ := lookup_eq_some.mp hl
      have hne : ¬ key y = key x := fun e => h ⟨e.symm.trans hk, by simp [hl]⟩
      exact lookup_eq_some.mpr ⟨List.mem_map.mpr ⟨y, hm, by simp [hne]⟩, hk⟩

theorem lookup_deleteWhere (t : KeyedTable key) (p : α → Bool) (k : κ) :
    (t.deleteWhere p).lookup k = (t.lookup k).filter fun x => !p x := by
  rcases hl : t.lookup k with _ | x
  · refine lookup_eq_none.mpr fun y hy => ?_
    exact lookup_eq_none.mp hl y (List.mem_of_mem_filter hy)
  · obtain ⟨hm, rfl⟩ := lookup_eq_some.mp hl
    by_cases hp : p x = true
    · rw [Option.filter_some, if_neg (by simp [hp])]
      refine lookup_eq_none.mpr fun y hy hk => ?_
      obtain ⟨hy, hpy⟩ := List.mem_filter.mp hy
      rw [List.inj_on_of_nodup_map t.unique hy hm hk, hp] at hpy
      simp at hpy
    · rw [Option.filter_some, if_pos (by simpa using hp)]
      exact lookup_eq_some.mpr ⟨List.mem_filter.mpr ⟨hm, by simpa using hp⟩, rfl⟩

/-- Insert `x`, or put it in the place of the row with its key. -/
def put (t : KeyedTable key) (x : α) : KeyedTable key :=
  if h : t.lookup (key x) = none then t.insert x h else t.replace x

theorem lookup_put (t : KeyedTable key) (x : α) (k : κ) :
    (t.put x).lookup k = if key x = k then some x else t.lookup k := by
  unfold put
  split
  · exact lookup_insert ..
  · rename_i h
    rw [lookup_replace]
    by_cases hk : key x = k
    · rw [if_pos ⟨hk, hk ▸ h⟩, if_pos hk]
    · rw [if_neg fun e => hk e.1, if_neg hk]

/-- A table is determined up to the order of its rows by `lookup`. -/
theorem mem_rows_iff {t : KeyedTable key} {x : α} : x ∈ t.rows ↔ t.lookup (key x) = some x := by
  rw [lookup_eq_some, and_iff_left rfl]

end KeyedTable

end CmdAgent
