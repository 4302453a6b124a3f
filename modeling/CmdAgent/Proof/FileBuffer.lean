import CmdAgent.Impl.Session
import CmdAgent.Framework.Ends

/-!
# The buffer for the file

`msg_client_info` allocates a byte more than the file has, clears the block,
reads the file into it and stores a NUL after the block. So the store is out
of bounds for every size `ftell` can give (`not_inBounds`), and what becomes of
it depends on what is there. `File.Fits` is what it takes for the reading to do
no harm (`fileBuff_ends`): the size is one that can be added to, a byte after
the block is in no use, and, where `ftell` failed and `fread` is given the
largest count there is, so are as many bytes as the file has.
-/

namespace CmdAgent

/-- The values `ftell` gives for an open stream: -1 for an error, or a size. -/
def FileSize (v : Int) : Prop := -1 ≤ v ∧ v ≤ LONG_MAX

instance (v : Int) : Decidable (FileSize v) := inferInstanceAs (Decidable (_ ∧ _))

/-- With the file size `v`, no sum overflows, and what is written stays within
what is allocated. -/
structure InBounds (v : Int) : Prop where
  sum : addLong v 1 ≠ none
  memset : ∀ n ∈ memsetLen v, n ≤ fileAlloc v
  fread : freadCount v ≤ fileAlloc v
  nul : ∀ i ∈ nulIndex v, 0 ≤ i ∧ i < fileAlloc v

theorem toSizeT_of_nonneg {v : Int} (h₀ : 0 ≤ v) (h : v < 2 ^ 64) : (toSizeT v : Int) = v := by
  rw [toSizeT, Int.emod_eq_of_lt h₀ h]
  omega

theorem addLong_one {v : Int} (h : FileSize v) (hv : v ≠ LONG_MAX) : addLong v 1 = some (v + 1) := by
  obtain ⟨h₁, h₂⟩ := h
  exact if_pos ⟨by omega, by omega⟩

/-- The sum is the size that was allocated. -/
theorem fileAlloc_eq {v : Int} (h : FileSize v) (hv : v ≠ LONG_MAX) : (fileAlloc v : Int) = v + 1 := by
  obtain ⟨h₁, h₂⟩ := h
  unfold LONG_MAX at h₂ hv
  unfold fileAlloc
  rcases Int.lt_or_le v 0 with h₀ | h₀
  · obtain rfl : v = -1 := by omega
    decide
  · have := toSizeT_of_nonneg h₀ (by omega)
    omega

/-- The NUL is written one byte past the buffer, for every size: its index is
the number of bytes allocated. -/
theorem not_inBounds {v : Int} (h : FileSize v) : ¬ InBounds v := by
  intro hb
  by_cases hv : v = LONG_MAX
  · subst hv
    exact hb.sum (by decide)
  · have hn := hb.nul (v + 1) (addLong_one h hv)
    rw [fileAlloc_eq h hv] at hn
    omega

/-- An empty file: one byte is allocated, and the second one written. -/
theorem not_inBounds_zero : ¬ InBounds 0 := not_inBounds (by decide)

theorem inBounds_false : ¬ ∀ v, FileSize v → InBounds v := by
  intro h
  have hn := (h 0 (by decide)).nul 1 (by decide)
  exact absurd hn (by decide)

/-! ## Reading the file -/

/-- What is written for the file fits its block and the `spare` bytes after it
that nothing uses. -/
def File.Fits (file : File) (spare : Nat) : Prop :=
  -1 ≤ file.size ∧ file.size < LONG_MAX ∧ 0 < spare ∧ (file.size = -1 → file.fread.length ≤ spare)

instance (file : File) (spare : Nat) : Decidable (file.Fits spare) := inferInstanceAs (Decidable (_ ∧ _ ∧ _ ∧ (_ → _)))

theorem memsetLen_eq {v : Int} (h : FileSize v) (hv : v ≠ LONG_MAX) : memsetLen v = some (fileAlloc v) := by
  have ha := fileAlloc_eq h hv
  obtain ⟨h₁, h₂⟩ := h
  unfold LONG_MAX at h₂
  rw [memsetLen, addLong_one ⟨h₁, h₂⟩ hv, Option.map_some, Option.some.injEq]
  have := toSizeT_of_nonneg (v := v + 1) (by omega) (by omega)
  omega

/-- What is read of a file that was measured is shorter than its block. -/
theorem length_fread_lt {file : File} (h₀ : 0 ≤ file.size) (h : file.size < LONG_MAX) :
    file.fread.length < fileAlloc file.size := by
  have ha := fileAlloc_eq (v := file.size) ⟨by omega, by omega⟩ (by omega)
  unfold LONG_MAX at h
  have hcount := toSizeT_of_nonneg h₀ (by omega)
  have hle : file.fread.length ≤ toSizeT file.size := List.length_take_le ..
  omega

/-- The bytes before the NUL. -/
theorem take_fread {file : File} (h₁ : -1 ≤ file.size) (h₂ : file.size < LONG_MAX) :
    file.fread.take (file.size + 1).toNat = file.contents.take file.size.toNat := by
  unfold LONG_MAX at h₂
  rw [File.fread, List.take_take]
  rcases Int.lt_or_le file.size 0 with h₀ | h₀
  · rw [show file.size = -1 by omega]
    rfl
  · have hcount : (freadCount file.size : Int) = file.size := toSizeT_of_nonneg h₀ (by omega)
    congr 1
    omega

/-- The file is read if it fits, up to its first NUL. -/
theorem fileBuff_ends (ans : Answers) (file : File) (s : State) :
    Ends (fileBuff ans file) s
      (fun buff s' => file.Fits ans.spare ∧ buff = cstr (file.contents.take file.size.toNat) ∧ s' = s)
      (fun e s' => ¬ file.Fits ans.spare ∧ (e = .undefined "file_buff" ∨ e = .undefined "file_size") ∧ s' = s) := by
  unfold fileBuff
  by_cases hsize : -1 ≤ file.size ∧ file.size < LONG_MAX
  · obtain ⟨h₁, h₂⟩ := hsize
    have hs : FileSize file.size := ⟨h₁, by omega⟩
    have ha := fileAlloc_eq hs (by omega)
    rw [memsetLen_eq hs (by omega), nulIndex, addLong_one hs (by omega)]
    dsimp only
    split
    · rename_i hroom
      refine .throw ⟨fun hfits => ?_, .inl rfl, rfl⟩
      obtain ⟨-, -, hspare, hread⟩ := hfits
      rcases Int.lt_or_le file.size 0 with h₀ | h₀
      · have := hread (by omega)
        omega
      · have := length_fread_lt h₀ h₂
        omega
    · rename_i hroom
      refine .pure ⟨⟨h₁, h₂, by omega, fun h₀ => by omega⟩, ?_, rfl⟩
      rw [take_fread h₁ h₂]
  · have hno : ¬ file.Fits ans.spare := fun h => hsize ⟨h.1, h.2.1⟩
    split
    · rename_i len index hlen hindex
      -- the sum is negative, and so is the index
      rw [nulIndex, addLong] at hindex
      split at hindex
      · obtain rfl := Option.some.inj hindex
        unfold LONG_MAX at *
        rw [if_pos (by omega)]
        exact .throw ⟨hno, .inl rfl, rfl⟩
      · cases hindex
    · exact .throw ⟨hno, .inr rfl, rfl⟩

end CmdAgent
