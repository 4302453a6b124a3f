import CmdAgent.Framework.Text

/-!
# NUL-terminated messages

A stream of messages, each followed by a NUL. The messages can be read off the
stream as long as they hold no NUL themselves (`frames_split`). What a reader
that takes C strings out of a stream can lose is counted in bytes that are not
NUL (`solid`): a C string holds at most the solid bytes of its buffer, and
fewer if one stands after a NUL.
-/

namespace CmdAgent

/-- The messages, each followed by a NUL. -/
def frames (ms : List Bytes) : Bytes := ms.flatMap (· ++ [0])

/-- The number of bytes that are not NUL. -/
def solid (b : Bytes) : Nat := b.countP (· ≠ 0)

@[simp] theorem frames_nil : frames [] = [] := rfl

@[simp] theorem frames_cons (m : Bytes) (ms : List Bytes) : frames (m :: ms) = m ++ 0 :: frames ms := by
  simp [frames]

@[simp] theorem solid_append (a b : Bytes) : solid (a ++ b) = solid a + solid b := List.countP_append

theorem solid_of_nul_free {b : Bytes} (h : (0 : Byte) ∉ b) : solid b = b.length :=
  List.countP_eq_length.mpr fun x hx => by
    have : x ≠ 0 := fun e => h (e ▸ hx)
    simpa using this

/-- All the solid bytes of a stream are in its messages. -/
theorem solid_frames {ms : List Bytes} (h : ∀ m ∈ ms, (0 : Byte) ∉ m) :
    solid (frames ms) = (ms.map List.length).sum := by
  induction ms with
  | nil => rfl
  | cons m ms ih =>
    have hm := solid_of_nul_free (h m (List.mem_cons_self ..))
    have ih := ih fun m' hm' => h m' (List.mem_cons_of_mem _ hm')
    rw [frames_cons, ← List.singleton_append, solid_append, solid_append, hm, ih]
    simp [solid]

theorem nul_mem_frames {ms : List Bytes} (h : (0 : Byte) ∉ frames ms) : ms = [] := by
  cases ms with
  | nil => rfl
  | cons m ms => simp at h

/-- The first NUL of a stream ends its first message. -/
theorem frames_split {a t : Bytes} {ms : List Bytes} (ha : (0 : Byte) ∉ a) (hm : ∀ m ∈ ms, (0 : Byte) ∉ m)
    (h : a ++ 0 :: t = frames ms) : ∃ ms', ms = a :: ms' ∧ t = frames ms' := by
  cases ms with
  | nil => simp at h
  | cons m ms =>
    rw [frames_cons] at h
    have hcs := congrArg cstr h
    rw [cstr_append_nul ha, cstr_append_nul (hm m (List.mem_cons_self ..))] at hcs
    subst hcs
    exact ⟨ms, rfl, (List.cons.inj (List.append_cancel_left h)).2⟩

/-- A buffer with a NUL in it is a C string, the NUL and what stands after it. -/
theorem cstr_split {b : Bytes} (h : (0 : Byte) ∈ b) : ∃ t, b = cstr b ++ 0 :: t := by
  obtain ⟨p, t, rfl, hp⟩ := List.eq_append_cons_of_mem h
  exact ⟨t, by rw [cstr_append_nul hp]⟩

theorem cstr_append_of_nul {a : Bytes} (h : (0 : Byte) ∈ a) (b : Bytes) : cstr (a ++ b) = cstr a := by
  obtain ⟨p, t, rfl, hp⟩ := List.eq_append_cons_of_mem h
  rw [List.append_assoc, List.cons_append, cstr_append_nul hp, cstr_append_nul hp]

theorem length_cstr_le (b : Bytes) : (cstr b).length ≤ solid b := by
  by_cases h : (0 : Byte) ∈ b
  · obtain ⟨t, ht⟩ := cstr_split h
    have hs := congrArg solid ht
    rw [solid_append, solid_of_nul_free (nul_not_mem_cstr b)] at hs
    omega
  · rw [cstr_of_nul_free h, solid_of_nul_free h]

/-- Bytes read later add at most their solid bytes to a C string. -/
theorem length_cstr_append_le (a b : Bytes) : (cstr (a ++ b)).length ≤ (cstr a).length + solid b := by
  by_cases h : (0 : Byte) ∈ a
  · rw [cstr_append_of_nul h]; omega
  · have hle := length_cstr_le (a ++ b)
    rw [solid_append, solid_of_nul_free h] at hle
    rw [cstr_of_nul_free h]
    exact hle

/-- A byte that is not NUL at the end of a buffer is lost if there is a NUL
before it. -/
theorem length_cstr_lt {b : Bytes} (h : (0 : Byte) ∈ b) (hl : b.getLast? ≠ some 0) :
    (cstr b).length < solid b := by
  obtain ⟨t, ht⟩ := cstr_split h
  have hs := congrArg solid ht
  rw [solid_append, solid_of_nul_free (nul_not_mem_cstr b), ← List.singleton_append, solid_append] at hs
  have hpos : 0 < solid t := by
    rcases List.eq_nil_or_concat t with rfl | ⟨t', x, rfl⟩
    · rw [ht, List.getLast?_append] at hl
      exact absurd rfl hl
    · rw [ht, List.concat_eq_append, ← List.cons_append, ← List.append_assoc, List.getLast?_append] at hl
      have hx : x ≠ 0 := by simpa using hl
      exact List.countP_pos_iff.mpr ⟨x, by simp, by simpa using hx⟩
  omega

/-- A stream of messages that are not empty does not begin with a NUL. -/
theorem frames_ne_nul {ms : List Bytes} (hm : ∀ m ∈ ms, m ≠ [] ∧ (0 : Byte) ∉ m) (t : Bytes) :
    frames ms ≠ 0 :: t := fun h => by
  obtain ⟨ms', rfl, -⟩ := frames_split List.not_mem_nil (fun m hm' => (hm m hm').2) h.symm
  exact (hm [] (List.mem_cons_self ..)).1 rfl

/-- A buffer whose C string is the first message of a stream, and holds all
its solid bytes, holds this message and its NUL. -/
theorem frames_buffer {b s : Bytes} {ms : List Bytes} (hb : (0 : Byte) ∈ b) (hle : solid b ≤ (cstr b).length)
    (hm : ∀ m ∈ ms, m ≠ [] ∧ (0 : Byte) ∉ m) (h : b ++ s = frames (cstr b :: ms)) :
    b = cstr b ++ [0] ∧ s = frames ms := by
  obtain ⟨t, ht⟩ := cstr_split hb
  rw [frames_cons] at h
  have hsolid := congrArg solid ht
  rw [solid_append, solid_of_nul_free (nul_not_mem_cstr b), ← List.singleton_append, solid_append] at hsolid
  have hts : t ++ s = frames ms := by
    have h' : cstr b ++ 0 :: (t ++ s) = cstr b ++ 0 :: frames ms := by
      rw [← h, ← List.cons_append, ← List.append_assoc, ← ht]
    exact (List.cons.inj (List.append_cancel_left h')).2
  cases t with
  | nil => exact ⟨ht, hts⟩
  | cons x t =>
    -- what stands after the NUL would have to be another NUL
    have hx : x = 0 := by
      by_contra hx
      have : 0 < solid (x :: t) := List.countP_pos_iff.mpr ⟨x, by simp, by simpa using hx⟩
      omega
    exact absurd (hts.symm.trans (by rw [hx]; rfl)) (frames_ne_nul hm (t ++ s))

end CmdAgent
