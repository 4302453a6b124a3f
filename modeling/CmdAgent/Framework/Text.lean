import Mathlib.Data.Nat.Digits.Lemmas
import Mathlib.Data.List.TakeWhile

/-!
# Bytes, C strings and decimals

The texts a C program handles are lists of bytes. A C string ends at its first
NUL (`cstr`); `printD` is what `printf` writes for `%d` and `atoi` what the C
library reads back from it (`atoi_printD`).
-/

namespace CmdAgent

abbrev Byte := UInt8
abbrev Bytes := List Byte

/-- The bytes of an ASCII literal. -/
def ascii (s : String) : Bytes := s.toList.map fun c => UInt8.ofNat c.toNat

/-- The C string at the start of a buffer: its bytes up to the first NUL. -/
def cstr (b : Bytes) : Bytes := b.takeWhile (· ≠ 0)

theorem cstr_append {s : Bytes} (h : (0 : Byte) ∉ s) (t : Bytes) : cstr (s ++ t) = s ++ cstr t :=
  List.takeWhile_append_of_pos fun b hb => by
    have : b ≠ 0 := fun e => h (e ▸ hb)
    simpa using this

theorem cstr_of_nul_free {s : Bytes} (h : (0 : Byte) ∉ s) : cstr s = s := by
  have := cstr_append h []
  rwa [List.append_nil, show cstr [] = [] from rfl, List.append_nil] at this

theorem cstr_append_nul {s : Bytes} (h : (0 : Byte) ∉ s) (t : Bytes) : cstr (s ++ 0 :: t) = s := by
  rw [cstr_append h, show cstr (0 :: t) = [] by simp [cstr], List.append_nil]

theorem nul_not_mem_cstr (b : Bytes) : (0 : Byte) ∉ cstr b := fun h => by
  have := List.mem_takeWhile_imp h
  simp at this

def strlen (s : Bytes) : Nat := (cstr s).length

def strndup (s : Bytes) (n : Nat) : Bytes := (cstr s).take n

theorem strndup_strlen (s : Bytes) : strndup s (strlen s) = cstr s := List.take_length

/-! ## Decimals -/

/-- The ASCII digit of `d < 10`. -/
def digit (d : Nat) : Byte := UInt8.ofNat (48 + d)

def isDigit (b : Byte) : Bool := 48 ≤ b.toNat && b.toNat ≤ 57

/-- `isspace` in the C locale. -/
def isSpace (b : Byte) : Bool := b.toNat == 32 || (9 ≤ b.toNat && b.toNat ≤ 13)

/-- The decimal text of a natural number. -/
def dec (n : Nat) : Bytes := if n = 0 then [48] else ((Nat.digits 10 n).map digit).reverse

/-- What `%d` prints. -/
def printD (i : Int) : Bytes := if i < 0 then 45 :: dec i.natAbs else dec i.natAbs

/-- The value of a run of digits. -/
def digitsValue (ds : Bytes) : Nat := Nat.ofDigits 10 ((ds.map fun b => b.toNat - 48).reverse)

/-- `strtol` in base 10, before its result is clamped: white space, an
optional sign, then the digits up to the first byte that is none. -/
def strtolValue (s : Bytes) : Int :=
  match s.dropWhile isSpace with
  | 45 :: t => -(digitsValue (t.takeWhile isDigit) : Int)
  | 43 :: t => digitsValue (t.takeWhile isDigit)
  | t => digitsValue (t.takeWhile isDigit)

/-- `atoi`: `strtol`, clamped to a `long`, converted to an `int`. -/
def atoi (s : Bytes) : Int :=
  (max (-(2 ^ 63)) (min (2 ^ 63 - 1) (strtolValue s))).bmod (2 ^ 32)

/-- The values of an `int`. -/
def IsInt32 (i : Int) : Prop := -(2 ^ 31) ≤ i ∧ i < 2 ^ 31

instance (i : Int) : Decidable (IsInt32 i) := inferInstanceAs (Decidable (_ ∧ _))

theorem toNat_digit {d : Nat} (h : d < 10) : (digit d).toNat = 48 + d := by
  simp only [digit, UInt8.toNat_ofNat']
  omega

theorem isDigit_digit {d : Nat} (h : d < 10) : isDigit (digit d) = true := by
  simp only [isDigit, toNat_digit h, Bool.and_eq_true, decide_eq_true_eq]
  omega

theorem isDigit_of_mem_dec {n : Nat} {b : Byte} (h : b ∈ dec n) : isDigit b = true := by
  unfold dec at h
  split at h
  · rw [List.mem_singleton] at h; subst h; decide
  · rw [List.mem_reverse, List.mem_map] at h
    obtain ⟨d, hd, rfl⟩ := h
    exact isDigit_digit (Nat.digits_lt_base (by decide) hd)

theorem dec_ne_nil (n : Nat) : dec n ≠ [] := by
  unfold dec
  split
  · simp
  · rename_i h
    simpa [Nat.digits_eq_nil_iff_eq_zero] using h

theorem digitsValue_dec (n : Nat) : digitsValue (dec n) = n := by
  unfold dec digitsValue
  split
  · rename_i h; subst h; decide
  · rw [List.map_reverse, List.reverse_reverse, List.map_map]
    have hid : (Nat.digits 10 n).map ((fun b : Byte => b.toNat - 48) ∘ digit) = Nat.digits 10 n := by
      rw [List.map_congr_left (g := id), List.map_id]
      intro d hd
      have hlt : d < 10 := Nat.digits_lt_base (by decide) hd
      simp only [Function.comp_apply, toNat_digit hlt, id_eq]
      omega
    rw [hid, Nat.ofDigits_digits]

theorem length_dec_le_iff {n k : Nat} (hk : 0 < k) : (dec n).length ≤ k ↔ n < 10 ^ k := by
  unfold dec
  split
  · rename_i h
    subst h
    exact ⟨fun _ => Nat.pow_pos (by decide), fun _ => hk⟩
  · rw [List.length_reverse, List.length_map]
    exact Nat.digits_length_le_iff (by decide) n

theorem length_printD_le {i : Int} (h : IsInt32 i) : (printD i).length ≤ 11 := by
  have hn : (dec i.natAbs).length ≤ 10 :=
    (length_dec_le_iff (by decide)).mpr (by obtain ⟨h₁, h₂⟩ := h; omega)
  unfold printD
  split
  · rw [List.length_cons]; omega
  · omega

theorem printD_of_nonneg {i : Int} (h : 0 ≤ i) : printD i = dec i.toNat := by
  rw [printD, if_neg (by omega), show i.natAbs = i.toNat by omega]

/-- `DecimalOf t i`: the text `t` denotes the integer `i`. It is a run of
digits, with or without a minus sign in front. -/
inductive DecimalOf : Bytes → Int → Prop where
  | digits {ds : Bytes} (hne : ds ≠ []) (hds : ∀ b ∈ ds, isDigit b = true) : DecimalOf ds (digitsValue ds)
  | minus {ds : Bytes} (hne : ds ≠ []) (hds : ∀ b ∈ ds, isDigit b = true) :
    DecimalOf (45 :: ds) (-(digitsValue ds : Int))

theorem decimalOf_printD (i : Int) : DecimalOf (printD i) i := by
  have hval : (digitsValue (dec i.natAbs) : Int) = i.natAbs := by rw [digitsValue_dec]
  unfold printD
  split
  · have h := DecimalOf.minus (dec_ne_nil i.natAbs) fun _ hb => isDigit_of_mem_dec hb
    rwa [hval, show -(i.natAbs : Int) = i by omega] at h
  · have h := DecimalOf.digits (dec_ne_nil i.natAbs) fun _ hb => isDigit_of_mem_dec hb
    rwa [hval, show (i.natAbs : Int) = i by omega] at h

/-- Digits start with a byte that is no white space and no sign, so `strtol`
reads all of them. -/
theorem strtolValue_digits {ds : Bytes} (hne : ds ≠ []) (hds : ∀ b ∈ ds, isDigit b = true) :
    strtolValue ds = digitsValue ds := by
  obtain ⟨b, t, rfl⟩ := List.exists_cons_of_ne_nil hne
  have hb : isDigit b = true := hds b (List.mem_cons_self ..)
  simp only [isDigit, Bool.and_eq_true, decide_eq_true_eq] at hb
  have hsp : isSpace b = false := by
    simp only [isSpace, Bool.or_eq_false_iff, beq_eq_false_iff_ne, ne_eq, Bool.and_eq_false_iff,
      decide_eq_false_iff_not]
    omega
  unfold strtolValue
  rw [List.dropWhile_cons_of_neg (by rw [hsp]; decide)]
  split
  · rename_i t' e
    obtain ⟨rfl, -⟩ := List.cons.inj e
    exact absurd hb (by decide)
  · rename_i t' e
    obtain ⟨rfl, -⟩ := List.cons.inj e
    exact absurd hb (by decide)
  · rw [List.takeWhile_eq_self_iff.mpr hds]

theorem DecimalOf.strtolValue {t : Bytes} {i : Int} (h : DecimalOf t i) : strtolValue t = i := by
  cases h with
  | digits hne hds => exact strtolValue_digits hne hds
  | minus hne hds =>
    -- a minus sign is neither white space nor a digit
    rw [CmdAgent.strtolValue, List.dropWhile_cons_of_neg (by decide)]
    simp only [List.takeWhile_eq_self_iff.mpr hds]

theorem strtolValue_printD (i : Int) : strtolValue (printD i) = i := (decimalOf_printD i).strtolValue

/-- A decimal text holds no NUL. -/
theorem DecimalOf.nul_free {t : Bytes} {i : Int} (h : DecimalOf t i) : (0 : Byte) ∉ t := by
  intro h₀
  cases h with
  | digits _ hds => exact absurd (hds 0 h₀) (by decide)
  | minus _ hds =>
    rcases List.mem_cons.mp h₀ with h₀ | h₀
    · exact absurd h₀ (by decide)
    · exact absurd (hds 0 h₀) (by decide)

/-- `atoi` reads the decimal text of an `int`. -/
theorem DecimalOf.atoi {t : Bytes} {i : Int} (h : DecimalOf t i) (hi : IsInt32 i) : atoi t = i := by
  obtain ⟨h₁, h₂⟩ := hi
  rw [CmdAgent.atoi, h.strtolValue, min_eq_right (by omega), max_eq_right (by omega)]
  exact Int.bmod_eq_of_le (by omega) (by omega)

/-- Reading back what `%d` printed. -/
theorem atoi_printD {i : Int} (h : IsInt32 i) : atoi (printD i) = i := (decimalOf_printD i).atoi h

theorem mem_printD {i : Int} {b : Byte} (h : b ∈ printD i) : b = 45 ∨ isDigit b = true := by
  unfold printD at h
  split at h
  · rcases List.mem_cons.mp h with rfl | h
    · exact .inl rfl
    · exact .inr (isDigit_of_mem_dec h)
  · exact .inr (isDigit_of_mem_dec h)

end CmdAgent
