import CmdAgent.Framework.Text

/-!
# The text of flat JSON objects

Objects whose members are strings and numbers: how they are written, with a
space after each colon and comma and inside the braces (`print`), and how such
a text is read back (`read`). A control byte, a quote, a backslash or a slash
in a string is written as an escape sequence, and every other byte as itself.

Reading what was written gives the object (`read_print`), and the text holds
no NUL (`nul_not_mem_print`).
-/

namespace CmdAgent.JsonText

inductive Scalar where
  | str (s : Bytes)
  | int (i : Int)
  deriving DecidableEq, Repr

/-! ## Writing -/

def hexDigits : Bytes := ascii "0123456789abcdef"

/-- The bytes with an escape sequence of their own, and its letter. -/
def letters : List (Byte × Byte) :=
  [(8, 98), (10, 110), (13, 114), (9, 116), (12, 102), (34, 34), (92, 92), (47, 47)]

/-- A byte of a string, as it is written. -/
def escape (b : Byte) : Bytes :=
  match letters.lookup b with
  | some c => [92, c]
  | none =>
    if b < 32 then ascii "\\u00" ++ [hexDigits.getD (b.toNat / 16) 0, hexDigits.getD (b.toNat % 16) 0]
    else [b]

def quoted (s : Bytes) : Bytes := 34 :: (s.flatMap escape ++ [34])

def printScalar : Scalar → Bytes
  | .str s => quoted s
  | .int i => printD i

def printMember (m : Bytes × Scalar) : Bytes := quoted m.1 ++ ascii ": " ++ printScalar m.2

/-- The members, up to the closing brace. -/
def printMembers : List (Bytes × Scalar) → Bytes
  | [] => ascii "\x7d"
  | [m] => printMember m ++ ascii " \x7d"
  | m :: ms => printMember m ++ ascii ", " ++ printMembers ms

def print (ms : List (Bytes × Scalar)) : Bytes := ascii "\x7b " ++ printMembers ms

/-! ## Reading -/

def hexValue (b : Byte) : Option Nat := hexDigits.findIdx? (· = b)

/-- The byte that a backslash and the letter `c` stand for. -/
def unescape (c : Byte) : Option Byte := (letters.find? (·.2 = c)).map Prod.fst

/-- A string, from after its opening quote, and the text after it. -/
def readString : Bytes → Option (Bytes × Bytes)
  | 34 :: rest => some ([], rest)
  | 92 :: 117 :: 48 :: 48 :: a :: b :: rest =>
    match hexValue a, hexValue b with
    | some x, some y => (readString rest).map fun r => (UInt8.ofNat (16 * x + y) :: r.1, r.2)
    | _, _ => none
  | 92 :: c :: rest =>
    match unescape c with
    | some b => (readString rest).map fun r => (b :: r.1, r.2)
    | none => none
  | b :: rest => (readString rest).map fun r => (b :: r.1, r.2)
  | [] => none

/-- A byte of the text of a number. -/
def isNumByte (b : Byte) : Bool := b = 45 || isDigit b

def readScalar : Bytes → Option (Scalar × Bytes)
  | 34 :: rest => (readString rest).map fun r => (.str r.1, r.2)
  | text =>
    if (text.takeWhile isNumByte).isEmpty then none
    else some (.int (strtolValue (text.takeWhile isNumByte)), text.dropWhile isNumByte)

/-- A member and the text after it. -/
def readMember : Bytes → Option ((Bytes × Scalar) × Bytes)
  | 34 :: rest =>
    match readString rest with
    | some (k, 58 :: 32 :: rest) => (readScalar rest).map fun r => ((k, r.1), r.2)
    | _ => none
  | _ => none

/-- At most `n` members, up to the closing brace. -/
def readMembers : Nat → Bytes → Option (List (Bytes × Scalar))
  | 0, _ => none
  | n + 1, text =>
    match readMember text with
    | some (m, [32, 125]) => some [m]
    | some (m, 44 :: 32 :: rest) => (readMembers n rest).map (m :: ·)
    | _ => none

/-- An object; one without members may also be written without the space. -/
def read : Bytes → Option (List (Bytes × Scalar))
  | [123, 125] => some []
  | [123, 32, 125] => some []
  | 123 :: 32 :: text => readMembers text.length text
  | _ => none

/-! ## Reading what was written -/

theorem hexValue_hexDigits : ∀ d < 16, hexValue (hexDigits.getD d 0) = some d := by decide +kernel

theorem unescape_letters {p : Byte × Byte} (h : p ∈ letters) : unescape p.2 = some p.1 ∧ p.2 ≠ 117 := by
  have hall : (letters.all fun p => unescape p.2 = some p.1 ∧ p.2 ≠ 117) = true := by decide
  simpa using List.all_eq_true.mp hall p h

/-- The byte after a backslash, if it is no `u`. -/
theorem readString_letter {c b : Byte} (hc : c ≠ 117) (hb : unescape c = some b) (rest : Bytes) :
    readString (92 :: c :: rest) = (readString rest).map fun r => (b :: r.1, r.2) := by
  rw [readString, hb]
  intro _ _ _ h
  exact absurd h hc

/-- A byte that stands for itself. -/
theorem readString_plain {b : Byte} (h₁ : b ≠ 34) (h₂ : b ≠ 92) (rest : Bytes) :
    readString (b :: rest) = (readString rest).map fun r => (b :: r.1, r.2) := by
  rw [readString]
  · exact h₁
  · rintro _ _ _ rfl
    exact absurd rfl h₂
  · rintro _ _ rfl
    exact absurd rfl h₂

/-- One byte of a string, in front of any text. -/
theorem readString_escape (b : Byte) (rest : Bytes) :
    readString (escape b ++ rest) = (readString rest).map fun r => (b :: r.1, r.2) := by
  unfold escape
  split
  · rename_i c hc
    obtain ⟨l₁, l₂, hl, -⟩ := List.lookup_eq_some_iff.mp hc
    have hmem : (b, c) ∈ letters := by rw [hl]; simp
    obtain ⟨hu, hne⟩ := unescape_letters hmem
    exact readString_letter hne hu rest
  · rename_i hb
    split
    · rename_i hlt
      have hlt : b.toNat < 32 := hlt
      have hx := hexValue_hexDigits (b.toNat / 16) (by omega)
      have hy := hexValue_hexDigits (b.toNat % 16) (by omega)
      have hval : UInt8.ofNat (16 * (b.toNat / 16) + b.toNat % 16) = b := by
        rw [Nat.div_add_mod, UInt8.ofNat_toNat]
      show readString (92 :: 117 :: 48 :: 48 :: hexDigits.getD (b.toNat / 16) 0 ::
        hexDigits.getD (b.toNat % 16) 0 :: rest) = _
      rw [readString, hx, hy]
      simp only [hval]
    · refine readString_plain ?_ ?_ rest
      · rintro rfl
        exact absurd hb (by decide)
      · rintro rfl
        exact absurd hb (by decide)

/-- A quoted string is read up to its closing quote. -/
theorem readString_quoted (s rest : Bytes) : readString (s.flatMap escape ++ 34 :: rest) = some (s, rest) := by
  induction s with
  | nil => rw [List.flatMap_nil, List.nil_append, readString]
  | cons b s ih => rw [List.flatMap_cons, List.append_assoc, readString_escape, ih]; rfl

theorem isNumByte_of_mem_printD {i : Int} {b : Byte} (h : b ∈ printD i) : isNumByte b = true := by
  rcases mem_printD h with rfl | h
  · rfl
  · simp [isNumByte, h]

theorem printD_ne_nil (i : Int) : printD i ≠ [] := by
  unfold printD
  split
  · simp
  · exact dec_ne_nil _

/-- A text after a value: it starts with no byte of a number. -/
def Separated (rest : Bytes) : Prop := rest.takeWhile isNumByte = []

theorem ne_quote_of_mem_printD {i : Int} {b : Byte} (h : b ∈ printD i) : b ≠ 34 := by
  intro e
  subst e
  exact absurd (isNumByte_of_mem_printD h) (by decide)

theorem readScalar_print (v : Scalar) {rest : Bytes} (h : Separated rest) :
    readScalar (printScalar v ++ rest) = some (v, rest) := by
  cases v with
  | str s =>
    rw [printScalar, quoted, List.cons_append, List.append_assoc, readScalar]
    simp [readString_quoted]
  | int i =>
    have htake : (printD i ++ rest).takeWhile isNumByte = printD i := by
      rw [List.takeWhile_append_of_pos fun b hb => isNumByte_of_mem_printD hb, h, List.append_nil]
    have hdrop : (printD i ++ rest).dropWhile isNumByte = rest := by
      have hcut := List.takeWhile_append_dropWhile (p := isNumByte) (l := printD i ++ rest)
      rw [htake] at hcut
      exact List.append_cancel_left hcut
    obtain ⟨b, t, hbt⟩ := List.exists_cons_of_ne_nil (printD_ne_nil i)
    have hb : b ≠ 34 := ne_quote_of_mem_printD (i := i) (by rw [hbt]; exact List.mem_cons_self ..)
    show readScalar (printD i ++ rest) = _
    rw [readScalar]
    · rw [htake, hdrop, strtolValue_printD]
      simp [printD_ne_nil]
    · intro r e
      rw [hbt, List.cons_append] at e
      exact hb (List.cons.inj e).1

theorem readMember_print (m : Bytes × Scalar) {rest : Bytes} (h : Separated rest) :
    readMember (printMember m ++ rest) = some (m, rest) := by
  have htext : printMember m ++ rest =
      34 :: (m.1.flatMap escape ++ 34 :: 58 :: 32 :: (printScalar m.2 ++ rest)) := by
    simp [printMember, quoted, ascii]
  rw [htext, readMember, readString_quoted]
  simp only [readScalar_print m.2 h]
  rfl

/-- As many members are read as the count allows. -/
theorem readMembers_print (m : Bytes × Scalar) (ms : List (Bytes × Scalar)) {n : Nat} (hn : ms.length < n) :
    readMembers n (printMembers (m :: ms)) = some (m :: ms) := by
  induction ms generalizing m n with
  | nil =>
    obtain ⟨n, rfl⟩ := Nat.exists_eq_add_of_lt hn
    have hclose : Separated (ascii " \x7d") := rfl
    rw [printMembers, readMembers, readMember_print m hclose]
    rfl
  | cons m' ms ih =>
    rw [List.length_cons] at hn
    obtain ⟨n, rfl⟩ := Nat.exists_eq_add_of_lt hn
    have hcomma : Separated (ascii ", " ++ printMembers (m' :: ms)) := rfl
    have hrest : readMembers (ms.length + 1 + n) (printMembers (m' :: ms)) = some (m' :: ms) := ih m' (by omega)
    rw [printMembers, List.append_assoc, readMembers, readMember_print m hcomma]
    · show (readMembers (ms.length + 1 + n) (printMembers (m' :: ms))).map (m :: ·) = _
      rw [hrest]
      rfl
    · simp

theorem length_lt_printMembers (m : Bytes × Scalar) (ms : List (Bytes × Scalar)) :
    ms.length < (printMembers (m :: ms)).length := by
  induction ms generalizing m with
  | nil => simp [printMembers, printMember, quoted]
  | cons m' ms ih =>
    have := ih m'
    rw [printMembers, List.length_append, List.length_cons]
    · simp only [List.length_append, ascii]
      simp
      omega
    · simp

theorem printMembers_cons (m : Bytes × Scalar) (ms : List (Bytes × Scalar)) :
    ∃ text, printMembers (m :: ms) = 34 :: text := by
  cases ms with
  | nil => exact ⟨_, rfl⟩
  | cons m' ms => exact ⟨_, rfl⟩

/-- Reading what was written. -/
theorem read_print (ms : List (Bytes × Scalar)) : read (print ms) = some ms := by
  cases ms with
  | nil => rfl
  | cons m ms =>
    show read (123 :: 32 :: printMembers (m :: ms)) = _
    rw [read]
    · exact readMembers_print m ms (length_lt_printMembers m ms)
    · intro h
      obtain ⟨text, ht⟩ := printMembers_cons m ms
      exact absurd (List.cons.inj (ht.symm.trans h)).1 (by decide)

/-! ## The text as a C string -/

theorem nul_not_mem_escape (b : Byte) : (0 : Byte) ∉ escape b := by
  have h : ∀ n < 256, (0 : Byte) ∉ escape (UInt8.ofNat n) := by decide +kernel
  simpa using h b.toNat b.toNat_lt

theorem nul_not_mem_quoted (s : Bytes) : (0 : Byte) ∉ quoted s := by
  simp [quoted, nul_not_mem_escape]

theorem nul_not_mem_printScalar (v : Scalar) : (0 : Byte) ∉ printScalar v := by
  cases v with
  | str s => exact nul_not_mem_quoted s
  | int i =>
    intro h
    exact absurd (isNumByte_of_mem_printD h) (by decide)

theorem nul_not_mem_printMember (m : Bytes × Scalar) : (0 : Byte) ∉ printMember m := by
  have h : (0 : Byte) ∉ ascii ": " := by decide
  simp [printMember, nul_not_mem_quoted, nul_not_mem_printScalar, h]

theorem nul_not_mem_print (ms : List (Bytes × Scalar)) : (0 : Byte) ∉ print ms := by
  have hmembers : (0 : Byte) ∉ printMembers ms := by
    fun_induction printMembers ms with
    | case1 => decide
    | case2 m =>
      rw [List.mem_append]
      exact fun h => h.elim (nul_not_mem_printMember m) (by decide)
    | case3 m ms _ ih =>
      rw [List.mem_append, List.mem_append]
      exact fun h => h.elim (fun h => h.elim (nul_not_mem_printMember m) (by decide)) ih
  rw [print, List.mem_append]
  exact fun h => h.elim (by decide) hmembers

end CmdAgent.JsonText
