import CmdAgent.Framework.Text

/-!
# The text of SQL statements

How MySQL splits the text of a statement into tokens: words, symbols and
single-quoted strings, in which a doubled quote stands for a quote and a
backslash escapes the byte after it (`Lex.step`, one byte at a time). A
statement is recognised by the shape of its tokens, with string literals in
the open places of the shape (`matchShape`).

A string literal decodes to its own bytes if it holds no quotes, and no
backslashes but those that escape a `%` or a `_`, whatever stands around it
(`foldl_step_verbatim`); any other literal decodes to less or does not end
where it should (`verbatim_of_closed`).
-/

namespace CmdAgent.SqlText

inductive Token where
  | word (w : Bytes)
  | sym (b : Byte)
  | str (s : Bytes)
  deriving DecidableEq, Repr

/-- Where the lexer is: between tokens, in a word, in a string literal, after
a backslash in it, or after a quote in it, which ends the literal unless a
second quote follows. -/
inductive Mode where
  | between
  | word (w : Bytes)
  | str (s : Bytes)
  | escape (s : Bytes)
  | quote (s : Bytes)
  deriving DecidableEq, Repr

structure Lex where
  toks : List Token
  mode : Mode
  deriving DecidableEq, Repr

def isWordByte (b : Byte) : Bool :=
  isDigit b || b.toNat == 95 || (65 ≤ b.toNat && b.toNat ≤ 90) || (97 ≤ b.toNat && b.toNat ≤ 122)

/-- What a backslash and `b` stand for in a string literal: `\%` and `\_`
keep their backslash, and a byte with no meaning of its own stands for
itself. -/
def unescape (b : Byte) : Bytes :=
  if b = 48 then [0]
  else if b = 98 then [8]
  else if b = 110 then [10]
  else if b = 114 then [13]
  else if b = 116 then [9]
  else if b = 90 then [26]
  else if b = 37 ∨ b = 95 then [92, b]
  else [b]

/-- A byte that starts a token, or separates two. -/
def Lex.start (toks : List Token) (b : Byte) : Lex :=
  if b = 39 then ⟨toks, .str []⟩
  else if isWordByte b then ⟨toks, .word [b]⟩
  else if isSpace b then ⟨toks, .between⟩
  else ⟨toks ++ [.sym b], .between⟩

def Lex.step (l : Lex) (b : Byte) : Lex :=
  match l.mode with
  | .between => Lex.start l.toks b
  | .word w => if isWordByte b then ⟨l.toks, .word (w ++ [b])⟩ else Lex.start (l.toks ++ [.word w]) b
  | .str s =>
    if b = 39 then ⟨l.toks, .quote s⟩
    else if b = 92 then ⟨l.toks, .escape s⟩
    else ⟨l.toks, .str (s ++ [b])⟩
  | .escape s => ⟨l.toks, .str (s ++ unescape b)⟩
  | .quote s => if b = 39 then ⟨l.toks, .str (s ++ [39])⟩ else Lex.start (l.toks ++ [.str s]) b

/-- The tokens at the end of the text, unless it ends within a string. -/
def Lex.finish (l : Lex) : Option (List Token) :=
  match l.mode with
  | .between => some l.toks
  | .word w => some (l.toks ++ [.word w])
  | .quote s => some (l.toks ++ [.str s])
  | .str _ | .escape _ => none

def tokenize (text : Bytes) : Option (List Token) := (text.foldl Lex.step ⟨[], .between⟩).finish

/-- A place in the shape of a statement: a fixed token, or a string literal. -/
inductive Place where
  | tok (t : Token)
  | arg
  deriving DecidableEq, Repr

/-- The string literals of a statement of the given shape. -/
def matchShape : List Place → List Token → Option (List Bytes)
  | [], [] => some []
  | .tok t :: ps, t' :: ts => if t = t' then matchShape ps ts else none
  | .arg :: ps, .str s :: ts => (matchShape ps ts).map (s :: ·)
  | _, _ => none

/-- The tokens of a statement with the given shape and literals. -/
def fill : List Place → List Bytes → List Token
  | .tok t :: ps, args => t :: fill ps args
  | .arg :: ps, s :: args => .str s :: fill ps args
  | _, _ => []

theorem eq_fill_of_matchShape {ps : List Place} {toks : List Token} {args : List Bytes}
    (h : matchShape ps toks = some args) : toks = fill ps args := by
  fun_induction matchShape ps toks generalizing args with
  | case1 => rfl
  | case2 t ps ts ih => rw [fill, ← ih h]
  | case3 t ps t' ts hne => cases h
  | case4 ps s ts ih =>
    obtain ⟨args, hm, rfl⟩ := Option.map_eq_some_iff.mp h
    rw [fill, ← ih hm]
  | case5 => cases h

theorem matchShape_fill {ps : List Place} {args : List Bytes} (h : ps.count .arg = args.length) :
    matchShape ps (fill ps args) = some args := by
  induction ps generalizing args with
  | nil =>
    obtain rfl := List.length_eq_zero_iff.mp h.symm
    rfl
  | cons p ps ih =>
    cases p with
    | tok t =>
      rw [List.count_cons_of_ne (by simp)] at h
      rw [fill, matchShape, if_pos rfl, ih h]
    | arg =>
      rw [List.count_cons_self] at h
      obtain ⟨s, args, rfl⟩ := List.exists_cons_of_length_eq_add_one h.symm
      rw [fill, matchShape, ih (Nat.succ.inj h)]
      rfl

/-! ## Literals that stand for themselves -/

/-- No quote and no backslash: the bytes stand for themselves in a literal. -/
def Plain (s : Bytes) : Prop := ∀ b ∈ s, b ≠ 39 ∧ b ≠ 92

instance (s : Bytes) : Decidable (Plain s) := inferInstanceAs (Decidable (∀ _ ∈ _, _))

/-- No quote, and after each backslash one of the two bytes with which it is
kept. -/
def Verbatim : Bytes → Prop
  | [] => True
  | 92 :: b :: s => (b = 37 ∨ b = 95) ∧ Verbatim s
  | b :: s => b ≠ 39 ∧ b ≠ 92 ∧ Verbatim s

theorem verbatim_cons {b : Byte} (h : b ≠ 92) (s : Bytes) : Verbatim (b :: s) ↔ b ≠ 39 ∧ Verbatim s := by
  rw [Verbatim]
  · simp [h]
  · intro _ _ e
    exact absurd e h

theorem Plain.verbatim {s : Bytes} (h : Plain s) : Verbatim s := by
  induction s with
  | nil => trivial
  | cons b s ih =>
    obtain ⟨h₁, h₂⟩ := h b (List.mem_cons_self ..)
    exact (verbatim_cons h₂ s).mpr ⟨h₁, ih fun c hc => h c (List.mem_cons_of_mem _ hc)⟩

theorem step_plain {b : Byte} (h : b ≠ 39 ∧ b ≠ 92) (toks : List Token) (s : Bytes) :
    Lex.step ⟨toks, .str s⟩ b = ⟨toks, .str (s ++ [b])⟩ := by
  simp only [Lex.step, h.1, h.2, if_false]

/-- A backslash and the byte after it. -/
theorem step_escape (toks : List Token) (s : Bytes) (b : Byte) :
    (Lex.step ⟨toks, .str s⟩ 92).step b = ⟨toks, .str (s ++ unescape b)⟩ := rfl

theorem unescape_kept {b : Byte} (h : b = 37 ∨ b = 95) : unescape b = [92, b] := by
  rcases h with rfl | rfl <;> rfl

/-- These bytes in a string literal are read as themselves. -/
theorem foldl_step_verbatim {s : Bytes} (h : Verbatim s) (toks : List Token) (r : Bytes) :
    s.foldl Lex.step ⟨toks, .str r⟩ = ⟨toks, .str (r ++ s)⟩ := by
  fun_induction Verbatim s generalizing r with
  | case1 => simp
  | case2 b s ih =>
    obtain ⟨hb, hs⟩ := h
    rw [List.foldl_cons, List.foldl_cons, step_escape, unescape_kept hb, ih hs, List.append_assoc]
    rfl
  | case3 b s _ ih =>
    obtain ⟨h₁, h₂, hs⟩ := h
    rw [List.foldl_cons, step_plain ⟨h₁, h₂⟩, ih hs, List.append_assoc]
    rfl

/-! ## Literals that do not -/

theorem length_unescape_le (b : Byte) : (unescape b).length ≤ 2 := by
  unfold unescape
  repeat' split
  all_goals simp

theorem length_unescape {b : Byte} (h : ¬ (b = 37 ∨ b = 95)) : (unescape b).length = 1 := by
  unfold unescape
  repeat' split
  all_goals rfl

/-- The bytes of the literal that are read so far, with a backslash or a quote
that is pending. -/
def Mode.read : Mode → Nat
  | .str s => s.length
  | .escape s => s.length + 1
  | .quote s => s.length + 1
  | .between | .word _ => 0

/-- In a literal. -/
def Mode.InLiteral : Mode → Prop
  | .str _ | .escape _ | .quote _ => True
  | .between | .word _ => False

theorem toks_prefix_start (toks : List Token) (b : Byte) : toks <+: (Lex.start toks b).toks := by
  unfold Lex.start
  split
  · exact List.prefix_rfl
  split
  · exact List.prefix_rfl
  split
  · exact List.prefix_rfl
  · exact List.prefix_append ..

/-- The lexer takes back no token. -/
theorem toks_prefix_step (l : Lex) (b : Byte) : l.toks <+: (l.step b).toks := by
  obtain ⟨toks, mode⟩ := l
  cases mode <;> simp only [Lex.step]
  · exact toks_prefix_start ..
  · split
    · exact List.prefix_rfl
    · exact (List.prefix_append ..).trans (toks_prefix_start ..)
  · split
    · exact List.prefix_rfl
    · split <;> exact List.prefix_rfl
  · exact List.prefix_rfl
  · split
    · exact List.prefix_rfl
    · exact (List.prefix_append ..).trans (toks_prefix_start ..)

theorem toks_prefix_foldl (text : Bytes) (l : Lex) : l.toks <+: (text.foldl Lex.step l).toks := by
  induction text generalizing l with
  | nil => exact List.prefix_rfl
  | cons b text ih => exact (toks_prefix_step l b).trans (ih _)

theorem toks_prefix_finish {l : Lex} {toks : List Token} (h : l.finish = some toks) : l.toks <+: toks := by
  obtain ⟨ts, mode⟩ := l
  cases mode <;> simp only [Lex.finish, Option.some.injEq, reduceCtorEq] at h
  all_goals subst h
  · exact List.prefix_rfl
  · exact List.prefix_append ..
  · exact List.prefix_append ..

/-- Tokens that are there stay there to the end of the text. -/
theorem toks_prefix_end {text : Bytes} {l : Lex} {toks : List Token}
    (h : (text.foldl Lex.step l).finish = some toks) : l.toks <+: toks :=
  (toks_prefix_foldl text l).trans (toks_prefix_finish h)

/-- The token after `toks` is determined. -/
theorem str_unique {toks ts : List Token} {s s' : Bytes} (h : toks ++ [.str s] <+: ts)
    (h' : toks ++ [.str s'] <+: ts) : s = s' := by
  have heq := (List.prefix_of_prefix_length_le h h' (by simp)).eq_of_length (by simp)
  simpa using heq

/-- A byte of the text adds at most one byte to a literal, and its closing
quote adds none. -/
theorem length_literal_lt (text : Bytes) (mode : Mode) {toks ts : List Token} {s : Bytes}
    (hm : mode.InLiteral) (h : (text.foldl Lex.step ⟨toks, mode⟩).finish = some ts)
    (hs : toks ++ [.str s] <+: ts) : s.length < mode.read + text.length := by
  induction text generalizing mode with
  | nil =>
    cases mode with
    | quote r =>
      obtain rfl := Option.some.inj h
      rw [str_unique hs List.prefix_rfl]
      exact Nat.lt_succ_self _
    | str r => cases h
    | escape r => cases h
    | between => exact hm.elim
    | word w => exact hm.elim
  | cons b text ih =>
    rw [List.foldl_cons] at h
    rw [List.length_cons]
    cases mode with
    | between => exact hm.elim
    | word w => exact hm.elim
    | str r =>
      by_cases hq : b = 39
      · subst hq
        have := ih (.quote r) trivial h
        simp only [Mode.read] at this ⊢
        omega
      by_cases he : b = 92
      · subst he
        have := ih (.escape r) trivial h
        simp only [Mode.read] at this ⊢
        omega
      · rw [step_plain ⟨hq, he⟩] at h
        have := ih (.str (r ++ [b])) trivial h
        simp only [Mode.read, List.length_append, List.length_singleton] at this ⊢
        omega
    | escape r =>
      have := ih (.str (r ++ unescape b)) trivial h
      have hlen := length_unescape_le b
      simp only [Mode.read, List.length_append] at this ⊢
      omega
    | quote r =>
      by_cases hq : b = 39
      · subst hq
        have := ih (.str (r ++ [39])) trivial h
        simp only [Mode.read, List.length_append, List.length_singleton] at this ⊢
        omega
      · -- the literal has ended
        have hstep : Lex.step ⟨toks, .quote r⟩ b = Lex.start (toks ++ [.str r]) b := if_neg hq
        rw [hstep] at h
        have hr : toks ++ [.str r] <+: ts := (toks_prefix_start _ _).trans (toks_prefix_end h)
        rw [str_unique hs hr]
        simp only [Mode.read]
        omega

/-- A literal that ends with the quote put after it, and decodes to its own
bytes. -/
theorem verbatim_of_closed {s : Bytes} {toks : List Token} {r : Bytes}
    (h : ((s ++ [39]).foldl Lex.step ⟨toks, .str r⟩).finish = some (toks ++ [.str (r ++ s)])) : Verbatim s := by
  fun_induction Verbatim s generalizing r with
  | case1 => trivial
  | case2 b s ih =>
    rw [List.cons_append, List.cons_append, List.foldl_cons, List.foldl_cons, step_escape] at h
    by_cases hb : b = 37 ∨ b = 95
    · rw [unescape_kept hb] at h
      exact ⟨hb, ih (by rw [h, List.append_assoc]; rfl)⟩
    · -- two bytes of the text give one of the literal
      have hlen := length_literal_lt _ (.str (r ++ unescape b)) trivial h List.prefix_rfl
      simp only [Mode.read, List.length_append, length_unescape hb, List.length_cons, List.length_nil] at hlen
      omega
  | case3 b s hne ih =>
    rw [List.cons_append, List.foldl_cons] at h
    by_cases hq : b = 39
    · subst hq
      cases s with
      | nil => cases h
      | cons c s =>
        by_cases hc : c = 39
        · subst hc
          have hlen := length_literal_lt (s ++ [39]) (.str (r ++ [39])) trivial h List.prefix_rfl
          simp only [Mode.read, List.length_append, List.length_cons, List.length_nil] at hlen
          omega
        · -- the literal has ended before its last byte
          have hstep : (Lex.step ⟨toks, .str r⟩ 39).step c = Lex.start (toks ++ [.str r]) c := if_neg hc
          rw [List.cons_append, List.foldl_cons, hstep] at h
          have hr : toks ++ [.str r] <+: toks ++ [.str (r ++ 39 :: c :: s)] :=
            (toks_prefix_start _ _).trans (toks_prefix_end h)
          have hlen := congrArg List.length (str_unique hr List.prefix_rfl)
          simp only [List.length_append, List.length_cons] at hlen
          omega
    by_cases he : b = 92
    · subst he
      cases s with
      | nil => cases h
      | cons c s => exact (hne c s rfl rfl).elim
    · rw [step_plain ⟨hq, he⟩] at h
      exact ⟨hq, he, ih (by rw [h, List.append_assoc]; rfl)⟩

/-- Decimals are plain. -/
theorem plain_printD (i : Int) : Plain (printD i) := fun b hb => by
  rcases mem_printD hb with rfl | h
  · decide
  · refine ⟨?_, ?_⟩ <;> rintro rfl <;> exact absurd h (by decide)

end CmdAgent.SqlText
