import CmdAgent.Impl.Log

/-!
# The statements mean what they say

For a mac that stands for itself in a literal, each text `log.c` writes is read
back by the database as the statement it was meant to be, with the given mac,
descriptor and agent type in it (`parse_insertText` and the lemmas after it).
The fixed parts of a text are lexed by evaluation, from any state they can
start in; the literals between them are verbatim.

The second half is what the database then does, in terms of `lookup`.
-/

namespace CmdAgent

open SqlText

/-! ## Reading the texts back -/

section Lex

variable (toks : List Token) (s : Bytes)

/-- The end of a literal, a comma, and the start of the next. -/
theorem lex_comma : (ascii "', '").foldl Lex.step ⟨toks, .str s⟩ =
    ⟨toks ++ [.str s] ++ [.sym 44], .str []⟩ := rfl

theorem lex_close : (ascii "')").foldl Lex.step ⟨toks, .str s⟩ =
    ⟨toks ++ [.str s] ++ [.sym 41], .between⟩ := rfl

theorem lex_quote : (ascii "'").foldl Lex.step ⟨toks, .str s⟩ = ⟨toks, .quote s⟩ := rfl

theorem lex_agentType : (ascii "', agent_type = '").foldl Lex.step ⟨toks, .str s⟩ =
    ⟨toks ++ [.str s] ++ [.sym 44] ++ [.word (ascii "agent_type")] ++ [.sym 61], .str []⟩ := rfl

theorem lex_where : (ascii "' where mac = '").foldl Lex.step ⟨toks, .str s⟩ =
    ⟨toks ++ [.str s] ++ [.word (ascii "where")] ++ [.word (ascii "mac")] ++ [.sym 61], .str []⟩ := rfl

/-- The text of `select fd` up to its literal. -/
theorem lex_selectFd : (ascii "select fd from cmd_agent_session where mac = '").foldl Lex.step ⟨[], .between⟩ =
    ⟨[.word (ascii "select"), .word (ascii "fd"), .word (ascii "from"), .word (ascii "cmd_agent_session"),
      .word (ascii "where"), .word (ascii "mac"), .sym 61], .str []⟩ := rfl

end Lex

section Mac

variable {mac : Bytes} (hm : Verbatim mac)

include hm

theorem tokenize_insertText (fd : Int) (t : AgentType) :
    tokenize (insertText mac fd t) = some (fill insertShape [mac, printD fd, printD t.toInt]) := by
  have h₀ : (ascii "insert into cmd_agent_session (mac, fd, agent_type) values ('").foldl Lex.step
      ⟨[], .between⟩ = ⟨[.word (ascii "insert"), .word (ascii "into"), .word (ascii "cmd_agent_session"),
        .sym 40, .word (ascii "mac"), .sym 44, .word (ascii "fd"), .sym 44, .word (ascii "agent_type"),
        .sym 41, .word (ascii "values"), .sym 40], .str []⟩ := rfl
  simp only [tokenize, insertText, List.foldl_append, h₀, foldl_step_verbatim hm, lex_comma,
    foldl_step_verbatim (plain_printD _).verbatim, lex_close, Lex.finish, List.nil_append]
  rfl

theorem tokenize_updateText (fd : Int) (t : AgentType) :
    tokenize (updateText mac fd t) = some (fill updateShape [printD fd, printD t.toInt, mac]) := by
  have h₀ : (ascii "update cmd_agent_session set fd = '").foldl Lex.step ⟨[], .between⟩ =
      ⟨[.word (ascii "update"), .word (ascii "cmd_agent_session"), .word (ascii "set"), .word (ascii "fd"),
        .sym 61], .str []⟩ := rfl
  simp only [tokenize, updateText, List.foldl_append, h₀, foldl_step_verbatim hm, lex_agentType,
    foldl_step_verbatim (plain_printD _).verbatim, lex_where, lex_quote, Lex.finish, List.nil_append]
  rfl

theorem tokenize_selectFdText : tokenize (selectFdText mac) = some (fill selectFdShape [mac]) := by
  simp only [tokenize, selectFdText, List.foldl_append, lex_selectFd, foldl_step_verbatim hm, lex_quote,
    Lex.finish, List.nil_append]
  rfl

theorem tokenize_deleteMacText : tokenize (deleteMacText mac) = some (fill deleteMacShape [mac]) := by
  have h₀ : (ascii "delete from cmd_agent_session where mac='").foldl Lex.step ⟨[], .between⟩ =
      ⟨[.word (ascii "delete"), .word (ascii "from"), .word (ascii "cmd_agent_session"),
        .word (ascii "where"), .word (ascii "mac"), .sym 61], .str []⟩ := rfl
  simp only [tokenize, deleteMacText, List.foldl_append, h₀, foldl_step_verbatim hm, lex_quote,
    Lex.finish, List.nil_append]
  rfl

theorem parse_insertText {fd : Int} (hf : IsInt32 fd) (t : AgentType) :
    parseStatement (insertText mac fd t) = some (.insert ⟨mac, fd, t.toInt⟩) := by
  rw [parseStatement, tokenize_insertText hm]
  conv => rhs; rw [← atoi_printD hf, ← atoi_printD t.isInt32_toInt]
  rfl

theorem parse_updateText {fd : Int} (hf : IsInt32 fd) (t : AgentType) :
    parseStatement (updateText mac fd t) = some (.update ⟨mac, fd, t.toInt⟩) := by
  rw [parseStatement, tokenize_updateText hm]
  conv => rhs; rw [← atoi_printD hf, ← atoi_printD t.isInt32_toInt]
  rfl

theorem parse_selectFdText : parseStatement (selectFdText mac) = some (.selectFd mac) := by
  rw [parseStatement, tokenize_selectFdText hm]
  rfl

theorem parse_deleteMacText : parseStatement (deleteMacText mac) = some (.deleteMac mac) := by
  rw [parseStatement, tokenize_deleteMacText hm]
  rfl

end Mac

theorem parse_deleteFdText {fd : Int} (hf : IsInt32 fd) :
    parseStatement (deleteFdText fd) = some (.deleteFd fd) := by
  have h₀ : (ascii "delete from cmd_agent_session where fd='").foldl Lex.step ⟨[], .between⟩ =
      ⟨[.word (ascii "delete"), .word (ascii "from"), .word (ascii "cmd_agent_session"),
        .word (ascii "where"), .word (ascii "fd"), .sym 61], .str []⟩ := rfl
  simp only [parseStatement, tokenize, deleteFdText, List.foldl_append, h₀, foldl_step_verbatim (plain_printD _).verbatim,
    lex_quote, Lex.finish, Option.bind_some, List.nil_append]
  conv => rhs; rw [← atoi_printD hf]
  rfl

theorem parse_selectSessionText {fd : Int} (hf : IsInt32 fd) :
    parseStatement (selectSessionText fd) = some (.selectSession fd) := by
  have h₀ : (ascii "select agent_type from cmd_agent_session where fd = '").foldl Lex.step ⟨[], .between⟩ =
      ⟨[.word (ascii "select"), .word (ascii "agent_type"), .word (ascii "from"),
        .word (ascii "cmd_agent_session"), .word (ascii "where"), .word (ascii "fd"), .sym 61], .str []⟩ := rfl
  simp only [parseStatement, tokenize, selectSessionText, List.foldl_append, h₀,
    foldl_step_verbatim (plain_printD _).verbatim, lex_quote, Lex.finish, Option.bind_some, List.nil_append]
  conv => rhs; rw [← atoi_printD hf]
  rfl

/-! ## Texts that start with `select` -/

/-- A text that starts with `select` is one of the two `select` statements if
it is a statement at all, and changes no row. -/
theorem exec_of_select {toks : List Token} {st : Statement} {arrange : List Row → List Row} {t t' : Table}
    {rows : Option (List Bytes)} (h : statementOf (.word (ascii "select") :: toks) = some st)
    (he : st.exec arrange t = some (t', rows)) : t' = t := by
  obtain ⟨p, hp, hst⟩ := List.exists_of_findSome?_eq_some h
  have : ∀ {ps : List Place} {w : Bytes}, w ≠ ascii "select" →
      matchShape (.tok (.word w) :: ps) (.word (ascii "select") :: toks) = none := fun hw => by
    rw [matchShape, if_neg]
    exact fun e => hw (Token.word.inj e)
  simp only [statements, List.mem_cons, List.not_mem_nil, or_false] at hp
  rcases hp with rfl | rfl | rfl | rfl | rfl | rfl
  · rw [insertShape, word, this (by decide)] at hst; cases hst
  · rw [updateShape, word, this (by decide)] at hst; cases hst
  · rw [deleteMacShape, word, this (by decide)] at hst; cases hst
  · rw [deleteFdShape, word, this (by decide)] at hst; cases hst
  · obtain ⟨args, -, ha⟩ := Option.bind_eq_some_iff.mp hst
    dsimp only at ha
    split at ha <;> cases ha
    simp only [Statement.exec, Option.some.injEq, Prod.mk.injEq] at he
    exact he.1.symm
  · obtain ⟨args, -, ha⟩ := Option.bind_eq_some_iff.mp hst
    dsimp only at ha
    split at ha <;> cases ha
    simp only [Statement.exec, Option.some.injEq, Prod.mk.injEq] at he
    exact he.1.symm

/-! ## What the database does -/

section Query

variable (db : Database)

/-- A `select` changes no row, whatever mac is in its text. -/
theorem query_selectFdText (fate : Fate) (mac : Bytes) (t : Table) :
    (db.query fate (selectFdText mac) t).2 = t := by
  have hans : ∀ t' rows, db.answer (selectFdText mac) t = some (t', rows) → t' = t := by
    intro t' rows h
    unfold Database.answer at h
    split at h
    · rename_i st hst
      obtain ⟨toks, htoks, hst⟩ := Option.bind_eq_some_iff.mp hst
      have hpre : [Token.word (ascii "select")] <+: toks := by
        refine List.IsPrefix.trans ?_ (toks_prefix_finish htoks)
        rw [selectFdText, List.append_assoc, List.foldl_append]
        refine List.IsPrefix.trans ?_ (toks_prefix_foldl _ _)
        exact ⟨_, rfl⟩
      obtain ⟨toks', rfl⟩ := hpre
      exact exec_of_select hst h
    · refine db.other_select ?_ h
      exact ⟨ascii "fd from cmd_agent_session where mac = '" ++ mac ++ ascii "'", by
        rw [selectFdText, ← List.append_assoc, ← List.append_assoc]; rfl⟩
  unfold Database.query
  split
  · rfl
  · split
    · rfl
    · rename_i h; exact hans _ _ h

/-- The reply to `select fd` for such a mac: the descriptor of its row. -/
theorem firstRow_selectFd {mac : Bytes} (hm : Verbatim mac) (fate : Fate) (t : Table) :
    (fate = .answered → firstRow (db.query fate (selectFdText mac) t).1 =
      match t.lookup mac with
      | some row => atoi (printD row.fd)
      | none => -5) ∧
    (fate ≠ .answered → firstRow (db.query fate (selectFdText mac) t).1 < 0) := by
  have hans : db.answer (selectFdText mac) t =
      some (t, some ((t.lookup mac).toList.map fun r => printD r.fd)) := by
    rw [Database.answer, parse_selectFdText hm]
    simp only [Statement.exec, KeyedTable.rowsFor_eq]
    congr 4
    rcases t.lookup mac with _ | row
    · exact List.perm_nil.mp (db.arrange_perm [])
    · exact List.perm_singleton.mp (db.arrange_perm [row])
  unfold Database.query
  rw [hans]
  cases fate with
  | answered =>
    refine ⟨fun _ => ?_, fun h => absurd rfl h⟩
    cases t.lookup mac <;> rfl
  | failed => exact ⟨fun h => (by cases h), fun _ => show (-3 : Int) < 0 by decide⟩
  | resultLost => exact ⟨fun h => (by cases h), fun _ => show (-4 : Int) < 0 by decide⟩

/-- The reply to `select agent_type`: some row with the descriptor comes
first. -/
theorem query_selectSession {fd : Int} (hf : IsInt32 fd) (t : Table) :
    db.query .answered (selectSessionText fd) t =
      (.done (some ((db.arrange (t.rows.filter (·.fd = fd))).map (printD ·.agentType))), t) := by
  unfold Database.query Database.answer
  rw [parse_selectSessionText hf]
  rfl

theorem query_deleteFd {fd : Int} (hf : IsInt32 fd) {fate : Fate} (h : fate ≠ .failed) (t : Table) :
    (db.query fate (deleteFdText fd) t).2 = t.deleteWhere (·.fd = fd) := by
  unfold Database.query Database.answer
  rw [parse_deleteFdText hf, if_neg h]
  rfl

theorem query_insert {row : Row} {text : Bytes} (hp : parseStatement text = some (.insert row)) (fate : Fate)
    (t : Table) :
    (fate ≠ .failed ∧ t.lookup row.mac = none ∧ ∃ r, db.query fate text t = (.done r, t.put row)) ∨
      ((fate = .failed ∨ t.lookup row.mac ≠ none) ∧ db.query fate text t = (.failed, t)) := by
  unfold Database.query Database.answer
  rw [hp]
  by_cases hf : fate = .failed
  · exact .inr ⟨.inl hf, by rw [if_pos hf]⟩
  by_cases hl : t.lookup row.mac = none
  · exact .inl ⟨hf, hl, none, by simp [Statement.exec, KeyedTable.put, hf, hl]⟩
  · exact .inr ⟨.inr hl, by simp [Statement.exec, hf, hl]⟩

theorem query_update {row : Row} {text : Bytes} (hp : parseStatement text = some (.update row)) (fate : Fate)
    (t : Table) :
    (fate ≠ .failed ∧ ∃ r, db.query fate text t = (.done r, t.replace row)) ∨
      (fate = .failed ∧ db.query fate text t = (.failed, t)) := by
  unfold Database.query Database.answer
  rw [hp]
  by_cases hf : fate = .failed
  · exact .inr ⟨hf, by rw [if_pos hf]⟩
  · exact .inl ⟨hf, none, by simp [Statement.exec, hf]⟩

end Query

end CmdAgent
