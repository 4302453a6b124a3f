import CmdAgent.Proof.SessionTable
import CmdAgent.Proof.Log
import CmdAgent.Framework.Calls

/-!
# `log.c` as a map

The functions of `log.c` keep a map from macs to descriptors and agent types.
`LogCall.Spec` says of each what it returns and what it does to the map,
whichever of its queries fail: the error codes tell a query that failed, a
result that was lost and a row that is not there apart, a failed call leaves
the map alone, and a registration whose insertion failed is a registration
only if the mac was there before.

Every sequence of calls, with macs that stand for themselves between quotes
and texts that fit their buffers, does what this map does (`log_is_map`).
`mysql_update_log` is one of the calls, and its text is no statement whatever
the mac is, so that it only ever fails.
-/

namespace CmdAgent

open SqlText

variable {db : Database} {ans : Answers} {s : State}

/-! ## The map -/

/-- The descriptor and the agent type of each mac. -/
abbrev Sessions := Bytes → Option (Int × AgentType)

/-- A call of a function of `log.c`. -/
inductive LogCall where
  | insertFd (mac : Bytes) (fd : Int) (agentType : AgentType)
  | selectFd (mac : Bytes)
  | deleteMac (mac : Bytes)
  | deleteFd (fd : Int)
  | selectSession (fd : Int)
  | updateLog (sequence : Int) (mac : Bytes) (status : Int)

namespace LogCall

def run (db : Database) (ans : Answers) : LogCall → Proc Int
  | .insertFd mac fd t => mysqlInsertFd db ans (.str mac) fd t
  | .selectFd mac => mysqlSelectFd db ans (.str mac)
  | .deleteMac mac => mysqlDeleteMac db ans (.str mac)
  | .deleteFd fd => mysqlDeleteFd db ans fd
  | .selectSession fd => mysqlSelectSession db ans fd
  | .updateLog sequence mac status => mysqlUpdateLog db ans sequence (.str mac) status

/-- What a `select` returns that finds a number, or none. -/
def coded (fate : Fate) (found : Option Int) : Int :=
  match fate with
  | .answered => found.getD (-5)
  | .resultLost => -4
  | .failed => -3

/-- What a call may return and make of the map. -/
def Spec (ans : Answers) (σ : Sessions) : LogCall → Int → Sessions → Prop
  | .insertFd mac fd t, ret, σ' =>
    if ans.insert ≠ .failed ∧ σ mac = none then ret = fd ∧ σ' = Function.update σ mac (some (fd, t))
    else if ans.update ≠ .failed then ret = fd ∧ σ' = Function.update σ mac ((σ mac).map fun _ => (fd, t))
    else ret = -2 ∧ σ' = σ
  | .selectFd mac, ret, σ' => ret = coded ans.select ((σ mac).map Prod.fst) ∧ σ' = σ
  | .deleteMac mac, ret, σ' =>
    if ans.delete ≠ .failed then ret = 0 ∧ σ' = Function.update σ mac none else ret = -2 ∧ σ' = σ
  | .deleteFd fd, ret, σ' =>
    if ans.delete ≠ .failed then ret = 0 ∧ σ' = fun k => (σ k).filter (·.1 ≠ fd) else ret = -2 ∧ σ' = σ
  | .selectSession fd, ret, σ' =>
    σ' = σ ∧ ((∃ k t, σ k = some (fd, t) ∧ ret = coded ans.select (some t.toInt)) ∨
      (∀ k t, σ k ≠ some (fd, t)) ∧ ret = coded ans.select none)
  | .updateLog _ _ _, ret, σ' => ret = -2 ∧ σ' = σ

/-- The arguments fit: the mac stands for itself between quotes, the text fits
its buffer and the descriptor is an `int`. -/
def Fitting : LogCall → Prop
  | .insertFd mac fd t => Verbatim mac ∧ Fits mac fd t ∧ IsInt32 fd
  | .selectFd mac => Verbatim mac ∧ (selectFdText mac).length + 1 ≤ QUERY_LEN
  | .deleteMac mac => Verbatim mac ∧ (deleteMacText mac).length + 1 ≤ QUERY_LEN
  | .deleteFd fd | .selectSession fd => IsInt32 fd
  | .updateLog sequence mac status => (updateLogText sequence mac status).length + 1 ≤ QUERY_LEN

end LogCall

/-- The table holds the rows of the map. -/
structure Represents (s : State) (σ : Sessions) : Prop where
  rows : ∀ k, s.table.lookup k = (σ k).map fun p => ⟨k, p.1, p.2.toInt⟩
  fds : ∀ k p, σ k = some p → IsInt32 p.1

section Represents

variable {s' : State} {σ : Sessions}

theorem Represents.congr (h : Represents s σ) (ht : s'.table = s.table) : Represents s' σ := by
  refine ⟨fun k => ?_, h.fds⟩
  rw [ht]
  exact h.rows k

theorem Represents.lookup_none (h : Represents s σ) (k : Bytes) : s.table.lookup k = none ↔ σ k = none := by
  rw [h.rows, Option.map_eq_none_iff]

/-- The row of `mac` is put. -/
theorem Represents.put (h : Represents s σ) {mac : Bytes} {fd : Int} (hf : IsInt32 fd) {t : AgentType}
    (ht : ∀ k, s'.table.lookup k = if mac = k then some ⟨mac, fd, t.toInt⟩ else s.table.lookup k) :
    Represents s' (Function.update σ mac (some (fd, t))) := by
  refine ⟨fun k => ?_, fun k p hp => ?_⟩
  · rw [ht]
    by_cases hk : mac = k
    · subst hk
      simp
    · rw [if_neg hk, Function.update_of_ne (Ne.symm hk)]
      exact h.rows k
  · by_cases hk : k = mac
    · subst hk
      rw [Function.update_self, Option.some.injEq] at hp
      rw [← hp]
      exact hf
    · rw [Function.update_of_ne hk] at hp
      exact h.fds k p hp

/-- The rows that `p` picks are deleted. -/
theorem Represents.deleteWhere (h : Represents s σ) {p : Row → Bool} (ht : s'.table = s.table.deleteWhere p)
    {q : Bytes → Int × AgentType → Bool} (hq : ∀ k v, q k v = !p ⟨k, v.1, v.2.toInt⟩) :
    Represents s' fun k => (σ k).filter (q k) := by
  refine ⟨fun k => ?_, fun k v hv => ?_⟩
  · rw [ht, KeyedTable.lookup_deleteWhere, h.rows]
    rcases σ k with _ | v
    · rfl
    · simp only [Option.map_some, Option.filter_some, hq]
      split <;> rfl
  · exact h.fds k v (Option.filter_eq_some_iff.mp hv).1

end Represents

/-! ## The calls -/

/-- A call, with the answers its queries get. -/
def LogCall.Does (db : Database) (ans : Answers) (c : LogCall) (s : State) (σ : Sessions) : Prop :=
  ∃ ret s' σ', c.run db ans s = .ok ret s' ∧ c.Spec ans σ ret σ' ∧ Represents s' σ'

section Calls

variable {σ : Sessions} {mac : Bytes} {fd : Int} {t : AgentType}

theorem insertFd_does (h : Represents s σ) (hm : Verbatim mac) (hfit : Fits mac fd t) (hf : IsInt32 fd) :
    (LogCall.insertFd mac fd t).Does db ans s σ := by
  have hrun := mysqlInsertFd_run db ans hfit s
  rcases insertQueries_cases db ans hm hf t s.table with
    ⟨hi, hl, hret, htbl⟩ | ⟨hwhy, hu, hret, htbl⟩ | ⟨hwhy, hu, hret, htbl⟩
  · refine ⟨_, _, Function.update σ mac (some (fd, t)), hrun, ?_, h.put hf fun k => ?_⟩
    · rw [LogCall.Spec, if_pos ⟨hi, (h.lookup_none mac).mp hl⟩]
      exact ⟨hret, rfl⟩
    · show (insertTable db ans mac fd t s.table).lookup k = _
      rw [htbl, KeyedTable.lookup_put]
  · refine ⟨_, _, Function.update σ mac ((σ mac).map fun _ => (fd, t)), hrun, ?_, ?_⟩
    · rw [LogCall.Spec, if_neg fun hc => hwhy.elim hc.1 fun hl => hl ((h.lookup_none mac).mpr hc.2), if_pos hu]
      exact ⟨hret, rfl⟩
    rcases hl : σ mac with _ | p
    · -- the update finds no row
      have hnone := (h.lookup_none mac).mpr hl
      have hself : Function.update σ mac ((none : Option (Int × AgentType)).map fun _ => (fd, t)) = σ := by
        rw [Option.map_none, ← hl, Function.update_eq_self]
      rw [hself]
      refine ⟨fun k => ?_, h.fds⟩
      show (insertTable db ans mac fd t s.table).lookup k = _
      rw [htbl, ← h.rows k]
      exact sameRows_replace hnone k
    · refine h.put hf fun k => ?_
      show (insertTable db ans mac fd t s.table).lookup k = _
      have hsome : s.table.lookup mac ≠ none := fun hn => by
        rw [(h.lookup_none mac).mp hn] at hl
        cases hl
      have hsame : SameRows (s.table.put ⟨mac, fd, t.toInt⟩) (s.table.replace ⟨mac, fd, t.toInt⟩) :=
        sameRows_put_replace hsome
      rw [htbl, hsame k, KeyedTable.lookup_put]
  · refine ⟨_, _, σ, hrun, ?_, h.congr htbl⟩
    rw [LogCall.Spec, if_neg fun hc => hwhy.elim hc.1 fun hl => hl ((h.lookup_none mac).mpr hc.2),
      if_neg (not_not.mpr hu)]
    exact ⟨hret, rfl⟩

/-- The reply to a `select` that the database answers with the given rows. -/
theorem firstRow_select {text : Bytes} {tbl : Table} {rows : List Bytes}
    (h : db.answer text tbl = some (tbl, some rows)) (fate : Fate) :
    firstRow (db.query fate text tbl).1 = LogCall.coded fate (rows.head?.map atoi) ∧ (db.query fate text tbl).2 = tbl := by
  unfold Database.query
  rw [h]
  cases fate with
  | answered => cases rows <;> exact ⟨rfl, rfl⟩
  | failed => exact ⟨rfl, rfl⟩
  | resultLost => exact ⟨rfl, rfl⟩

theorem selectFd_does (h : Represents s σ) (hm : Verbatim mac) (hfit : (selectFdText mac).length + 1 ≤ QUERY_LEN) :
    (LogCall.selectFd mac).Does db ans s σ := by
  have hans : db.answer (selectFdText mac) s.table =
      some (s.table, some ((s.table.lookup mac).toList.map fun r => printD r.fd)) := by
    rw [Database.answer, parse_selectFdText hm]
    simp only [Statement.exec, KeyedTable.rowsFor_eq]
    congr 4
    rcases s.table.lookup mac with _ | row
    · exact List.perm_nil.mp (db.arrange_perm [])
    · exact List.perm_singleton.mp (db.arrange_perm [row])
  refine ⟨_, _, σ, mysqlSelectFd_run db ans s hfit, ⟨?_, rfl⟩, h.congr rfl⟩
  rw [found, (firstRow_select hans ans.select).1, h.rows]
  rcases hl : σ mac with _ | p
  · rfl
  · have hatoi : atoi (printD p.1) = p.1 := atoi_printD (h.fds mac p hl)
    simp [hatoi]

/-- The rows of a descriptor, in the table and in the map. -/
theorem Represents.mem_rows (h : Represents s σ) {row : Row} (hr : row ∈ s.table.rows) :
    ∃ t, σ row.mac = some (row.fd, t) ∧ row.agentType = t.toInt := by
  have hl := KeyedTable.mem_rows_iff.mp hr
  rw [h.rows] at hl
  obtain ⟨⟨f, t⟩, hp, hrow⟩ := Option.map_eq_some_iff.mp hl
  refine ⟨t, ?_, ?_⟩
  · rw [hp, ← hrow]
  · rw [← hrow]

theorem selectSession_does (h : Represents s σ) (hf : IsInt32 fd) : (LogCall.selectSession fd).Does db ans s σ := by
  have hans : db.answer (selectSessionText fd) s.table =
      some (s.table, some ((db.arrange (s.table.rows.filter (·.fd = fd))).map (printD ·.agentType))) := by
    rw [Database.answer, parse_selectSessionText hf]
    rfl
  have hfit : (selectSessionText fd).length + 1 ≤ QUERY_LEN := by
    have hlen := length_printD_le hf
    have h₁ : (ascii "select agent_type from cmd_agent_session where fd = '").length = 53 := rfl
    have h₂ : (ascii "'").length = 1 := rfl
    simp only [selectSessionText, List.length_append, h₁, h₂, QUERY_LEN]
    omega
  obtain ⟨hfirst, htable⟩ := firstRow_select hans ans.select
  have hrun : mysqlSelectSession db ans fd s = .ok (firstRow (db.query ans.select (selectSessionText fd) s.table).1)
      { s with
        table := (db.query ans.select (selectSessionText fd) s.table).2
        trace := .query (selectSessionText fd) :: s.trace } := by
    rw [mysqlSelectSession, bind_run (sprintf_run hfit s), bind_run (mysqlQuery_run ..)]
    rfl
  refine ⟨_, _, σ, hrun, ⟨rfl, ?_⟩, h.congr htable⟩
  rw [hfirst]
  -- the first of the rows with the descriptor, in the order of the database
  have hperm := db.arrange_perm (s.table.rows.filter (·.fd = fd))
  rcases hrows : db.arrange (s.table.rows.filter (·.fd = fd)) with _ | ⟨row, rest⟩
  · rw [hrows] at hperm
    refine .inr ⟨fun k t hk => ?_, rfl⟩
    have hmem : (⟨k, fd, t.toInt⟩ : Row) ∈ s.table.rows := by
      refine KeyedTable.mem_rows_iff.mpr ?_
      show s.table.lookup k = _
      rw [h.rows, hk]
      rfl
    have hnil := List.filter_eq_nil_iff.mp (List.nil_perm.mp hperm) _ hmem
    simp at hnil
  · have hrow : row ∈ s.table.rows.filter (·.fd = fd) := hperm.mem_iff.mp (by rw [hrows]; exact List.mem_cons_self ..)
    obtain ⟨hmem, hfd⟩ := List.mem_filter.mp hrow
    obtain ⟨t, hk, ht⟩ := h.mem_rows hmem
    rw [of_decide_eq_true hfd] at hk
    refine .inl ⟨row.mac, t, hk, ?_⟩
    have hatoi : atoi (printD t.toInt) = t.toInt := atoi_printD t.isInt32_toInt
    simp [ht, hatoi]

/-- The two deletions. -/
theorem mysqlDelete_run (ans : Answers) {text : Bytes} (hfit : text.length + 1 ≤ QUERY_LEN) {tbl : Table}
    (hans : db.answer text s.table = some (tbl, none)) :
    ∃ tr, mysqlDelete db ans text s = .ok (if ans.delete ≠ .failed then 0 else -2)
      { s with table := if ans.delete ≠ .failed then tbl else s.table, trace := tr } := by
  unfold mysqlDelete
  rw [bind_run (sprintf_run hfit s), bind_run (mysqlQuery_run ..)]
  by_cases hd : ans.delete = .failed
  · simp only [Database.query, hd, if_true, ne_eq, not_true, if_false]
    exact ⟨_, rfl⟩
  · simp only [Database.query, hd, hans, ne_eq, not_false_eq_true, if_true, if_false]
    exact ⟨_, rfl⟩

theorem deleteMac_does (h : Represents s σ) (hm : Verbatim mac) (hfit : (deleteMacText mac).length + 1 ≤ QUERY_LEN) :
    (LogCall.deleteMac mac).Does db ans s σ := by
  have hans : db.answer (deleteMacText mac) s.table = some (s.table.deleteWhere (·.mac = mac), none) := by
    rw [Database.answer, parse_deleteMacText hm]
    rfl
  obtain ⟨tr, hrun⟩ := mysqlDelete_run ans hfit hans
  have hrun' : mysqlDeleteMac db ans (.str mac) s = _ := (bind_run (readStr_run ..)).trans hrun
  by_cases hd : ans.delete = .failed
  · refine ⟨_, _, σ, hrun', ?_, h.congr (if_neg (not_not.mpr hd))⟩
    rw [LogCall.Spec, if_neg (not_not.mpr hd), if_neg (not_not.mpr hd)]
    exact ⟨rfl, rfl⟩
  · have hmap : (fun k => (σ k).filter fun _ => decide (k ≠ mac)) = Function.update σ mac none := by
      funext k
      by_cases hk : k = mac
      · subst hk
        cases σ k <;> simp
      · rw [Function.update_of_ne hk]
        cases σ k <;> simp [hk]
    refine ⟨_, _, Function.update σ mac none, hrun', ?_, ?_⟩
    · rw [LogCall.Spec, if_pos hd, if_pos hd]
      exact ⟨rfl, rfl⟩
    · rw [← hmap]
      exact h.deleteWhere (if_pos hd) fun k v => by simp

theorem deleteFd_does (h : Represents s σ) (hf : IsInt32 fd) : (LogCall.deleteFd fd).Does db ans s σ := by
  have hans : db.answer (deleteFdText fd) s.table = some (s.table.deleteWhere (·.fd = fd), none) := by
    rw [Database.answer, parse_deleteFdText hf]
    rfl
  have hfit : (deleteFdText fd).length + 1 ≤ QUERY_LEN := by
    have hlen := length_printD_le hf
    have h₁ : (ascii "delete from cmd_agent_session where fd='").length = 40 := rfl
    have h₂ : (ascii "'").length = 1 := rfl
    simp only [deleteFdText, List.length_append, h₁, h₂, QUERY_LEN]
    omega
  obtain ⟨tr, hrun⟩ := mysqlDelete_run ans hfit hans
  by_cases hd : ans.delete = .failed
  · refine ⟨_, _, σ, hrun, ?_, h.congr (if_neg (not_not.mpr hd))⟩
    rw [LogCall.Spec, if_neg (not_not.mpr hd), if_neg (not_not.mpr hd)]
    exact ⟨rfl, rfl⟩
  · refine ⟨_, _, fun k => (σ k).filter (·.1 ≠ fd), hrun, ?_, ?_⟩
    · rw [LogCall.Spec, if_pos hd, if_pos hd]
      exact ⟨rfl, rfl⟩
    · exact h.deleteWhere (if_pos hd) fun k v => by simp

/-- The text of `mysql_update_log` is no statement, whatever the mac is. -/
theorem parse_updateLogText (sequence : Int) (mac : Bytes) (status : Int) :
    parseStatement (updateLogText sequence mac status) = none := by
  have h₀ : (ascii "update cmd_agent_session set status = ").foldl Lex.step ⟨[], .between⟩ =
      ⟨[.word (ascii "update"), .word (ascii "cmd_agent_session"), .word (ascii "set"), .word (ascii "status"),
        .sym 61], .between⟩ := rfl
  rw [parseStatement, Option.bind_eq_none_iff]
  intro toks htoks
  simp only [tokenize, updateLogText, List.append_assoc] at htoks
  rw [List.foldl_append, h₀] at htoks
  -- the column after `set` is none that a statement sets
  obtain ⟨rest, rfl⟩ := toks_prefix_end htoks
  rfl

theorem updateLog_does (hlog : ∀ sequence mac status t, db.other (updateLogText sequence mac status) t = none)
    (h : Represents s σ) {sequence status : Int} (hfit : (updateLogText sequence mac status).length + 1 ≤ QUERY_LEN) :
    (LogCall.updateLog sequence mac status).Does db ans s σ := by
  have hquery : db.query ans.update (updateLogText sequence mac status) s.table = (.failed, s.table) := by
    unfold Database.query Database.answer
    rw [parse_updateLogText]
    simp only [hlog, ite_self]
  have hrun : ∃ tr, mysqlUpdateLog db ans sequence (.str mac) status s = .ok (-2) { s with trace := tr } := by
    unfold mysqlUpdateLog
    rw [bind_run (readStr_run ..), bind_run (sprintf_run hfit s), bind_run (mysqlQuery_run ..), hquery]
    exact ⟨_, rfl⟩
  obtain ⟨tr, hrun⟩ := hrun
  exact ⟨_, _, σ, hrun, ⟨rfl, rfl⟩, h.congr rfl⟩

end Calls

/-- Every sequence of calls of `log.c` whose arguments fit, whichever of the
queries fail, returns what the map returns and leaves a table that holds the
rows of the map; given that the database rejects `ANDi`. -/
theorem log_is_map (hlog : ∀ sequence mac status t, db.other (updateLogText sequence mac status) t = none)
    (calls : List (LogCall × Answers)) (hfit : ∀ p ∈ calls, p.1.Fitting) {σ : Sessions} (h : Represents s σ) :
    ∃ rets s' σ', runAll (fun p => p.1.run db p.2) calls s = .ok rets s' ∧
      SpecAll (fun p σ ret σ' => p.1.Spec p.2 σ ret σ') calls σ rets σ' ∧ Represents s' σ' := by
  refine runAll_implements (R := Represents) (fun p hp s σ h => ?_) s σ h
  obtain ⟨c, ans⟩ := p
  have hc := hfit _ hp
  cases c with
  | insertFd mac fd t => exact insertFd_does h hc.1 hc.2.1 hc.2.2
  | selectFd mac => exact selectFd_does h hc.1 hc.2
  | deleteMac mac => exact deleteMac_does h hc.1 hc.2
  | deleteFd fd => exact deleteFd_does h hc
  | selectSession fd => exact selectSession_does h hc
  | updateLog sequence mac status => exact updateLog_does hlog h hc

/-- The second registration is told to have succeeded, and is lost. -/
def someCalls : List (LogCall × Answers) :=
  [(.insertFd (ascii "m") 6 .reqLinuxClaymore, {}), (.insertFd (ascii "n") 7 .reqLinuxClaymore, { insert := .failed }),
    (.selectFd (ascii "n"), {}), (.selectSession 6, {}), (.deleteFd 6, {}), (.selectFd (ascii "m"), {}),
    (.updateLog 1 (ascii "m") 2, {})]

theorem log_is_map_someCalls :
    ∃ σ', SpecAll (fun p σ ret σ' => LogCall.Spec p.2 σ p.1 ret σ') someCalls (fun _ => none) [6, 7, -5, 2, 0, -5, -2] σ' := by
  have hrets : returned (runAll (fun p => LogCall.run Flat.db p.2 p.1) someCalls) (Flat.start .empty) =
      some [6, 7, -5, 2, 0, -5, -2] := by decide +kernel
  have hplain : Verbatim (ascii "m") ∧ Verbatim (ascii "n") :=
    ⟨Plain.verbatim (by decide +kernel), Plain.verbatim (by decide +kernel)⟩
  have hfit : ∀ p ∈ someCalls, p.1.Fitting := by
    simp only [someCalls, List.forall_mem_cons, LogCall.Fitting]
    refine ⟨⟨hplain.1, ⟨?_, ?_⟩, ?_⟩, ⟨hplain.2, ⟨?_, ?_⟩, ?_⟩, ⟨hplain.2, ?_⟩, ?_, ?_, ⟨hplain.1, ?_⟩, ?_, by simp⟩ <;>
      decide +kernel
  have hstart : Represents (Flat.start .empty) fun _ => none := ⟨fun _ => rfl, fun _ _ h => by cases h⟩
  have hlog : ∀ sequence mac status t, Flat.db.other (updateLogText sequence mac status) t = none := fun _ _ _ _ => rfl
  obtain ⟨rets, s', σ', hrun, hspec, -⟩ := log_is_map hlog someCalls hfit hstart
  rw [returned_of_run hrun, Option.some.injEq] at hrets
  exact ⟨σ', hrets ▸ hspec⟩

end CmdAgent
