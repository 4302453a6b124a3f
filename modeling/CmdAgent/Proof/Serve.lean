import CmdAgent.Proof.Statements
import CmdAgent.Proof.Parse
import CmdAgent.Proof.Read
import CmdAgent.Proof.FileBuffer

/-!
# What serving a message does

`Serves` lists what `serve` can do to the state: nothing but filling the
session, register a key, or register the UX session and send a command to the
descriptor found under the message's mac (`serve_ends`). Everything about the
callbacks that later modules need is read off it.

`Stored` says what a call of `mysql_insert_fd` does to the table: for a plain
mac, it stores the row or leaves the table as it was, and it stores the row
unless one of its queries fails.
-/

namespace CmdAgent

open SqlText

/-- Queries and debug output: neither registers nor sends anything. -/
def Obs.Quiet : Obs → Prop
  | .query _ | .debug _ => True
  | _ => False

/-- Two tables hold the same rows. -/
def SameRows (t t' : Table) : Prop := ∀ k, t'.lookup k = t.lookup k

structure Stored (ans : Answers) (row : Row) (t t' : Table) : Prop where
  either : Plain row.mac → SameRows t t' ∨ SameRows (t.put row) t'
  stored : Plain row.mac → ans.insert ≠ .failed → ans.update ≠ .failed → SameRows (t.put row) t'

/-! ## `log.c` -/

theorem mysqlQuery_run (db : Database) (fate : Fate) (text : Bytes) (s : State) :
    mysqlQuery db fate text s = .ok (db.query fate text s.table).1
      { s with table := (db.query fate text s.table).2, trace := .query text :: s.trace } := rfl

theorem readStr_run (call : String) (b : Bytes) (s : State) : readStr call (.str b) s = .ok b s := rfl

theorem emitAt_run (fd : Int) (o : Option Nat → Obs) (s : State) :
    emitAt fd o s = .ok ⟨⟩ { s with trace := o (s.peerAt fd) :: s.trace } := rfl

theorem sprintf_run {text : Bytes} (h : text.length + 1 ≤ QUERY_LEN) (s : State) :
    sprintf text s = .ok text s := by
  rw [sprintf, if_pos h]; rfl

theorem sprintf_stop {text : Bytes} (h : ¬ text.length + 1 ≤ QUERY_LEN) (s : State) :
    sprintf text s = .error (.undefined "sprintf") s := by
  rw [sprintf, if_neg h]; rfl

theorem sprintf_ends (text : Bytes) (s : State) :
    Ends (sprintf text) s (fun b s' => b = text ∧ text.length + 1 ≤ QUERY_LEN ∧ s' = s)
      (fun e s' => e = .undefined "sprintf" ∧ QUERY_LEN < text.length + 1 ∧ s' = s) := by
  unfold sprintf
  split
  · rename_i h; exact ⟨rfl, h, rfl⟩
  · rename_i h; exact ⟨rfl, by omega, rfl⟩

/-- Replacing a row that is not there leaves the table as it was. -/
theorem sameRows_replace {t : Table} {row : Row} (h : t.lookup row.mac = none) :
    SameRows t (t.replace row) := fun k => by
  rw [KeyedTable.lookup_replace]
  split
  · rename_i hk
    obtain ⟨rfl, hn⟩ := hk
    exact absurd h hn
  · rfl

theorem sameRows_put_replace {t : Table} {row : Row} (h : t.lookup row.mac ≠ none) :
    SameRows (t.put row) (t.replace row) := fun k => by
  rw [KeyedTable.put, dif_neg h]

/-- The two queries of `mysql_insert_fd`: its result, the table after them and
what they record. -/
def insertQueries (db : Database) (ans : Answers) (mac : Bytes) (fd : Int) (t : AgentType) (tbl : Table) :
    Int × Table × List Obs :=
  match db.query ans.insert (insertText mac fd t) tbl with
  | (.done _, tbl₁) => (fd, tbl₁, [.query (insertText mac fd t)])
  | (.failed, tbl₁) =>
    match db.query ans.update (updateText mac fd t) tbl₁ with
    | (.done _, tbl₂) => (fd, tbl₂, [.query (updateText mac fd t), .query (insertText mac fd t)])
    | (.failed, tbl₂) =>
      (-2, tbl₂, [.debug "[Fail] mysql_query", .query (updateText mac fd t), .query (insertText mac fd t)])

/-- The table after a call of `mysql_insert_fd`. -/
def insertTable (db : Database) (ans : Answers) (mac : Bytes) (fd : Int) (t : AgentType) (tbl : Table) :
    Table :=
  (insertQueries db ans mac fd t tbl).2.1

/-- What a call of `mysql_insert_fd` records. -/
def insertObs (db : Database) (ans : Answers) (mac : Bytes) (fd : Int) (t : AgentType) (tbl : Table) :
    List Obs :=
  (insertQueries db ans mac fd t tbl).2.2

theorem quiet_insertObs (db : Database) (ans : Answers) (mac : Bytes) (fd : Int) (t : AgentType)
    (tbl : Table) : ∀ o ∈ insertObs db ans mac fd t tbl, o.Quiet := by
  unfold insertObs insertQueries
  split
  · simp [Obs.Quiet]
  · split <;> simp [Obs.Quiet]

/-- What `mysql_insert_fd` does for a mac that stands for itself: it inserts the
row; or the insertion failed and it updates; or both failed. -/
theorem insertQueries_cases (db : Database) (ans : Answers) {mac : Bytes} (hm : Verbatim mac) {fd : Int}
    (hf : IsInt32 fd) (t : AgentType) (tbl : Table) :
    (ans.insert ≠ .failed ∧ tbl.lookup mac = none ∧ (insertQueries db ans mac fd t tbl).1 = fd ∧
      insertTable db ans mac fd t tbl = tbl.put ⟨mac, fd, t.toInt⟩) ∨
    ((ans.insert = .failed ∨ tbl.lookup mac ≠ none) ∧ ans.update ≠ .failed ∧
      (insertQueries db ans mac fd t tbl).1 = fd ∧
      insertTable db ans mac fd t tbl = tbl.replace ⟨mac, fd, t.toInt⟩) ∨
    ((ans.insert = .failed ∨ tbl.lookup mac ≠ none) ∧ ans.update = .failed ∧
      (insertQueries db ans mac fd t tbl).1 = -2 ∧ insertTable db ans mac fd t tbl = tbl) := by
  unfold insertTable insertQueries
  rcases query_insert db (parse_insertText hm hf t) ans.insert tbl with ⟨hi, hl, r, h⟩ | ⟨hwhy, h⟩
  · rw [h]
    exact .inl ⟨hi, hl, rfl, rfl⟩
  · rw [h]
    dsimp only
    rcases query_update db (parse_updateText hm hf t) ans.update tbl with ⟨hu, r, h₂⟩ | ⟨hu, h₂⟩
    · rw [h₂]
      exact .inr (.inl ⟨hwhy, hu, rfl, rfl⟩)
    · rw [h₂]
      exact .inr (.inr ⟨hwhy, hu, rfl, rfl⟩)

theorem stored_insertTable (db : Database) (ans : Answers) (mac : Bytes) {fd : Int} (hf : IsInt32 fd)
    (t : AgentType) (tbl : Table) :
    Stored ans ⟨mac, fd, t.toInt⟩ tbl (insertTable db ans mac fd t tbl) := by
  refine ⟨fun hm => ?_, fun hm hi hu => ?_⟩
  · rcases insertQueries_cases db ans hm.verbatim hf t tbl with ⟨-, -, -, h⟩ | ⟨-, -, -, h⟩ | ⟨-, -, -, h⟩
    · exact .inr fun k => by rw [h]
    · rw [h]
      by_cases hl : tbl.lookup mac = none
      · exact .inl (sameRows_replace hl)
      · exact .inr (sameRows_put_replace hl)
    · exact .inl fun k => by rw [h]
  · rcases insertQueries_cases db ans hm.verbatim hf t tbl with ⟨-, -, -, h⟩ | ⟨hl, -, -, h⟩ | ⟨-, hu', -, -⟩
    · exact fun k => by rw [h]
    · rw [h]
      exact sameRows_put_replace (hl.resolve_left hi)
    · exact absurd hu' hu

/-- The texts of `mysql_insert_fd` fit their buffers. -/
def Fits (mac : Bytes) (fd : Int) (t : AgentType) : Prop :=
  (insertText mac fd t).length + 1 ≤ QUERY_LEN ∧ (updateText mac fd t).length + 1 ≤ QUERY_LEN

section Lengths

variable (mac : Bytes) (fd : Int) (t : AgentType)

theorem length_insertText : (insertText mac fd t).length = 72 + mac.length + (printD fd).length := by
  have e₁ : (ascii "insert into cmd_agent_session (mac, fd, agent_type) values ('").length = 61 := rfl
  have e₂ : (ascii "', '").length = 4 := rfl
  have e₃ : (ascii "')").length = 2 := rfl
  simp only [insertText, List.length_append, e₁, e₂, e₃, t.length_printD_toInt]
  omega

theorem length_updateText : (updateText mac fd t).length = 69 + mac.length + (printD fd).length := by
  have e₁ : (ascii "update cmd_agent_session set fd = '").length = 35 := rfl
  have e₂ : (ascii "', agent_type = '").length = 17 := rfl
  have e₃ : (ascii "' where mac = '").length = 15 := rfl
  have e₄ : (ascii "'").length = 1 := rfl
  simp only [updateText, List.length_append, e₁, e₂, e₃, e₄, t.length_printD_toInt]
  omega

theorem length_selectFdText : (selectFdText mac).length = 47 + mac.length := by
  have e₁ : (ascii "select fd from cmd_agent_session where mac = '").length = 46 := rfl
  have e₂ : (ascii "'").length = 1 := rfl
  simp only [selectFdText, List.length_append, e₁, e₂]
  omega

end Lengths

/-- `mysql_insert_fd` with a mac that can be read and fits both buffers. -/
theorem mysqlInsertFd_run (db : Database) (ans : Answers) {mac : Bytes} {fd : Int} {t : AgentType}
    (h : Fits mac fd t) (s : State) :
    mysqlInsertFd db ans (.str mac) fd t s = .ok (insertQueries db ans mac fd t s.table).1
      { s with
        table := insertTable db ans mac fd t s.table
        trace := insertObs db ans mac fd t s.table ++ .registered mac fd (s.peerAt fd) t :: s.trace } := by
  unfold mysqlInsertFd
  rw [bind_run (readStr_run ..), bind_run (sprintf_run h.1 s), bind_run (sprintf_run h.2 s),
    bind_run (emitAt_run ..), bind_run (mysqlQuery_run ..)]
  simp only [insertTable, insertObs, insertQueries]
  rcases db.query ans.insert (insertText mac fd t) s.table with ⟨_ | r, tbl₁⟩
  · dsimp only
    rw [bind_run (mysqlQuery_run ..)]
    rcases db.query ans.update (updateText mac fd t) tbl₁ with ⟨_ | r₂, tbl₂⟩ <;> rfl
  · rfl

theorem mysqlInsertFd_stop (db : Database) (ans : Answers) {p : CharPtr} {fd : Int} {t : AgentType}
    (h : ∀ mac, p = .str mac → ¬ Fits mac fd t) (s : State) :
    mysqlInsertFd db ans p fd t s = .error (.undefined "sprintf") s := by
  cases p with
  | null => rfl
  | wild => rfl
  | str mac =>
    rw [mysqlInsertFd, bind_run (readStr_run ..)]
    by_cases hi : (insertText mac fd t).length + 1 ≤ QUERY_LEN
    · rw [bind_run (sprintf_run hi s), bind_stop (sprintf_stop (fun hu => h mac rfl ⟨hi, hu⟩) s)]
    · rw [bind_stop (sprintf_stop hi s)]

theorem mysqlInsertFd_ends (db : Database) (ans : Answers) (p : CharPtr) (fd : Int) (t : AgentType)
    (s : State) :
    Ends (mysqlInsertFd db ans p fd t) s
      (fun _ s' => ∃ mac, p = .str mac ∧ s' = { s with
        table := insertTable db ans mac fd t s.table
        trace := insertObs db ans mac fd t s.table ++ .registered mac fd (s.peerAt fd) t :: s.trace })
      (fun e s' => e = .undefined "sprintf" ∧ s' = s) := by
  by_cases h : ∃ mac, p = .str mac ∧ Fits mac fd t
  · obtain ⟨mac, rfl, hfit⟩ := h
    rw [Ends, mysqlInsertFd_run db ans hfit s]
    exact ⟨mac, rfl, rfl⟩
  · rw [Ends, mysqlInsertFd_stop db ans (fun mac hp hfit => h ⟨mac, hp, hfit⟩) s]
    exact ⟨rfl, rfl⟩

/-- The result of looking `mac` up in the table `tbl`. -/
def found (db : Database) (ans : Answers) (mac : Bytes) (tbl : Table) : Int :=
  firstRow (db.query ans.select (selectFdText mac) tbl).1

/-- `mysql_select_fd` with a mac that can be read and fits the buffer. -/
theorem mysqlSelectFd_run (db : Database) (ans : Answers) {mac : Bytes} (s : State)
    (h : (selectFdText mac).length + 1 ≤ QUERY_LEN) :
    mysqlSelectFd db ans (.str mac) s =
      .ok (found db ans mac s.table) { s with trace := .query (selectFdText mac) :: s.trace } := by
  rw [mysqlSelectFd, bind_run (readStr_run ..), bind_run (sprintf_run h s), bind_run (mysqlQuery_run ..),
    query_selectFdText]
  rfl

theorem mysqlSelectFd_stop (db : Database) (ans : Answers) {p : CharPtr}
    (h : ∀ mac, p = .str mac → ¬ (selectFdText mac).length + 1 ≤ QUERY_LEN) (s : State) :
    mysqlSelectFd db ans p s = .error (.undefined "sprintf") s := by
  cases p with
  | null => rfl
  | wild => rfl
  | str mac => rw [mysqlSelectFd, bind_run (readStr_run ..), bind_stop (sprintf_stop (h mac rfl) s)]

theorem mysqlSelectFd_ends (db : Database) (ans : Answers) (p : CharPtr) (s : State) :
    Ends (mysqlSelectFd db ans p) s
      (fun ret s' => ∃ mac, p = .str mac ∧ ret = found db ans mac s.table ∧
        s' = { s with trace := .query (selectFdText mac) :: s.trace })
      (fun e s' => e = .undefined "sprintf" ∧ s' = s) := by
  by_cases h : ∃ mac, p = .str mac ∧ (selectFdText mac).length + 1 ≤ QUERY_LEN
  · obtain ⟨mac, rfl, hfit⟩ := h
    rw [Ends, mysqlSelectFd_run db ans s hfit]
    exact ⟨mac, rfl, rfl, rfl⟩
  · rw [Ends, mysqlSelectFd_stop db ans (fun mac hp hfit => h ⟨mac, hp, hfit⟩) s]
    exact ⟨rfl, rfl⟩

/-- For a plain mac, a result that is no error code is the descriptor in its
row. -/
theorem lookup_of_found {db : Database} {ans : Answers} {mac : Bytes} {tbl : Table} (hm : Plain mac)
    (h : 0 ≤ found db ans mac tbl) :
    ∃ row, tbl.lookup mac = some row ∧ found db ans mac tbl = atoi (printD row.fd) := by
  unfold found at h ⊢
  obtain ⟨h₁, h₂⟩ := firstRow_selectFd db hm.verbatim ans.select tbl
  by_cases hf : ans.select = .answered
  · rw [h₁ hf] at h ⊢
    rcases hl : tbl.lookup mac with _ | row
    · rw [hl] at h; exact absurd h (by decide)
    · exact ⟨row, rfl, rfl⟩
  · exact absurd h (not_le.mpr (h₂ hf))

/-! ## `msg_client_info` -/

/-- The session and the file system are such that `msg_client_info` returns:
it downloads a file that can be opened twice and fits its buffer. -/
structure Forwardable (ans : Answers) (σ : Session) : Prop where
  cmdType : σ.cmdType = .str (ascii "file-download")
  path : ∃ p file, σ.path = .str p ∧ ans.files p = some file ∧ file.Fits ans.spare
  pathInstall : ∃ p, σ.pathInstall = .str p
  stream₁ : ans.stream₁ ≠ none
  stream₂ : ans.stream₂ ≠ none

instance (ans : Answers) (σ : Session) : Decidable (Forwardable ans σ) :=
  decidable_of_iff
    (σ.cmdType = .str (ascii "file-download") ∧
      (∃ p ∈ σ.path.str?, ∃ file ∈ ans.files p, file.Fits ans.spare) ∧
      σ.pathInstall.str? ≠ none ∧ ans.stream₁ ≠ none ∧ ans.stream₂ ≠ none) <| by
    simp only [Option.mem_def, CharPtr.str?_eq_some, Option.ne_none_iff_exists']
    exact ⟨fun ⟨h₁, ⟨p, hp, file, hf, h₂⟩, h₃, h₄, h₅⟩ =>
        ⟨h₁, ⟨p, file, hp, hf, h₂⟩, h₃, Option.ne_none_iff_exists'.mpr h₄, Option.ne_none_iff_exists'.mpr h₅⟩,
      fun ⟨h₁, ⟨p, file, hp, hf, h₂⟩, h₃, h₄, h₅⟩ => ⟨h₁, ⟨p, hp, file, hf, h₂⟩, h₃,
        Option.ne_none_iff_exists'.mp h₄, Option.ne_none_iff_exists'.mp h₅⟩⟩

/-- The command `msg_client_info` builds from a session and a file. -/
def command (json : JsonC) (σ : Session) (path pathInstall : Bytes) (file : File) : Bytes :=
  cstr (json.toText (.object
    [(ascii "commend_type", .string (ascii "file-download")), (ascii "path", .string path),
      (ascii "sequence", .int σ.sequence),
      (ascii "content", .string (cstr (file.contents.take file.size.toNat))),
      (ascii "path_install", .string pathInstall)]))

/-- The descriptors after the two calls of `fopen` and the one of `fclose`. -/
def afterStreams (fds : Int → Option Resource) (a b : Int) : Int → Option Resource :=
  Function.update (Function.update (Function.update fds a (some .stream)) b (some .stream)) b none

/-- Only the descriptors of streams have changed. -/
def FdsKept (ans : Answers) (fds fds' : Int → Option Resource) : Prop :=
  ∀ f, fds' f = fds f ∨
    ((ans.stream₁ = some f ∨ ans.stream₂ = some f) ∧ (fds' f = none ∨ fds' f = some .stream))

theorem FdsKept.refl (ans : Answers) (fds : Int → Option Resource) : FdsKept ans fds fds := fun _ => .inl rfl

theorem FdsKept.update {ans : Answers} {fds fds' : Int → Option Resource} {f : Int} {r : Option Resource}
    (h : FdsKept ans fds fds') (hf : ans.stream₁ = some f ∨ ans.stream₂ = some f)
    (hr : r = none ∨ r = some .stream) : FdsKept ans fds (Function.update fds' f r) := fun g => by
  by_cases hg : g = f
  · subst hg; exact .inr ⟨hf, by simpa using hr⟩
  · simpa [Function.update_of_ne hg] using h g

theorem FdsKept.afterStreams {ans : Answers} {a b : Int} (ha : ans.stream₁ = some a)
    (hb : ans.stream₂ = some b) (fds : Int → Option Resource) : FdsKept ans fds (afterStreams fds a b) :=
  (((FdsKept.refl ans fds).update (.inl ha) (.inr rfl)).update (.inr hb) (.inr rfl)).update (.inr hb)
    (.inl rfl)

theorem jsonObjectNewString_ends (p : CharPtr) (s : State) :
    Ends (jsonObjectNewString p) s (fun j s' => ∃ b, p = .str b ∧ j = .string b ∧ s' = s)
      (fun e s' => (∀ b, p ≠ .str b) ∧ e = .undefined "json_object_new_string" ∧ s' = s) := by
  cases p with
  | null => exact ⟨fun _ => by simp, rfl, rfl⟩
  | wild => exact ⟨fun _ => by simp, rfl, rfl⟩
  | str b => exact ⟨b, rfl, rfl, rfl⟩

/-- The stops of `msg_client_info` are reads through null or unreadable
pointers, and files that do not fit their buffer. -/
def Stop.InCommand (e : Stop) : Prop :=
  e ∈ [Stop.undefined "json_object_new_string", .undefined "fseek", .undefined "file_size", .undefined "file_buff",
    .undefined "fclose"]

theorem readFile_ends (ans : Answers) (path : Bytes) (s : State) :
    Ends (readFile ans path) s
      (fun r s' => (ans.files path = none ∨ ans.stream₁ = none) ∧ r = (none, .null) ∧ s' = s ∨
        ∃ a b file, ans.stream₁ = some a ∧ ans.stream₂ = some b ∧ ans.files path = some file ∧
          file.Fits ans.spare ∧
          r = (some b, .str (cstr (file.contents.take file.size.toNat))) ∧
          s' = { s with
            fds := Function.update (Function.update s.fds a (some .stream)) b (some .stream) })
      (fun e s' => e.InCommand ∧ (ans.stream₂ = none ∨
          ∃ file, ans.files path = some file ∧ ¬ file.Fits ans.spare) ∧
        ∃ fds', FdsKept ans s.fds fds' ∧ s' = { s with fds := fds' }) := by
  unfold readFile fopen
  rcases hfile : ans.files path with _ | file
  · exact .inl ⟨.inl rfl, rfl, rfl⟩
  rcases ha : ans.stream₁ with _ | a
  · exact .inl ⟨.inr rfl, rfl, rfl⟩
  have hk := (FdsKept.refl ans s.fds).update (.inl ha) (r := some .stream) (.inr rfl)
  rcases hb : ans.stream₂ with _ | b
  · exact ⟨by simp [Stop.InCommand], .inl rfl, _, hk, rfl⟩
  have hk₂ := hk.update (.inr hb) (r := some .stream) (.inr rfl)
  refine .bind (.bind (.modify (.pure ?_)))
  refine .bind (.bind (.modify (.pure ?_)))
  refine .bind ((fileBuff_ends ans file _).mono ?_ ?_)
  · rintro _ _ ⟨hfits, rfl, rfl⟩
    exact .pure (.inr ⟨a, b, file, rfl, rfl, rfl, hfits, rfl, rfl⟩)
  · rintro e _ ⟨hno, he, rfl⟩
    exact ⟨by rcases he with rfl | rfl <;> simp [Stop.InCommand], .inr ⟨file, rfl, hno⟩, _, hk₂, rfl⟩

theorem parseCmdType_eq_one {c : Bytes} : parseCmdType c = 1 ↔ c = ascii "file-download" := by
  unfold parseCmdType
  split
  · rename_i h; simp [h]
  · rename_i h; simp [h]

/-- `msg_client_info` has stopped in the state `s'`: the session of `s` is not
forwardable. -/
def Unbuilt (ans : Answers) (s : State) (e : Stop) (s' : State) : Prop :=
  ¬ Forwardable ans s.session ∧ e.InCommand ∧ ∃ fds', FdsKept ans s.fds fds' ∧ s' = { s with fds := fds' }

/-- A string of the command: the session is not forwardable if it cannot be
read. -/
theorem newString_ends {ans : Answers} {s s' : State} {fds' : Int → Option Resource} (p : CharPtr)
    (hk : FdsKept ans s.fds fds') (hs' : s' = { s with fds := fds' })
    (hno : (∀ b, p ≠ .str b) → ¬ Forwardable ans s.session) {f : Json → Proc (Bytes × Nat)} {Q : Bytes × Nat → State → Prop}
    (hf : ∀ b, p = .str b → Ends (f (.string b)) s' Q (Unbuilt ans s)) :
    Ends (jsonObjectNewString p >>= f) s' Q (Unbuilt ans s) := by
  refine .bind ((jsonObjectNewString_ends p s').mono ?_ ?_)
  · rintro _ _ ⟨b, hp, rfl, rfl⟩
    exact hf b hp
  · rintro _ _ ⟨hp, rfl, rfl⟩
    exact ⟨hno hp, by simp [Stop.InCommand], fds', hk, hs'⟩

/-- `msg_client_info` returns exactly for the sessions that are forwardable,
and then leaves one of the two streams it opened. -/
theorem msgClientInfo_ends (json : JsonC) (ans : Answers) (s : State) :
    Ends (msgClientInfo json ans) s
      (fun data s' => Forwardable ans s.session ∧
        (∃ a b, ans.stream₁ = some a ∧ ans.stream₂ = some b ∧ s' = { s with fds := afterStreams s.fds a b }) ∧
        ∃ p file pi, s.session.path = .str p ∧ ans.files p = some file ∧ s.session.pathInstall = .str pi ∧
          data = (command json s.session p pi file, (command json s.session p pi file).length))
      (Unbuilt ans s) := by
  have hrefl := FdsKept.refl ans s.fds
  unfold msgClientInfo
  refine .bind (.get ?_)
  refine newString_ends _ hrefl rfl (fun h hf => h _ hf.cmdType) fun c hc => ?_
  refine newString_ends _ hrefl rfl (fun h hf => ?_) fun p hp => ?_
  · obtain ⟨p, -, hp, -⟩ := hf.path; exact h p hp
  rw [hc, hp]
  refine .bind (.pure (.bind (.pure (.bind ?_))))
  unfold switchCmdType
  split
  · -- a download: the file is opened and read
    rename_i hcmd
    rw [parseCmdType_eq_one] at hcmd
    subst hcmd
    refine (readFile_ends ans p s).mono ?_ ?_
    · rintro _ _ (⟨hno, rfl, rfl⟩ | ⟨a, b, file, ha, hb, hfile, hfits, rfl, rfl⟩)
      · refine newString_ends _ hrefl rfl (fun _ hf => ?_) fun _ h => by cases h
        obtain ⟨p', file, hp', hfile, -⟩ := hf.path
        obtain rfl : p = p' := CharPtr.str.inj (hp.symm.trans hp')
        rcases hno with hno | hno
        · rw [hno] at hfile; cases hfile
        · exact hf.stream₁ hno
      · have hk := ((FdsKept.refl ans s.fds).update (.inl ha) (r := some .stream) (.inr rfl)).update (.inr hb)
          (r := some .stream) (.inr rfl)
        refine newString_ends _ hk rfl (fun h => absurd rfl (h _)) fun c' hc' => ?_
        obtain rfl := CharPtr.str.inj hc'
        refine newString_ends _ hk rfl (fun h hf => ?_) fun pi hpi => ?_
        · obtain ⟨pi, hpi⟩ := hf.pathInstall; exact h pi hpi
        refine .bind (.modify (.pure ?_))
        exact ⟨⟨hc, ⟨p, file, hp, hfile, hfits⟩, ⟨pi, hpi⟩, by simp [ha], by simp [hb]⟩,
          ⟨a, b, ha, hb, rfl⟩, p, file, pi, rfl, hfile, hpi, by rw [strndup_strlen]; rfl⟩
    · rintro e _ ⟨he, hno, fds', hk, rfl⟩
      refine ⟨fun hf => ?_, he, fds', hk, rfl⟩
      rcases hno with hno | ⟨file, hfile, hno⟩
      · exact hf.stream₂ hno
      · obtain ⟨p', file', hp', hfile', hfits⟩ := hf.path
        obtain rfl : p = p' := CharPtr.str.inj (hp.symm.trans hp')
        obtain rfl : file = file' := Option.some.inj (hfile.symm.trans hfile')
        exact hno hfits
  · -- any other command type: there is no content to send
    rename_i hcmd
    refine .pure (newString_ends _ hrefl rfl (fun _ hf => hcmd ?_) fun _ h => by cases h)
    rw [parseCmdType_eq_one]
    exact CharPtr.str.inj (hc.symm.trans hf.cmdType)

/-! ## Serving a message -/

/-- The session after a UX message with the given members. -/
def uxSessionOf (σ : Session) (fd : Int) (ms : List Member) : Session :=
  Session.cmdFields { σ with fd := fd, agentType := .reqUx } ms

/-- The session after an agent's message with the given members. -/
def agentSessionOf (σ : Session) (fd : Int) (ms : List Member) : Session :=
  Session.agentFields { σ with fd := fd, agentType := .reqLinuxClaymore } ms

/-- What serving the message `msg` on `fd` does to the state `s`: the reason if
it ends the process, and the state it leaves. -/
inductive Serves (P : Params) (ans : Answers) (fd : Int) (msg : Json) (s : State) :
    Option Stop → State → Prop where
  /-- The frame is no object. -/
  | malformed (hj : ¬ msg.IsObject) :
    Serves P ans fd msg s (some (.undefined "json_object_object_foreach")) s
  /-- An object of no known type. -/
  | ignored {ms : List Member} (hj : msg = .object ms) (ht : agentTypeOf ms = .reqInvalid) :
    Serves P ans fd msg s none s
  /-- A mac that cannot be read or does not fit the buffer. -/
  | agentStopped {ms : List Member} (hj : msg = .object ms) (ht : agentTypeOf ms = .reqLinuxClaymore) :
    Serves P ans fd msg s (some (.undefined "sprintf"))
      { s with session := agentSessionOf s.session fd ms }
  | agent {ms : List Member} {k : Bytes} (hj : msg = .object ms) (ht : agentTypeOf ms = .reqLinuxClaymore)
    (hk : (agentSessionOf s.session fd ms).minerMac = .str k) :
    Serves P ans fd msg s none
      { s with
        session := agentSessionOf s.session fd ms
        table := insertTable P.db ans k fd .reqLinuxClaymore s.table
        trace := insertObs P.db ans k fd .reqLinuxClaymore s.table ++
          .registered k fd (s.peerAt fd) .reqLinuxClaymore :: s.trace }
  | uxStopped {ms : List Member} (hj : msg = .object ms) (ht : agentTypeOf ms = .reqUx) :
    Serves P ans fd msg s (some (.undefined "sprintf"))
      { s with session := uxSessionOf s.session fd ms }
  /-- A UX message that finds no session, or whose mac cannot be looked up. -/
  | ux {ms : List Member} {o : Option Stop} {obs : List Obs} (hj : msg = .object ms)
    (ht : agentTypeOf ms = .reqUx) (hobs : ∀ o ∈ obs, o.Quiet)
    (ho : o = some (.undefined "sprintf") ∨ o = none ∧
      ∃ m, (uxSessionOf s.session fd ms).minerMac = .str m ∧
        found P.db ans m (insertTable P.db ans uxSession fd .reqUx s.table) < 0) :
    Serves P ans fd msg s o
      { s with
        session := uxSessionOf s.session fd ms
        table := insertTable P.db ans uxSession fd .reqUx s.table
        trace := obs ++ .registered uxSession fd (s.peerAt fd) .reqUx :: s.trace }
  /-- A UX message that finds a session, but whose command cannot be built. -/
  | uxFailed {ms : List Member} {e : Stop} {obs : List Obs} {fds' : Int → Option Resource}
    (hj : msg = .object ms) (ht : agentTypeOf ms = .reqUx) (hobs : ∀ o ∈ obs, o.Quiet) (he : e.InCommand)
    (hno : ¬ Forwardable ans (uxSessionOf s.session fd ms)) (hfds : FdsKept ans s.fds fds') :
    Serves P ans fd msg s (some e)
      { s with
        session := uxSessionOf s.session fd ms
        fds := fds'
        table := insertTable P.db ans uxSession fd .reqUx s.table
        trace := obs ++ .registered uxSession fd (s.peerAt fd) .reqUx :: s.trace }
  | uxSent {ms : List Member} {o : Option Stop} {obs obs' : List Obs} {m data : Bytes}
    {f a b : Int} {answer : SendAnswer} (hj : msg = .object ms) (ht : agentTypeOf ms = .reqUx)
    (ho : o = none ∧ answer ≠ .sigpipe ∨ o = some .sigpipe ∧ answer = .sigpipe)
    (hm : (uxSessionOf s.session fd ms).minerMac = .str m)
    (hobs : ∀ o ∈ obs, o.Quiet) (hobs' : ∀ o ∈ obs', o.Quiet)
    (hf : f = found P.db ans m (insertTable P.db ans uxSession fd .reqUx s.table)) (hf₀ : 0 ≤ f)
    (hfw : Forwardable ans (uxSessionOf s.session fd ms)) (ha : ans.stream₁ = some a)
    (hb : ans.stream₂ = some b)
    (hans : answer = if ({ s with fds := afterStreams s.fds a b } : State).isSocket f then ans.send else .failed) :
    Serves P ans fd msg s o
      { s with
        session := uxSessionOf s.session fd ms
        fds := afterStreams s.fds a b
        table := insertTable P.db ans uxSession fd .reqUx s.table
        trace := obs' ++ .sent m f (({ s with fds := afterStreams s.fds a b } : State).peerAt f) data answer ::
          (obs ++ .registered uxSession fd (s.peerAt fd) .reqUx :: s.trace) }

section

variable (P : Params) (ans : Answers) (fd : Int)

theorem serveAgent_ends {msg : Json} {ms : List Member} (hj : msg = .object ms)
    (ht : agentTypeOf ms = .reqLinuxClaymore) (s : State) :
    Ends (serveAgent P ans) { s with session := agentSessionOf s.session fd ms }
      (fun _ s' => Serves P ans fd msg s none s')
      (fun e s' => Serves P ans fd msg s (some e) s') := by
  unfold serveAgent
  refine .bind (.get (.bind ?_))
  refine (mysqlInsertFd_ends P.db ans _ _ .reqLinuxClaymore _).mono ?_ ?_
  · rintro _ _ ⟨k, hk, rfl⟩
    exact .pure (.agent hj ht hk)
  · rintro e _ ⟨rfl, rfl⟩
    exact .agentStopped hj ht

/-- The last part of the case `REQ_UX`: the session has been found on `f`. -/
theorem sendTo_ends (mac : Bytes) (f : Int) (data : Bytes) (s : State) :
    Ends (sendTo ans mac f data) s
      (fun _ s' => ∃ answer, answer = (if s.isSocket f then ans.send else .failed) ∧ answer ≠ .sigpipe ∧
        s' = { s with trace := .sent mac f (s.peerAt f) data answer :: s.trace })
      (fun e s' => e = .sigpipe ∧ (if s.isSocket f then ans.send else .failed) = .sigpipe ∧
        s' = { s with trace := .sent mac f (s.peerAt f) data .sigpipe :: s.trace }) := by
  unfold sendTo
  refine .bind (.get (.bind (.modify ?_)))
  rcases ha : (if s.isSocket f then ans.send else .failed) with n | _ | _ | _
  · exact ⟨_, rfl, by simp, rfl⟩
  · exact ⟨_, rfl, by simp, rfl⟩
  · exact ⟨_, rfl, by simp, rfl⟩
  · exact ⟨rfl, rfl, rfl⟩

theorem serveUx_ends {msg : Json} {ms : List Member} (hj : msg = .object ms)
    (ht : agentTypeOf ms = .reqUx) (s : State) :
    Ends (serveUx P ans) { s with session := uxSessionOf s.session fd ms }
      (fun _ s' => Serves P ans fd msg s none s')
      (fun e s' => Serves P ans fd msg s (some e) s') := by
  have hquiet := quiet_insertObs P.db ans uxSession fd .reqUx s.table
  unfold serveUx
  refine .bind (.get (.bind ?_))
  refine (mysqlInsertFd_ends P.db ans _ _ .reqUx _).mono ?_ ?_
  · rintro _ _ ⟨k, hk, rfl⟩
    obtain rfl := CharPtr.str.inj hk
    refine .bind ((mysqlSelectFd_ends P.db ans _ _).mono ?_ ?_)
    · rintro f _ ⟨m, hm, hf, rfl⟩
      dsimp only at hm hf
      have hq : ∀ o ∈ .query (selectFdText m) :: insertObs P.db ans uxSession fd .reqUx s.table, o.Quiet :=
        List.forall_mem_cons.mpr ⟨trivial, hquiet⟩
      split
      · rename_i hneg
        have hq' : ∀ o ∈ .debug "Fail : not found session" :: .query (selectFdText m) ::
            insertObs P.db ans uxSession fd .reqUx s.table, o.Quiet := List.forall_mem_cons.mpr ⟨trivial, hq⟩
        have hserves : Serves P ans fd msg s none _ := .ux hj ht hq' (.inr ⟨rfl, m, hm, hf ▸ hneg⟩)
        exact .modify hserves
      · rename_i hpos
        rw [not_lt] at hpos
        refine .bind ((msgClientInfo_ends P.json ans _).mono ?_ ?_)
        · rintro data _ ⟨hfw, ⟨a, b, ha, hb, rfl⟩, -⟩
          have hsent : ∀ (o : Option Stop) (obs' : List Obs) (answer : SendAnswer),
              (o = none ∧ answer ≠ .sigpipe ∨ o = some .sigpipe ∧ answer = .sigpipe) →
              (∀ o ∈ obs', o.Quiet) →
              answer = (if ({ s with fds := afterStreams s.fds a b } : State).isSocket f then ans.send else .failed) →
              Serves P ans fd msg s o
                { s with
                  session := uxSessionOf s.session fd ms
                  fds := afterStreams s.fds a b
                  table := insertTable P.db ans uxSession fd .reqUx s.table
                  trace := obs' ++ .sent m f (({ s with fds := afterStreams s.fds a b } : State).peerAt f)
                    (data.1.take data.2) answer :: ((.query (selectFdText m) :: insertObs P.db ans uxSession fd .reqUx s.table) ++
                      .registered uxSession fd (s.peerAt fd) .reqUx :: s.trace) } :=
            fun o obs' answer ho hobs' hans => .uxSent hj ht ho hm hq hobs' hf hpos hfw ha hb hans
          rw [hm]
          refine .bind (.pure (.bind ((sendTo_ends ans m f (data.1.take data.2) _).mono ?_ ?_)))
          · rintro n _ ⟨answer, hans, hne, rfl⟩
            split
            · exact .pure (hsent none [] answer (.inl ⟨rfl, hne⟩) (by simp) hans)
            · exact .modify (hsent none [.debug _] answer (.inl ⟨rfl, hne⟩) (by simp [Obs.Quiet]) hans)
          · rintro e _ ⟨rfl, hans, rfl⟩
            exact hsent (some .sigpipe) [] .sigpipe (.inr ⟨rfl, rfl⟩) (by simp) hans.symm
        · rintro e _ ⟨hno, he, fds', hk, rfl⟩
          have hserves : Serves P ans fd msg s (some e) _ := .uxFailed hj ht hq he hno hk
          exact hserves
    · rintro e _ ⟨rfl, rfl⟩
      exact .ux hj ht hquiet (.inl rfl)
  · rintro e _ ⟨rfl, rfl⟩
    exact .uxStopped hj ht

/-- Serving a message on `fd` does one of the things `Serves` lists. -/
theorem serve_ends (msg : Json) (s : State) :
    Ends (serve P ans fd msg) s (fun _ s' => Serves P ans fd msg s none s')
      (fun e s' => Serves P ans fd msg s (some e) s') := by
  unfold serve
  by_cases hobj : msg.IsObject
  · obtain ⟨ms, hj⟩ := hobj
    subst hj
    rw [getAgentType_object]
    refine .bind (.pure ?_)
    cases ht : agentTypeOf ms with
    | reqInvalid => exact .pure (.ignored rfl ht)
    | reqUx =>
      refine .bind (.get ?_)
      rw [parseJsonCmd_object]
      exact .bind (.pure (.bind (.modify (serveUx_ends P ans fd rfl ht s))))
    | reqLinuxClaymore =>
      refine .bind (.get ?_)
      rw [parseJsonAgent_object]
      exact .bind (.pure (.bind (.modify (serveAgent_ends P ans fd rfl ht s))))
    | reqWindowClaymore => exact absurd ht (agentTypeOf_ne_window ms)
  · rw [getAgentType_of_not_object hobj]
    exact .bind (.throw (.malformed hobj))

end

end CmdAgent
