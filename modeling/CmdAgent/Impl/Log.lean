import CmdAgent.Impl.State

/-!
# The session table (`log.c`)

Each function writes the text of its statement into a buffer of `QUERY_LEN`
bytes and has the database execute it. A text that does not fit, with its
terminating NUL, is written past the buffer.
-/

namespace CmdAgent

/-! ## The texts -/

def insertText (mac : Bytes) (fd : Int) (agentType : AgentType) : Bytes :=
  ascii "insert into cmd_agent_session (mac, fd, agent_type) values ('" ++ mac ++ ascii "', '" ++
    printD fd ++ ascii "', '" ++ printD agentType.toInt ++ ascii "')"

def updateText (mac : Bytes) (fd : Int) (agentType : AgentType) : Bytes :=
  ascii "update cmd_agent_session set fd = '" ++ printD fd ++ ascii "', agent_type = '" ++
    printD agentType.toInt ++ ascii "' where mac = '" ++ mac ++ ascii "'"

def selectFdText (mac : Bytes) : Bytes :=
  ascii "select fd from cmd_agent_session where mac = '" ++ mac ++ ascii "'"

def deleteMacText (mac : Bytes) : Bytes :=
  ascii "delete from cmd_agent_session where mac='" ++ mac ++ ascii "'"

def deleteFdText (fd : Int) : Bytes :=
  ascii "delete from cmd_agent_session where fd='" ++ printD fd ++ ascii "'"

def selectSessionText (fd : Int) : Bytes :=
  ascii "select agent_type from cmd_agent_session where fd = '" ++ printD fd ++ ascii "'"

/-- With `ANDi`, as it is written. -/
def updateLogText (sequence : Int) (mac : Bytes) (status : Int) : Bytes :=
  ascii "update cmd_agent_session set status = " ++ printD status ++
    ascii "             where sequence = '" ++ printD sequence ++ ascii "' ANDi mac = '" ++ mac ++ ascii "'"

/-- `sprintf` into a query buffer, of an expanded text. -/
def sprintf (text : Bytes) : Proc Bytes :=
  if text.length + 1 ≤ QUERY_LEN then pure text else undefined "sprintf"

/-! ## The functions -/

section

variable (db : Database)

def mysqlQuery (fate : Fate) (text : Bytes) : Proc Reply := do
  emit (.query text)
  let s ← get
  let r := db.query fate text s.table
  set { s with table := r.2 }
  pure r.1

def mysqlInsertFd (ans : Answers) (minerMac : CharPtr) (fd : Int) (agentType : AgentType) :
    Proc Int := do
  let mac ← readStr "sprintf" minerMac
  let queryInsert ← sprintf (insertText mac fd agentType)
  let queryUpdate ← sprintf (updateText mac fd agentType)
  emitAt fd fun conn => .registered mac fd conn agentType
  match ← mysqlQuery db ans.insert queryInsert with
  | .done _ => pure fd
  | .failed =>
    match ← mysqlQuery db ans.update queryUpdate with
    | .done _ => pure fd
    | .failed => do
      debug "[Fail] mysql_query"
      pure (-2)

/-- What `mysql_select_fd` and `mysql_select_session` make of a reply: the
number in the first row, or an error code. -/
def firstRow : Reply → Int
  | .done (some (row :: _)) => atoi row
  | .done (some []) => -5
  | .done none => -4
  | .failed => -3

def mysqlSelectFd (ans : Answers) (minerMac : CharPtr) : Proc Int := do
  let mac ← readStr "sprintf" minerMac
  let query ← sprintf (selectFdText mac)
  let reply ← mysqlQuery db ans.select query
  pure (firstRow reply)

def mysqlSelectSession (ans : Answers) (fd : Int) : Proc Int := do
  let query ← sprintf (selectSessionText fd)
  let reply ← mysqlQuery db ans.select query
  pure (firstRow reply)

/-- What `mysql_delete_mac` and `mysql_delete_fd` do with their text. -/
def mysqlDelete (ans : Answers) (text : Bytes) : Proc Int := do
  let query ← sprintf text
  match ← mysqlQuery db ans.delete query with
  | .done _ => pure 0
  | .failed => do
    debug "[Fail] mysql_query"
    pure (-2)

def mysqlDeleteMac (ans : Answers) (minerMac : CharPtr) : Proc Int := do
  let mac ← readStr "sprintf" minerMac
  mysqlDelete db ans (deleteMacText mac)

def mysqlDeleteFd (ans : Answers) (fd : Int) : Proc Int := mysqlDelete db ans (deleteFdText fd)

def mysqlUpdateLog (ans : Answers) (sequence : Int) (minerMac : CharPtr) (status : Int) : Proc Int := do
  let mac ← readStr "sprintf" minerMac
  let queryUpdate ← sprintf (updateLogText sequence mac status)
  match ← mysqlQuery db ans.update queryUpdate with
  | .done _ => pure 0
  | .failed => do
    debug "[Fail] mysql_query"
    pure (-2)

end

end CmdAgent
