import CmdAgent.Framework.KeyedTable
import CmdAgent.Framework.SqlText

/-!
# The database

The table `cmd_agent_session` with its unique key `mac`, and what MySQL does
with the text of a statement. The statements `log.c` writes are recognised by
the shape of their tokens and executed (`Statement.exec`). A text of any other
shape, as a mac with quotes in it can make, is the database's to answer
(`Database.other`); all that is known of it is that a `select` changes no row.

A query can also fail for a reason of its own, such as a lost connection, and
the result of a query can be lost before it is stored (`Fate`).
-/

namespace CmdAgent

open SqlText

structure Row where
  mac : Bytes
  fd : Int
  agentType : Int
  deriving DecidableEq, Repr

abbrev Table := KeyedTable Row.mac

inductive Statement where
  | insert (row : Row)
  | update (row : Row)
  | deleteMac (mac : Bytes)
  | deleteFd (fd : Int)
  | selectFd (mac : Bytes)
  | selectSession (fd : Int)
  deriving DecidableEq, Repr

/-! ## The shapes of the statements -/

/-- A keyword or a name in a shape. -/
def word (s : String) : Place := .tok (.word (ascii s))

/-- A symbol in a shape. -/
def symbol (c : Char) : Place := .tok (.sym (UInt8.ofNat c.toNat))

def insertShape : List Place :=
  [word "insert", word "into", word "cmd_agent_session", symbol '(', word "mac", symbol ',',
    word "fd", symbol ',', word "agent_type", symbol ')', word "values", symbol '(', .arg,
    symbol ',', .arg, symbol ',', .arg, symbol ')']

def updateShape : List Place :=
  [word "update", word "cmd_agent_session", word "set", word "fd", symbol '=', .arg, symbol ',',
    word "agent_type", symbol '=', .arg, word "where", word "mac", symbol '=', .arg]

def deleteMacShape : List Place :=
  [word "delete", word "from", word "cmd_agent_session", word "where", word "mac", symbol '=', .arg]

def deleteFdShape : List Place :=
  [word "delete", word "from", word "cmd_agent_session", word "where", word "fd", symbol '=', .arg]

def selectFdShape : List Place :=
  [word "select", word "fd", word "from", word "cmd_agent_session", word "where", word "mac",
    symbol '=', .arg]

def selectSessionShape : List Place :=
  [word "select", word "agent_type", word "from", word "cmd_agent_session", word "where",
    word "fd", symbol '=', .arg]

/-- The statements, each with its shape and what the literals in it mean. The
columns `fd` and `agent_type` are integers, given by the text of a literal. -/
def statements : List (List Place × (List Bytes → Option Statement)) :=
  [(insertShape, fun
      | [mac, fd, agentType] => some (.insert ⟨mac, atoi fd, atoi agentType⟩)
      | _ => none),
    (updateShape, fun
      | [fd, agentType, mac] => some (.update ⟨mac, atoi fd, atoi agentType⟩)
      | _ => none),
    (deleteMacShape, fun
      | [mac] => some (.deleteMac mac)
      | _ => none),
    (deleteFdShape, fun
      | [fd] => some (.deleteFd (atoi fd))
      | _ => none),
    (selectFdShape, fun
      | [mac] => some (.selectFd mac)
      | _ => none),
    (selectSessionShape, fun
      | [fd] => some (.selectSession (atoi fd))
      | _ => none)]

/-- The statement a list of tokens stands for. -/
def statementOf (toks : List Token) : Option Statement :=
  statements.findSome? fun st => (matchShape st.1 toks).bind st.2

def parseStatement (text : Bytes) : Option Statement := (tokenize text).bind statementOf

/-! ## Executing statements -/

/-- What `mysql_query` and `mysql_store_result` give: the query fails, or it
is done, with the stored result (the first column of each row, as text)
unless there is none. -/
inductive Reply where
  | failed
  | done (result : Option (List Bytes))
  deriving DecidableEq, Repr

inductive Fate where
  | answered
  | failed
  | resultLost
  deriving DecidableEq, Repr

/-- What is left open about the database server. -/
structure Database where
  /-- Its answer to a text of a shape the server never means to send: an
  error, or the table after the statement and its result. -/
  other : Bytes → Table → Option (Table × Option (List Bytes))
  other_select {text : Bytes} {t t' : Table} {rows : Option (List Bytes)} :
    ascii "select " <+: text → other text t = some (t', rows) → t' = t
  /-- The order in which it returns the rows of a result. -/
  arrange : List Row → List Row
  arrange_perm (rows : List Row) : (arrange rows).Perm rows

/-- Execute a statement: `none` if it fails, which only the insertion of a
`mac` that is present already does. -/
def Statement.exec (arrange : List Row → List Row) (t : Table) :
    Statement → Option (Table × Option (List Bytes))
  | .insert row => if h : t.lookup row.mac = none then some (t.insert row h, none) else none
  | .update row => some (t.replace row, none)
  | .deleteMac mac => some (t.deleteWhere (·.mac = mac), none)
  | .deleteFd fd => some (t.deleteWhere (·.fd = fd), none)
  | .selectFd mac => some (t, some ((arrange (t.rowsFor mac)).map (printD ·.fd)))
  | .selectSession fd => some (t, some ((arrange (t.rows.filter (·.fd = fd))).map (printD ·.agentType)))

/-- The database's own answer to a text. -/
def Database.answer (db : Database) (text : Bytes) (t : Table) :
    Option (Table × Option (List Bytes)) :=
  match parseStatement text with
  | some st => st.exec db.arrange t
  | none => db.other text t

def Database.query (db : Database) (fate : Fate) (text : Bytes) (t : Table) : Reply × Table :=
  if fate = .failed then (.failed, t)
  else
    match db.answer text t with
    | none => (.failed, t)
    | some (t', rows) => (.done (if fate = .resultLost then none else rows), t')

end CmdAgent
