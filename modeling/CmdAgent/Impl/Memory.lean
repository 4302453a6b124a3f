import CmdAgent.Impl.Main
import CmdAgent.Framework.Arena
import CmdAgent.Framework.Layer

/-!
# The server and its memory

The event loop again, with the blocks of the heap it allocates and releases: the
session of a batch, the buffer a message is read into, the message as json-c
holds it, the result of a lookup and what a command is built in. The pointers of
a session lead into the message they were taken from, and stay when it is
released: `Mem.owner` is the block that each of them leads into, if it was taken
from a message. The session of a batch is not initialised, so its pointers may
be those of an earlier batch from the start (`Input.wait`).

What the functions do besides is what they do in the server (`server`); in this
one, a read through a pointer into released memory ends the run
(`Fault.released`), and so does the release of a block that is not in use.
-/

namespace CmdAgent.Memory

/-- What a block is for. -/
inductive Kind where
  | session
  /-- `recv_data` -/
  | buffer
  /-- `recv_data_json` -/
  | message
  /-- `malloc(sizeof(1))`, for an empty path. -/
  | blank
  /-- `json`, in `msg_client_info` -/
  | reply
  /-- The `FILE` of a call of `fopen`. -/
  | stream
  /-- `file_buff` -/
  | file
  /-- `buff`, in `msg_client_info` -/
  | command
  /-- `ret`, in `mysql_select_fd` -/
  | result
  deriving DecidableEq, Repr

/-- The pointers of a session. -/
inductive Field where
  | cmdType
  | minerMac
  | path
  | pathInstall
  deriving DecidableEq, Repr

inductive Fault where
  | stop (e : Stop)
  | released (f : Field)
  | notInUse
  deriving DecidableEq, Repr

structure Mem where
  server : State
  blocks : Arena Kind
  /-- The block of the session. -/
  session : Option Nat
  owner : Field → Option Nat
  /-- Why the run has ended. -/
  fault : Option Fault

abbrev MProc := EStateM Fault Mem

def layer : Layer Stop State Fault Mem where
  view := Mem.server
  put s m := { m with server := s }
  stop := .stop
  view_put _ _ := rfl

def lift {α : Type} (x : Proc α) : MProc α := layer.lift x

def malloc (k : Kind) : MProc Nat := fun m => .ok m.blocks.next { m with blocks := m.blocks.alloc k }

def free (b : Nat) : MProc PUnit := fun m =>
  if m.blocks.Live b then .ok ⟨⟩ { m with blocks := m.blocks.free b } else .error .notInUse m

/-- `mj_free`, and `json_object_put` -/
def mjFree : Option Nat → MProc PUnit
  | some b => free b
  | none => pure ⟨⟩

/-- Set a pointer of the session. -/
def point (f : Field) (b : Option Nat) : MProc PUnit :=
  modify fun m => { m with owner := Function.update m.owner f b }

/-- Read through a pointer of the session. -/
def deref (f : Field) : MProc PUnit := fun m =>
  if ∀ b ∈ m.owner f, m.blocks.Live b then .ok ⟨⟩ m else .error (.released f) m

variable (P : Params)

/-! ## Callbacks -/

/-- The body of the loop of `parse_json_cmd`, for a message in the block `doc`. -/
def cmdMember (doc : Nat) : Member → MProc PUnit
  | (key, .string s) =>
    if key = ascii "commend_type" then point .cmdType (some doc)
    else if key = ascii "sequence" then pure ⟨⟩
    else if key = ascii "miner_mac" then point .minerMac (some doc)
    else if key = ascii "path" then
      if s.length ≠ 0 then point .path (some doc)
      else do
        let _ ← malloc .blank
        point .path none
    else if key = ascii "path_install" then
      if s.length ≠ 0 then point .pathInstall (some doc)
      else do
        let _ ← malloc .blank
        point .pathInstall none
    else pure ⟨⟩
  | _ => pure ⟨⟩

/-- The body of the loop of `parse_json_agent`. -/
def agentMember (doc : Nat) : Member → MProc PUnit
  | (key, .string _) => if key = ascii "miner_mac" then point .minerMac (some doc) else pure ⟨⟩
  | _ => pure ⟨⟩

/-- The loop over the members of an object. -/
def foreach (step : Member → MProc PUnit) : List Member → MProc PUnit
  | [] => pure ⟨⟩
  | m :: ms => do
    step m
    foreach step ms

/-- `mysql_store_result` and what follows in `mysql_select_fd`: the result is
not released. -/
def storeResult (reply : Reply) : MProc Int :=
  match reply with
  | .done (some _) => do
    let _ ← malloc .result
    pure (firstRow reply)
  | .done none | .failed => pure (firstRow reply)

def mysqlSelectFd (ans : Answers) (minerMac : CharPtr) : MProc Int := do
  deref .minerMac
  let mac ← lift (readStr "sprintf" minerMac)
  let query ← lift (sprintf (selectFdText mac))
  let reply ← lift (mysqlQuery P.db ans.select query)
  storeResult reply

/-- Each of the two calls of `fopen` allocates a stream, and the second one's is
left in `fp`. -/
def mallocStreams (fp : Option Int) : MProc (Option Nat) :=
  if fp = none then pure none
  else do
    let _ ← malloc .stream
    some <$> malloc .stream

/-- `file_buff` is null unless a file has been opened. -/
def mallocFile (content : CharPtr) : MProc (Option Nat) :=
  if content = .null then pure none else some <$> malloc .file

def msgClientInfo (json : JsonC) (ans : Answers) : MProc (Bytes × Nat) := do
  let s ← lift get
  let session := s.session
  let _ ← malloc .reply
  deref .cmdType
  let cmd ← lift (jsonObjectNewString session.cmdType)
  deref .path
  let path ← lift (jsonObjectNewString session.path)
  let cmdType ← lift (readStr "strcmp" session.cmdType)
  let pathText ← lift (readStr "fopen" session.path)
  let file ← lift (switchCmdType ans cmdType pathText)
  let stream ← mallocStreams file.1
  let fileBuff ← mallocFile file.2
  let content ← lift (jsonObjectNewString file.2)
  deref .pathInstall
  let pathInstall ← lift (jsonObjectNewString session.pathInstall)
  let str := json.toText (.object
    [(ascii "commend_type", cmd), (ascii "path", path), (ascii "sequence", .int session.sequence),
      (ascii "content", content), (ascii "path_install", pathInstall)])
  let len := strlen str
  let _ ← malloc .command
  let buff := strndup str len
  mjFree fileBuff
  lift (fclose file.1)
  mjFree stream
  pure (buff, len)

def serveUx (ans : Answers) : MProc PUnit := do
  let s ← lift get
  let _ ← lift (mysqlInsertFd P.db ans (.str uxSession) s.session.fd .reqUx)
  let ret ← mysqlSelectFd P ans s.session.minerMac
  if ret < 0 then lift (debug "Fail : not found session")
  else do
    let sendData ← msgClientInfo P.json ans
    let mac ← lift (readStr "send" s.session.minerMac)
    let result ← lift (sendTo ans mac ret (sendData.1.take sendData.2))
    lift (if 0 < result then pure ⟨⟩ else debug "fail : session_table_match_non_client")

def serveAgent (ans : Answers) : MProc PUnit := do
  let s ← lift get
  deref .minerMac
  let _ ← lift (mysqlInsertFd P.db ans s.session.minerMac s.session.fd .reqLinuxClaymore)
  pure ⟨⟩

/-- `on_peer_ready_recv` from `get_agent_type` on, for a message in the block
`doc`. -/
def serve (ans : Answers) (fd : Int) (recvJson : Json) (doc : Nat) : MProc PUnit := do
  let agentType ← lift (liftExcept (getAgentType recvJson))
  match agentType with
  | .reqUx => do
    let s ← lift get
    let session ← lift (liftExcept (parseJsonCmd recvJson { s.session with fd := fd, agentType := .reqUx }))
    lift (set { s with session := session })
    foreach (cmdMember doc) ((jsonObjectGetObject recvJson).getD [])
    serveUx P ans
  | .reqLinuxClaymore => do
    let s ← lift get
    let session ← lift (liftExcept
      (parseJsonAgent recvJson { s.session with fd := fd, agentType := .reqLinuxClaymore }))
    lift (set { s with session := session })
    foreach (agentMember doc) ((jsonObjectGetObject recvJson).getD [])
    serveAgent P ans
  | .reqInvalid | .reqWindowClaymore => pure ⟨⟩

def onPeerReadyRecv (ans : Answers) (fd : Int) : MProc FdStatus := do
  lift (assertLtMaxfds fd)
  let _ ← lift (getSlot fd)
  lift (emitAt fd fun conn => .received fd conn ans.recvs)
  let recvData ← malloc .buffer
  match socketRead ans.recvs with
  | none => lift (undefined "recv")
  | some (.error e, _) => lift (throw e)
  | some (.ok (none, _), _) => do
    -- at the end of file, in `socket_read`
    free recvData
    pure fdStatusNORW
  | some (.ok (some data, ret), _) =>
    if ret = -1 then pure fdStatusNORW
    else if ret = -2 then pure fdStatusR
    else if ret = -3 then lift (perrorDie "recv")
    else do
      lift (emitAt fd fun conn => .handed fd conn (cstr data))
      -- a null pointer has no block, but does not get past `get_agent_type`
      let doc ← malloc .message
      serve P ans fd (parseStringToJson P.json (cstr data)) doc
      free recvData
      free doc
      pure ⟨true, false⟩

/-! ## The event loop -/

/-- A peer socket is ready for reading. -/
def recvPeer (ans : Answers) (fd : Int) : MProc PUnit := do
  let status ← onPeerReadyRecv P ans fd
  lift (if status.wantRead = false ∧ status.wantWrite = false then do
      let _ ← mysqlDeleteFd P.db ans fd
      epollCtlDel ans fd
      close fd
    else epollCtlMod ans fd status.interest)

def handleEvent (ans : Answers) (e : Ready) : MProc PUnit :=
  if e.events.epollerr then lift (perrorDie "epoll_wait returned EPOLLERR")
  else if e.fd = P.listener then lift (acceptPeer ans)
  else if e.events.epollin then recvPeer P ans e.fd
  else if e.events.epollout then lift (sendPeer ans e.fd)
  else pure ⟨⟩

/-- The end of an iteration of the loop and the start of the next, up to the
return of `epoll_wait`. The pointers of the session are what was in its
memory. -/
def nextBatch (session : Session) (owner : Field → Option Nat) (batch : List Ready) : MProc PUnit := do
  let m ← get
  mjFree m.session
  let b ← malloc .session
  modify fun m => { m with session := some b, owner := owner }
  lift (modify fun s => { s with session := session, batch := batch })

def Fault.stop? : Fault → Option Stop
  | .stop e => some e
  | .released _ | .notInUse => none

/-- The state a program leaves, with the reason if it ended the run. -/
def finish {α : Type} (x : MProc α) (m : Mem) : Mem :=
  match x m with
  | .ok _ m' => m'
  | .error f m' => { m' with server := { m'.server with stopped := f.stop? }, fault := some f }

/-- The steps of the loop. The session of a new batch comes with what its memory
holds, and the blocks that its pointers lead into. -/
inductive Input where
  | wait (session : Session) (owner : Field → Option Nat) (batch : List Ready)
  | event (ans : Answers)

/-- The step of the server. -/
def Input.action : Input → Action
  | .wait session _ batch => .wait session batch
  | .event ans => .event ans

/-- A step with a session that has no pointer of an earlier batch. -/
def Input.ofAction : Action → Input
  | .wait session batch => .wait session (fun _ => none) batch
  | .event ans => .event ans

instance {Q : Field → Prop} [DecidablePred Q] : Decidable (∀ f, Q f) :=
  decidable_of_iff (Q .cmdType ∧ Q .minerMac ∧ Q .path ∧ Q .pathInstall)
    ⟨fun ⟨h₁, h₂, h₃, h₄⟩ f => by cases f <;> assumption, fun h => ⟨h _, h _, h _, h _⟩⟩

/-- What the memory of a new session holds of an earlier batch leads into blocks
that have been released. -/
def Leftover (m : Mem) (owner : Field → Option Nat) : Prop :=
  ∀ f, ∀ b ∈ owner f, b < m.blocks.next ∧ ¬ m.blocks.Live b

instance (m : Mem) (owner : Field → Option Nat) : Decidable (Leftover m owner) :=
  inferInstanceAs (Decidable (∀ f, ∀ b ∈ owner f, b < m.blocks.next ∧ ¬ m.blocks.Live b))

def Input.Admitted (m : Mem) : Input → Prop
  | .wait _ owner _ => Leftover m owner
  | .event _ => True

instance (m : Mem) : (a : Input) → Decidable (a.Admitted m)
  | .wait _ owner _ => inferInstanceAs (Decidable (Leftover m owner))
  | .event _ => isTrue trivial

def next (m : Mem) : Input → Mem
  | .wait session owner batch => finish (nextBatch session owner batch) m
  | .event ans =>
    match m.server.batch with
    | [] => m
    | e :: rest => finish (handleEvent P ans e) { m with server := { m.server with batch := rest } }

/-- The server with its memory. -/
def memoryServer : Machine Mem Input where
  init m := Initial P m.server ∧ m.blocks = .empty ∧ m.session = none ∧ (∀ f, m.owner f = none) ∧ m.fault = none
  admits m a := m.fault = none ∧ admits m.server a.action ∧ a.Admitted m
  next := next P

instance (m : Mem) (a : Input) : Decidable ((memoryServer P).admits m a) := inferInstanceAs (Decidable (_ ∧ _))

end CmdAgent.Memory
