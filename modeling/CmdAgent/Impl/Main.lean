import CmdAgent.Impl.Session
import CmdAgent.Framework.Machine

/-!
# The callbacks and the event loop (`main.c`)

One step of the loop takes a batch from `epoll_wait` (`Action.wait`) or
handles the next event of the batch (`Action.event`). The session of a batch
is allocated, uninitialised, before the batch is taken. A step that ends the
process leaves the reason in `State.stopped`, and no step follows it.

`admits` is what is assumed of the kernel: a batch has at most one event for a
descriptor, reports registered descriptors only, and an event only if it is
registered for (errors and hang-ups are always reported); `accept` and `fopen`
give descriptors that are not open; `recv` gives 1 to `MAX_RECV_BUFF_SIZE`
bytes, and `socket_read` returns.
-/

namespace CmdAgent

structure Params where
  json : JsonC
  db : Database
  listener : Int
  epollfd : Int
  dbfd : Int
  distinct : listener ≠ epollfd ∧ listener ≠ dbfd ∧ epollfd ≠ dbfd

variable (P : Params)

/-! ## Callbacks -/

def assertLtMaxfds (fd : Int) : Proc PUnit := if fd < MAXFDS then pure ⟨⟩ else throw .assertFailed

/-- `&global_state[fd]`, written through. -/
def setSlot (fd : Int) (f : PeerState → PeerState) : Proc PUnit :=
  if 0 ≤ fd ∧ fd < MAXFDS then
    modify fun s => { s with slots := Function.update s.slots fd (f (s.slots fd)) }
  else undefined "global_state"

/-- `&global_state[fd]`, read. -/
def getSlot (fd : Int) : Proc PeerState :=
  if 0 ≤ fd ∧ fd < MAXFDS then do
    let s ← get
    pure (s.slots fd)
  else undefined "global_state"

def onPeerConnected (sockfd : Int) : Proc FdStatus := do
  assertLtMaxfds sockfd
  setSlot sockfd fun p => { p with state := .initialAck, sendptr := 0, sendbufEnd := SYNACK_LEN }
  pure fdStatusR

/-- The result of a `send`, as the `size_t` the caller keeps it in. -/
def sendTo (ans : Answers) (mac : Bytes) (fd : Int) (data : Bytes) : Proc Nat := do
  let s ← get
  let answer := if s.isSocket fd then ans.send else .failed
  emitAt fd fun conn => .sent mac fd conn data answer
  match answer with
  | .sent n => pure n
  | .wouldBlock | .failed => pure (2 ^ 64 - 1)
  | .sigpipe => throw .sigpipe

/-- The case `REQ_UX` of the switch in `on_peer_ready_recv`. -/
def serveUx (ans : Answers) : Proc PUnit := do
  let s ← get
  let _ ← mysqlInsertFd P.db ans (.str uxSession) s.session.fd .reqUx
  let ret ← mysqlSelectFd P.db ans s.session.minerMac
  if ret < 0 then debug "Fail : not found session"
  else
    let sendData ← msgClientInfo P.json ans
    let mac ← readStr "send" s.session.minerMac
    let result ← sendTo ans mac ret (sendData.1.take sendData.2)
    if 0 < result then pure ⟨⟩ else debug "fail : session_table_match_non_client"

/-- The case `REQ_LINUX_CLAYMORE`. -/
def serveAgent (ans : Answers) : Proc PUnit := do
  let s ← get
  let _ ← mysqlInsertFd P.db ans s.session.minerMac s.session.fd .reqLinuxClaymore
  pure ⟨⟩

/-- Fill the session from a message and serve it: `on_peer_ready_recv` from
`get_agent_type` on. -/
def serve (ans : Answers) (fd : Int) (recvJson : Json) : Proc PUnit := do
  let agentType ← liftExcept (getAgentType recvJson)
  match agentType with
  | .reqUx => do
    let s ← get
    let session ← liftExcept (parseJsonCmd recvJson { s.session with fd := fd, agentType := .reqUx })
    set { s with session := session }
    serveUx P ans
  | .reqLinuxClaymore => do
    let s ← get
    let session ← liftExcept
      (parseJsonAgent recvJson { s.session with fd := fd, agentType := .reqLinuxClaymore })
    set { s with session := session }
    serveAgent P ans
  | .reqInvalid | .reqWindowClaymore => pure ⟨⟩

def onPeerReadyRecv (ans : Answers) (fd : Int) : Proc FdStatus := do
  assertLtMaxfds fd
  let _ ← getSlot fd
  emitAt fd fun conn => .received fd conn ans.recvs
  match socketRead ans.recvs with
  | none => undefined "recv"
  | some (.error e, _) => throw e
  | some (.ok (none, _), _) => pure fdStatusNORW
  | some (.ok (some recvData, ret), _) =>
    if ret = -1 then pure fdStatusNORW
    else if ret = -2 then pure fdStatusR
    else if ret = -3 then perrorDie "recv"
    else do
      emitAt fd fun conn => .handed fd conn (cstr recvData)
      serve P ans fd (parseStringToJson P.json (cstr recvData))
      -- `ready_to_send` is never set
      pure ⟨true, false⟩

/-- What `send` gives for a null buffer: `EFAULT` where it would have copied
bytes, and otherwise what it gives without looking at the buffer. -/
def SendAnswer.ofNull : SendAnswer → SendAnswer
  | .sent _ => .failed
  | answer => answer

def onPeerReadySend (ans : Answers) (sockfd : Int) : Proc FdStatus := do
  emit (.readySend sockfd)
  assertLtMaxfds sockfd
  let p ← getSlot sockfd
  if p.sendbufEnd ≤ p.sendptr then pure fdStatusRW
  else
    let sendlen := p.sendbufEnd - p.sendptr
    -- `send_data`, not `send_data + sendptr`
    let answer := if p.sendData.isSome then ans.send else ans.send.ofNull
    emit (.offered sockfd (p.sendData.map (·.take sendlen.toNat)) answer)
    match answer with
    | .wouldBlock => pure fdStatusW
    | .failed => perrorDie "send"
    | .sigpipe => throw .sigpipe
    | .sent nsent =>
      if (nsent : Int) < sendlen then do
        setSlot sockfd fun p => { p with sendptr := p.sendptr + nsent }
        pure fdStatusW
      else do
        setSlot sockfd fun p =>
          { p with
            sendptr := 0
            sendbufEnd := 0
            state := if p.state = .initialAck then .waitForMsg else p.state }
        pure fdStatusR

/-! ## The event loop -/

def FdStatus.interest (status : FdStatus) : Interest := ⟨status.wantRead, status.wantWrite⟩

/-- `epoll_ctl` with `EPOLL_CTL_ADD`: fails on a descriptor that is registered. -/
def epollCtlAdd (ans : Answers) (fd : Int) (i : Interest) : Proc PUnit := do
  let s ← get
  if ans.ctlFails ∨ s.epoll fd ≠ none then perrorDie "epoll_ctl EPOLL_CTL_ADD"
  else set { s with epoll := Function.update s.epoll fd (some i) }

/-- `epoll_ctl` with `EPOLL_CTL_MOD`: fails on a descriptor that is not registered. -/
def epollCtlMod (ans : Answers) (fd : Int) (i : Interest) : Proc PUnit := do
  let s ← get
  if ans.ctlFails ∨ s.epoll fd = none then perrorDie "epoll_ctl EPOLL_CTL_MOD"
  else set { s with epoll := Function.update s.epoll fd (some i) }

/-- `epoll_ctl` with `EPOLL_CTL_DEL`: fails on a descriptor that is not registered. -/
def epollCtlDel (ans : Answers) (fd : Int) : Proc PUnit := do
  let s ← get
  if ans.ctlFails ∨ s.epoll fd = none then perrorDie "epoll_ctl EPOLL_CTL_DEL"
  else set { s with epoll := Function.update s.epoll fd none }

def close (fd : Int) : Proc PUnit :=
  modify fun s =>
    { s with fds := Function.update s.fds fd none, trace := .closed fd (s.peerAt fd) :: s.trace }

/-- The descriptor `accept` returns refers to a connection with a new number. -/
def openPeer (fd : Int) : Proc PUnit :=
  modify fun s =>
    { s with
      fds := Function.update s.fds fd (some (.peer s.nextConn))
      nextConn := s.nextConn + 1
      trace := .accepted fd s.nextConn :: s.trace }

def makeSocketNonBlocking (ans : Answers) : Proc PUnit :=
  match ans.fcntl with
  | .done => pure ⟨⟩
  | .getFailed => perrorDie "fcntl F_GETFL"
  | .setFailed => perrorDie "fcntl F_SETFL O_NONBLOCK"

/-- The listening socket is ready: a new peer is connecting. -/
def acceptPeer (ans : Answers) : Proc PUnit :=
  match ans.accept with
  | .wouldBlock => pure ⟨⟩
  | .failed => perrorDie "accept"
  | .accepted newsockfd => do
    openPeer newsockfd
    makeSocketNonBlocking ans
    if MAXFDS ≤ newsockfd then
      throw (.die ("socket fd (" ++ toString newsockfd ++ ") >= MAXFDS (" ++ toString MAXFDS ++ ")"))
    else
      let status ← onPeerConnected newsockfd
      epollCtlAdd ans newsockfd status.interest

/-- A peer socket is ready for reading. -/
def recvPeer (ans : Answers) (fd : Int) : Proc PUnit := do
  let status ← onPeerReadyRecv P ans fd
  if status.wantRead = false ∧ status.wantWrite = false then do
    let _ ← mysqlDeleteFd P.db ans fd
    epollCtlDel ans fd
    close fd
  else epollCtlMod ans fd status.interest

/-- A peer socket is ready for writing. -/
def sendPeer (ans : Answers) (fd : Int) : Proc PUnit := do
  let status ← onPeerReadySend ans fd
  if status.wantRead = false ∧ status.wantWrite = false then do
    epollCtlDel ans fd
    close fd
  else epollCtlMod ans fd status.interest

/-- The body of the loop over the events of a batch. -/
def handleEvent (ans : Answers) (e : Ready) : Proc PUnit :=
  if e.events.epollerr then perrorDie "epoll_wait returned EPOLLERR"
  else if e.fd = P.listener then acceptPeer ans
  else if e.events.epollin then recvPeer P ans e.fd
  else if e.events.epollout then sendPeer ans e.fd
  else pure ⟨⟩

inductive Action where
  /-- `epoll_wait` returns the batch; `session` is the uninitialised memory
  allocated for it. -/
  | wait (session : Session) (batch : List Ready)
  | event (ans : Answers)

/-- The state a program leaves, with the reason if it ended the process. -/
def finish {α : Type} (x : Proc α) (s : State) : State :=
  match x s with
  | .ok _ s' => s'
  | .error e s' => { s' with stopped := some e }

def next (s : State) : Action → State
  | .wait session batch => { s with session := session, batch := batch }
  | .event ans =>
    match s.batch with
    | [] => s
    | e :: rest => finish (handleEvent P ans e) { s with batch := rest }

/-! ## What the kernel gives -/

def Recv.Valid : Recv → Prop
  | .data chunk _ => 1 ≤ chunk.length ∧ chunk.length ≤ MAX_RECV_BUFF_SIZE
  | _ => True

instance (r : Recv) : Decidable r.Valid := by
  cases r <;> simp only [Recv.Valid] <;> infer_instance

/-- `e` can be reported in the state `s`. -/
structure Ready.Valid (s : State) (e : Ready) : Prop where
  registered : s.epoll e.fd ≠ none
  epollin : e.events.epollin = true → (s.epoll e.fd).map (·.epollin) = some true
  epollout : e.events.epollout = true → (s.epoll e.fd).map (·.epollout) = some true
  reported : e.reported = s.peerAt e.fd

instance (s : State) (e : Ready) : Decidable (e.Valid s) :=
  decidable_of_iff
    (s.epoll e.fd ≠ none ∧
      (e.events.epollin = true → (s.epoll e.fd).map (·.epollin) = some true) ∧
      (e.events.epollout = true → (s.epoll e.fd).map (·.epollout) = some true) ∧
      e.reported = s.peerAt e.fd)
    ⟨fun ⟨h₁, h₂, h₃, h₄⟩ => ⟨h₁, h₂, h₃, h₄⟩, fun h => ⟨h.registered, h.epollin, h.epollout, h.reported⟩⟩

/-- `fd` is a descriptor the kernel can hand out. -/
def State.Fresh (s : State) (fd : Int) : Prop := 0 ≤ fd ∧ s.fds fd = none

instance (s : State) (fd : Int) : Decidable (s.Fresh fd) := inferInstanceAs (Decidable (_ ∧ _))

structure Answers.Valid (s : State) (ans : Answers) : Prop where
  accept : ∀ fd, ans.accept = .accepted fd → s.Fresh fd
  recvs : ∀ r ∈ ans.recvs, r.Valid
  /-- `socket_read` returns after these answers. -/
  returns : ∃ r, socketRead ans.recvs = some (r, [])
  stream₁ : ∀ fd, ans.stream₁ = some fd → s.Fresh fd
  stream₂ : ∀ fd, ans.stream₂ = some fd → s.Fresh fd ∧ ans.stream₁ ≠ some fd
  /-- The empty path names no file. -/
  files : ans.files [] = none

/-- The descriptor `accept` returns. -/
def AcceptAnswer.fd? : AcceptAnswer → Option Int
  | .accepted fd => some fd
  | .wouldBlock | .failed => none

theorem AcceptAnswer.fd?_eq_some {a : AcceptAnswer} {fd : Int} : a.fd? = some fd ↔ a = .accepted fd := by
  cases a <;> simp [AcceptAnswer.fd?]

theorem Answers.valid_iff {s : State} {ans : Answers} :
    ans.Valid s ↔ (∀ fd ∈ ans.accept.fd?, s.Fresh fd) ∧ (∀ r ∈ ans.recvs, r.Valid) ∧
      (socketRead ans.recvs).map Prod.snd = some [] ∧ (∀ fd ∈ ans.stream₁, s.Fresh fd) ∧
      (∀ fd ∈ ans.stream₂, s.Fresh fd ∧ ans.stream₁ ≠ some fd) ∧ ans.files [] = none := by
  constructor
  · intro h
    obtain ⟨r, hr⟩ := h.returns
    exact ⟨fun fd h' => h.accept fd (AcceptAnswer.fd?_eq_some.mp h'), h.recvs, by rw [hr]; rfl, h.stream₁,
      h.stream₂, h.files⟩
  · rintro ⟨h₁, h₂, h₃, h₄, h₅, h₆⟩
    obtain ⟨⟨r, rest⟩, hr, rfl⟩ := Option.map_eq_some_iff.mp h₃
    exact ⟨fun fd h' => h₁ fd (AcceptAnswer.fd?_eq_some.mpr h'), h₂, ⟨r, hr⟩, h₄, h₅, h₆⟩

instance (s : State) (ans : Answers) : Decidable (ans.Valid s) := decidable_of_iff _ Answers.valid_iff.symm

def admits (s : State) : Action → Prop
  | .wait _ batch =>
    s.stopped = none ∧ s.batch = [] ∧ (batch.map Ready.fd).Nodup ∧ ∀ e ∈ batch, e.Valid s
  | .event ans => s.stopped = none ∧ s.batch ≠ [] ∧ ans.Valid s

instance (s : State) : ∀ a, Decidable (admits s a)
  | .wait _ batch =>
    inferInstanceAs (Decidable (s.stopped = none ∧ s.batch = [] ∧ (batch.map Ready.fd).Nodup ∧ ∀ e ∈ batch, e.Valid s))
  | .event ans => inferInstanceAs (Decidable (s.stopped = none ∧ s.batch ≠ [] ∧ ans.Valid s))

/-- The descriptors of the process when the loop starts. -/
def initialFds : Int → Option Resource := fun fd =>
  if fd = P.listener then some .listener
  else if fd = P.epollfd then some .epoll
  else if fd = P.dbfd then some .database
  else none

def initialEpoll : Int → Option Interest := fun fd =>
  if fd = P.listener then some ⟨true, false⟩ else none

structure Initial (s : State) : Prop where
  fds : s.fds = initialFds P
  epoll : s.epoll = initialEpoll P
  batch : s.batch = []
  trace : s.trace = []
  stopped : s.stopped = none

/-- The server. -/
def server : Machine State Action where
  init := Initial P
  admits := admits
  next := next P

instance (s : State) (a : Action) : Decidable ((server P).admits s a) := inferInstanceAs (Decidable (admits s a))

end CmdAgent
