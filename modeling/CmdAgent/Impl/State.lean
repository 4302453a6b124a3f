import CmdAgent.Impl.Types
import CmdAgent.Impl.Mysql

/-!
# The state of the server and its environment

The state of the process, of the part of the kernel that belongs to it (its
descriptors and its epoll set) and of the database table, in one record. A
handler is a program over it that may end the process (`Proc`).

`State.trace` records, newest first, what a run did: it is never read by the
code. Each accepted connection gets a number of its own, so that the trace can
tell apart the connections that have used one descriptor.

What a handler call gets back from the kernel, the file system and the
database is given to it beforehand (`Answers`): each call is made at most once
in the handling of an event, except `recv`, whose answers are a list, and
`fopen`, which is called twice.
-/

namespace CmdAgent

/-- What an open descriptor refers to: a peer's connection has a number. -/
inductive Resource where
  | listener
  | epoll
  | database
  | peer (conn : Nat)
  | stream
  deriving DecidableEq, Repr

/-- The events a descriptor is registered for in the epoll set. -/
structure Interest where
  epollin : Bool
  epollout : Bool
  deriving DecidableEq, Repr

structure Events where
  epollin : Bool := false
  epollout : Bool := false
  epollerr : Bool := false
  epollhup : Bool := false
  deriving DecidableEq, Repr

/-- An event of a batch, with the connection it was reported for (`none` for
the listener): the code sees `fd` and `events` only. -/
structure Ready where
  fd : Int
  events : Events
  reported : Option Nat
  deriving DecidableEq, Repr

/-! ## Answers -/

inductive AcceptAnswer where
  | accepted (fd : Int)
  | wouldBlock
  | failed
  deriving DecidableEq, Repr

/-- The answers to the two calls of `fcntl` that make a socket non-blocking. -/
inductive FcntlAnswer where
  | done
  | getFailed
  | setFailed
  deriving DecidableEq, Repr

/-- The answer to a `recv`: bytes (with the byte that follows the buffer they
are copied to), end of file, would-block or another error. -/
inductive Recv where
  | data (chunk : Bytes) (stray : Byte)
  | eof
  | wouldBlock
  | failed
  deriving DecidableEq, Repr

inductive SendAnswer where
  | sent (n : Nat)
  | wouldBlock
  | failed
  | sigpipe
  deriving DecidableEq, Repr

/-- A file that `fopen` opens: what `ftell` says at its end, and its bytes. -/
structure File where
  size : Int
  contents : Bytes
  deriving DecidableEq, Repr

structure Answers where
  accept : AcceptAnswer := .wouldBlock
  fcntl : FcntlAnswer := .done
  ctlFails : Bool := false
  recvs : List Recv := [.wouldBlock]
  insert : Fate := .answered
  update : Fate := .answered
  select : Fate := .answered
  delete : Fate := .answered
  files : Bytes → Option File := fun _ => none
  /-- The descriptors of the two streams `fopen` opens, if it gets one. -/
  stream₁ : Option Int := none
  stream₂ : Option Int := none
  /-- How many bytes after the block that the file is read into nothing uses:
  what is written there does no harm. -/
  spare : Nat := 1
  send : SendAnswer := .failed

/-! ## The trace -/

inductive Obs where
  | accepted (fd : Int) (conn : Nat)
  | closed (fd : Int) (conn : Option Nat)
  /-- A call of `socket_read`, with the answers its calls of `recv` got. -/
  | received (fd : Int) (conn : Option Nat) (recvs : List Recv)
  /-- A string handed to `parse_string_to_json`. -/
  | handed (fd : Int) (conn : Option Nat) (text : Bytes)
  /-- A call of `mysql_insert_fd`, with the connection open on `fd`. -/
  | registered (key : Bytes) (fd : Int) (conn : Option Nat) (agentType : AgentType)
  | query (text : Bytes)
  /-- A command sent to `fd`, found under `mac`, with the connection open on
  `fd`. -/
  | sent (mac : Bytes) (fd : Int) (conn : Option Nat) (data : Bytes) (answer : SendAnswer)
  /-- A call of `on_peer_ready_send`. -/
  | readySend (fd : Int)
  /-- The bytes it passes to `send`, unless `send_data` is null. -/
  | offered (fd : Int) (data : Option Bytes) (answer : SendAnswer)
  | debug (msg : String)
  deriving DecidableEq, Repr

/-! ## The state -/

structure State where
  fds : Int → Option Resource
  epoll : Int → Option Interest
  table : Table
  /-- `global_state` -/
  slots : Int → PeerState
  session : Session
  batch : List Ready
  nextConn : Nat
  trace : List Obs
  stopped : Option Stop

abbrev Proc := EStateM Stop State

/-- The number of the connection open on `fd`. -/
def State.peerAt (s : State) (fd : Int) : Option Nat :=
  match s.fds fd with
  | some (.peer c) => some c
  | _ => none

theorem State.peerAt_eq_some {s : State} {fd : Int} {c : Nat} :
    s.peerAt fd = some c ↔ s.fds fd = some (.peer c) := by
  unfold peerAt
  split
  · rename_i c' h; simp [h]
  · rename_i h
    simp only [reduceCtorEq, false_iff]
    exact h c

/-- Whether `send` can reach `fd` at all. -/
def State.isSocket (s : State) (fd : Int) : Bool :=
  match s.fds fd with
  | some (.peer _) | some .database | some .listener => true
  | _ => false

def emit (o : Obs) : Proc PUnit := modify fun s => { s with trace := o :: s.trace }

/-- Record something about `fd`, with the connection open on it. -/
def emitAt (fd : Int) (o : Option Nat → Obs) : Proc PUnit :=
  modify fun s => { s with trace := o (s.peerAt fd) :: s.trace }

def debug (msg : String) : Proc PUnit := emit (.debug msg)

def perrorDie {α : Type} (msg : String) : Proc α := throw (.die msg)

def undefined {α : Type} (call : String) : Proc α := throw (.undefined call)

/-- A computation of `parse.c`, which touches no other state. -/
def liftExcept {α : Type} : Except Stop α → Proc α
  | .ok a => pure a
  | .error e => throw e

/-- Read the C string `p` leads to, in the given call. -/
def readStr (call : String) (p : CharPtr) : Proc Bytes :=
  match p with
  | .str s => pure s
  | .null | .wild => undefined call

end CmdAgent
