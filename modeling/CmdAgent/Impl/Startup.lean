import CmdAgent.Impl.Main

/-!
# The start of the process (`main.c`, `utils.c`)

`main` up to its loop: the connection to the database, the listening socket and
the epoll set. A process starts with no descriptor of its own (`Process.exec`);
those it inherits are known to the kernel only, which gives out no descriptor
that is open (`BootAnswers.Valid`).
-/

namespace CmdAgent

/-- What static storage holds when a process starts. -/
def zeroSlot : PeerState := ⟨.initialAck, none, 0, 0⟩

namespace Startup

def N_BACKLOG : Nat := 64

/-- The listening socket, as the kernel has it. -/
structure Socket where
  reuseAddr : Bool := false
  port : Option Nat := none
  backlog : Option Nat := none
  nonBlocking : Bool := false
  deriving DecidableEq, Repr

structure Process where
  server : State
  socket : Socket
  /-- The lines printed, oldest first. -/
  output : List String

abbrev Boot := EStateM Stop Process

/-- What the calls made at the start get back. -/
structure BootAnswers where
  /-- The descriptor of the connection `mysql_real_connect` opens. -/
  connect : Option Int
  connectError : String := ""
  socket : Option Int
  setsockoptFails : Bool := false
  bindFails : Bool := false
  /-- The port that `bind` chooses where the address names none. -/
  ephemeral : Nat
  listenFails : Bool := false
  fcntl : FcntlAnswer := .done
  epollCreate : Option Int
  ctlFails : Bool := false
  callocFails : Bool := false

/-- A part of the server that runs before the loop. -/
def lift {α : Type} (x : Proc α) : Boot α := fun p =>
  match x p.server with
  | .ok a s => .ok a { p with server := s }
  | .error e s => .error e { p with server := s }

def printf (line : String) : Boot PUnit := modify fun p => { p with output := p.output ++ [line] }

def openFd (fd : Int) (r : Resource) : Boot PUnit :=
  lift (modify fun s => { s with fds := Function.update s.fds fd (some r) })

def mysqlConn (ans : BootAnswers) : Boot (Option Int) :=
  match ans.connect with
  | none => do
    printf ("mysql_conn: Fail : mysql_real_connectr [" ++ ans.connectError ++ "]\n\n")
    pure none
  | some fd => do
    openFd fd .database
    pure (some fd)

/-- The conversion of an `int` to the `uint16_t` of `htons`. -/
def uint16 (i : Int) : Nat := (i % 2 ^ 16).toNat

/-- The bytes of a `uint16_t` the other way round. -/
def htons (n : Nat) : Nat := n % 256 * 256 + n / 256

/-- A call on the listening socket that may fail. -/
def onSocket (fails : Bool) (msg : String) (f : Socket → Socket) : Boot PUnit :=
  if fails then lift (perrorDie msg) else modify fun p => { p with socket := f p.socket }

/-- The port of an address, which is in network order; any port for zero. -/
def portOf (ans : BootAnswers) (sinPort : Nat) : Nat :=
  if htons sinPort = 0 then ans.ephemeral else htons sinPort

def listenInetSocket (ans : BootAnswers) (portnum : Int) : Boot Int :=
  match ans.socket with
  | none => lift (perrorDie "ERROR opening socket")
  | some sockfd => do
    openFd sockfd .listener
    onSocket ans.setsockoptFails "setsockopt" fun k => { k with reuseAddr := true }
    let sinPort := htons (uint16 portnum)
    onSocket ans.bindFails "ERROR on binding" fun k => { k with port := some (portOf ans sinPort) }
    onSocket ans.listenFails "ERROR on listen" fun k => { k with backlog := some N_BACKLOG }
    pure sockfd

def makeListenerNonBlocking (ans : BootAnswers) : Boot PUnit := do
  lift (makeSocketNonBlocking { fcntl := ans.fcntl })
  modify fun p => { p with socket := { p.socket with nonBlocking := true } }

/-- How `main` gets to its loop, or does not. -/
inductive Outcome where
  | returned (code : Int)
  | loops (listener epollfd dbfd : Int)
  deriving DecidableEq, Repr

def portnumOf : List Bytes → Int
  | _ :: arg :: _ => atoi arg
  | _ => 88

/-- `main`, up to its loop. -/
def mainStart (ans : BootAnswers) (argv : List Bytes) : Boot Outcome := do
  match ← mysqlConn ans with
  | none =>
    printf "main: Fail : conn databases\n"
    pure (.returned (-1))
  | some conn =>
    let portnum := portnumOf argv
    printf ("Serving on port " ++ toString portnum ++ "\n")
    let listener ← listenInetSocket ans portnum
    makeListenerNonBlocking ans
    match ans.epollCreate with
    | none => lift (perrorDie "epoll_create1")
    | some epollfd =>
      openFd epollfd .epoll
      lift (epollCtlAdd { ctlFails := ans.ctlFails } listener ⟨true, false⟩)
      if ans.callocFails then lift (throw (.die "Unable to allocate memory for epoll_events"))
      else pure (.loops listener epollfd conn)

/-- A process at its start, on a database with the given table. -/
def Process.exec (table : Table) (session : Session) : Process where
  server :=
    { fds := fun _ => none
      epoll := fun _ => none
      table := table
      slots := fun _ => zeroSlot
      session := session
      batch := []
      nextConn := 0
      trace := []
      stopped := none }
  socket := {}
  output := []

/-- `fd` is the descriptor the kernel gives where those of `taken` are open. -/
structure Lowest (taken : List Int) (fd : Int) : Prop where
  nonneg : 0 ≤ fd
  free : fd ∉ taken
  least : ∀ g, 0 ≤ g → g < fd → g ∈ taken

/-- What the kernel gives to a process that inherits some descriptors. -/
structure BootAnswers.Valid (inherited : List Int) (ans : BootAnswers) : Prop where
  connect : ∀ fd ∈ ans.connect, Lowest inherited fd
  socket : ∀ d ∈ ans.connect, ∀ fd ∈ ans.socket, Lowest (d :: inherited) fd
  epollCreate : ∀ d ∈ ans.connect, ∀ l ∈ ans.socket, ∀ fd ∈ ans.epollCreate, Lowest (l :: d :: inherited) fd
  ephemeral : 0 < ans.ephemeral ∧ ans.ephemeral < 2 ^ 16

end Startup

end CmdAgent
