import CmdAgent.Framework.Text

/-!
# The data types of the server (`main.h`, `main.c`)

The constants, enumerations and records of `main.h` and `main.c`. A `char *`
is what a read through it finds (`CharPtr`): the session's pointers refer to
strings owned by a JSON object, and stay behind when it is released, so a
pointer is null, or unreadable, or leads to the bytes of a C string.

`client_fd` and `seg_fin` of `session_t` are read and written by no function
and are left out.
-/

namespace CmdAgent

def MAXFDS : Int := 16 * 1024
def SYNACK_LEN : Int := 8
def MAX_RECV_BUFF_SIZE : Nat := 256
def QUERY_LEN : Nat := 256

/-- `AGENT_TYPE_LINUX_NVIDIA` -/
def agentTypeLinuxNvidia : Bytes := ascii "linux-claymore-nvidia"

/-- `AGENT_TYPE_UX` -/
def agentTypeUx : Bytes := ascii "ux"

/-- The key every UX message registers under. -/
def uxSession : Bytes := ascii "UX_SESSION"

inductive AgentType where
  | reqInvalid
  | reqUx
  | reqLinuxClaymore
  | reqWindowClaymore
  deriving DecidableEq, Repr

/-- The value of the C enumeration. -/
def AgentType.toInt : AgentType → Int
  | .reqInvalid => 0
  | .reqUx => 1
  | .reqLinuxClaymore => 2
  | .reqWindowClaymore => 3

theorem AgentType.isInt32_toInt (t : AgentType) : IsInt32 t.toInt := by cases t <;> decide

/-- An agent type is printed as one digit. -/
theorem AgentType.length_printD_toInt (t : AgentType) : (printD t.toInt).length = 1 := by cases t <;> decide

theorem AgentType.toInt_inj {t t' : AgentType} : t.toInt = t'.toInt ↔ t = t' := by
  cases t <;> cases t' <;> decide

inductive CharPtr where
  | null
  /-- Uninitialised, or into released memory that can no longer be read. -/
  | wild
  | str (s : Bytes)
  deriving DecidableEq, Repr

/-- The string the pointer leads to. -/
def CharPtr.str? : CharPtr → Option Bytes
  | .str s => some s
  | .null | .wild => none

theorem CharPtr.str?_eq_some {p : CharPtr} {s : Bytes} : p.str? = some s ↔ p = .str s := by
  cases p <;> simp [CharPtr.str?]

structure Session where
  fd : Int
  agentType : AgentType
  cmdType : CharPtr
  minerMac : CharPtr
  path : CharPtr
  pathInstall : CharPtr
  sequence : Int
  deriving DecidableEq, Repr

inductive ProcessingState where
  | initialAck
  | waitForMsg
  | inMsg
  deriving DecidableEq, Repr

/-- `peer_state_t`: `sendData` is null or leads to a buffer. -/
structure PeerState where
  state : ProcessingState
  sendData : Option Bytes
  sendbufEnd : Int
  sendptr : Int
  deriving DecidableEq, Repr

structure FdStatus where
  wantRead : Bool
  wantWrite : Bool
  deriving DecidableEq, Repr

def fdStatusR : FdStatus := ⟨true, false⟩
def fdStatusW : FdStatus := ⟨false, true⟩
def fdStatusRW : FdStatus := ⟨true, true⟩
def fdStatusNORW : FdStatus := ⟨false, false⟩

/-- How the process can end: `perror_die` and `die` with their message, a
failed `assert`, the signal a `send` to a connection closed by its peer
raises, or undefined behaviour at the given call. -/
inductive Stop where
  | die (msg : String)
  | assertFailed
  | sigpipe
  | undefined (call : String)
  deriving DecidableEq, Repr

end CmdAgent
