import CmdAgent.Impl.Session
import CmdAgent.Framework.Block

/-!
# `socket_read` on its memory (`session.c`)

The same function as `socketRead`, one level below: `recv_data` is a block of
the heap, what `malloc` and `realloc` find there and what lies past the block
is a parameter (`Heap`), and a call keeps a record of its calls of `recv`, of
its counters and of the indices it accesses `recv_data` at.

A call takes the results of its calls of `recv` from a list, and has not
returned yet when the list ends first.
-/

namespace CmdAgent

/-- The bytes one `recv` gives. -/
structure Chunk where
  bytes : Bytes
  ne_nil : bytes ≠ []
  length_le : bytes.length ≤ MAX_RECV_BUFF_SIZE
  deriving DecidableEq, Repr

inductive RecvResult where
  | data (chunk : Chunk)
  | eof
  | wouldBlock
  | failed
  deriving DecidableEq, Repr

/-- The memory the allocations of a call find: `heap k i` is the byte at the
index `i` of the block that the `k`-th of them gives, or past it. -/
abbrev Heap := Nat → Nat → Byte

/-- What a call does that its caller does not see. -/
inductive Effect where
  | recv (r : RecvResult)
  /-- The sums of `recv_len += len` and `offset += len`. -/
  | counters (recvLen : Int) (offset : Nat)
  /-- `recv_data[index]` is read or written, and `size` bytes were last
  allocated for `recv_data`. -/
  | access (size : Nat) (index : Int)
  deriving DecidableEq, Repr

/-- The variables an iteration of the loop leaves to the next. -/
structure Locals where
  recvData : Block Byte
  recvLen : Int
  offset : Nat

/-- How an iteration ends. -/
inductive Turn where
  | returns (result : Except Stop ReadResult)
  | goesOn (l : Locals)

/-- A write to the `n` indices from `offset` on. -/
def writes (size offset n : Nat) : List Effect :=
  (List.range n).map fun i : Nat => .access size (offset + i : Nat)

/-- The two additions, `realloc` and `memcpy`. -/
def Locals.grow (l : Locals) (found : Nat → Byte) (chunk : Chunk) : Locals where
  recvData := (l.recvData.realloc (l.recvLen + chunk.bytes.length).toNat found).write l.offset chunk.bytes
  recvLen := l.recvLen + chunk.bytes.length
  offset := l.offset + chunk.bytes.length

/-- The body of the loop, when the next allocation finds `found`. The condition
of the loop, `len >= 0`, is always true: a negative `len` returns. -/
def readTurn (found : Nat → Byte) (l : Locals) (r : RecvResult) : Turn × List Effect :=
  match r with
  | .eof => (.returns (.ok (none, -1)), [.recv r])
  | .wouldBlock => (.returns (.ok (some l.recvData.contents, -2)), [.recv r])
  | .failed => (.returns (.ok (some l.recvData.contents, -3)), [.recv r])
  | .data chunk =>
    let l' := l.grow found chunk
    let added := [.recv r, .counters l'.recvLen l'.offset]
    if INT_MAX < l'.recvLen then (.returns (.error (.undefined "recv_len")), added)
    else
      let size := l'.recvData.size
      let log := added ++ writes size l.offset chunk.bytes.length ++ [.access size (l'.recvLen - 1)]
      -- `recv_data[recv_len - 1] == '\0' || recv_data[recv_len] == '\0'`
      if l'.recvData.cells (l'.recvLen - 1).toNat = 0 then
        (.returns (.ok (some l'.recvData.contents, 0)), log)
      else if l'.recvData.cells l'.recvLen.toNat = 0 then
        (.returns (.ok (some l'.recvData.contents, 0)), log ++ [.access size l'.recvLen])
      else (.goesOn l', log ++ [.access size l'.recvLen])

/-- A call of `socket_read`: its result if it has returned, the results of
`recv` it has left, and its record. -/
structure Call where
  result : Option (Except Stop ReadResult)
  left : List RecvResult
  log : List Effect

def Call.after (log : List Effect) (c : Call) : Call := { c with log := log ++ c.log }

/-- The loop, from its `k`-th allocation on. -/
def readLoop (heap : Heap) (k : Nat) (l : Locals) : List RecvResult → Call
  | [] => ⟨none, [], []⟩
  | r :: rest =>
    match readTurn (heap k) l r with
    | (.returns result, log) => ⟨some result, rest, log⟩
    | (.goesOn l', log) => (readLoop heap (k + 1) l' rest).after log

/-- The variables once `malloc` and `memset` are done. -/
def Locals.init (heap : Heap) : Locals where
  recvData := (Block.malloc MAX_RECV_BUFF_SIZE (heap 0)).write 0 (List.replicate MAX_RECV_BUFF_SIZE 0)
  recvLen := 0
  offset := 0

def socketReadIn (heap : Heap) (results : List RecvResult) : Call :=
  (readLoop heap 1 (.init heap) results).after (writes MAX_RECV_BUFF_SIZE 0 MAX_RECV_BUFF_SIZE)

end CmdAgent
