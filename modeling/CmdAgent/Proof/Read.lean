import CmdAgent.Impl.Main

/-!
# What `socket_read` returns

The buffer of `socket_read` holds the chunks read so far, one after the other
(`memcpy_realloc`), so the loop is determined by these bytes alone:
`readEnds` is the loop over them, and `ReadEnd` the five ways it ends, as
`on_peer_ready_recv` tells them apart (`socketRead_eq`,
`onPeerReadyRecv_eq`).
-/

namespace CmdAgent

inductive ReadEnd where
  | eof
  | again
  | failed
  | frame (data : Bytes)
  /-- `recv_len` overflows. -/
  | overflow
  deriving DecidableEq, Repr

/-- The loop of `socket_read` when the chunks read so far are `acc`. -/
def readEnds (acc : Bytes) : List Recv → Option (ReadEnd × List Recv)
  | [] => none
  | .eof :: rest => some (.eof, rest)
  | .wouldBlock :: rest => some (.again, rest)
  | .failed :: rest => some (.failed, rest)
  | .data chunk stray :: rest =>
    if INT_MAX < (acc ++ chunk).length then some (.overflow, rest)
    else if (acc ++ chunk).getLast? = some 0 ∨ stray = 0 then some (.frame (acc ++ chunk), rest)
    else readEnds (acc ++ chunk) rest

/-- How `on_peer_ready_recv` reads a result. -/
def ReadEnd.ofResult : Except Stop ReadResult → ReadEnd
  | .error _ => .overflow
  | .ok (none, _) => .eof
  | .ok (some data, ret) =>
    if ret = -1 then .eof else if ret = -2 then .again else if ret = -3 then .failed else .frame data

/-- Growing the buffer to hold one more chunk and copying the chunk behind
the bytes read so far appends it to them. -/
theorem memcpy_realloc {buf acc : Bytes} (h : buf.take acc.length = acc) (chunk : Bytes) :
    memcpy (realloc buf (acc ++ chunk).length) acc.length chunk = acc ++ chunk := by
  have hle : acc.length ≤ buf.length := by
    have := congrArg List.length h
    rw [List.length_take] at this
    omega
  have hlen : (realloc buf (acc ++ chunk).length).length = acc.length + chunk.length := by
    simp only [realloc, List.length_append, List.length_take, List.length_replicate]
    omega
  have htake : (realloc buf (acc ++ chunk).length).take acc.length = acc := by
    rw [realloc, List.take_append_of_le_length (by simp; omega), List.take_take,
      min_eq_left (by simp), h]
  rw [memcpy, htake, List.drop_eq_nil_of_le hlen.le, List.append_nil]

/-- What the loop does with a chunk, when the chunks read so far are `acc`. -/
theorem socketReadLoop_data {buf acc : Bytes} (h : buf.take acc.length = acc) (chunk : Bytes) (stray : Byte)
    (rest : List Recv) :
    socketReadLoop buf acc.length acc.length (.data chunk stray :: rest) =
      if INT_MAX < (acc ++ chunk).length then some (.error (.undefined "recv_len"), rest)
      else if (acc ++ chunk).getLast? = some 0 ∨ stray = 0 then some (.ok (some (acc ++ chunk), 0), rest)
      else socketReadLoop (acc ++ chunk) (acc ++ chunk).length (acc ++ chunk).length rest := by
  have hl : (acc.length : Int) + chunk.length = ((acc ++ chunk).length : Int) := by simp
  have hi : (((acc ++ chunk).length : Int) - 1).toNat = (acc ++ chunk).length - 1 := by omega
  simp only [socketReadLoop, hl, Int.toNat_natCast, memcpy_realloc h, hi, ← List.getLast?_eq_getElem?,
    ← List.length_append]

theorem socketReadLoop_eq (recvs : List Recv) {buf acc : Bytes} (h : buf.take acc.length = acc) :
    (socketReadLoop buf acc.length acc.length recvs).map (Prod.map ReadEnd.ofResult id) =
      readEnds acc recvs := by
  induction recvs generalizing buf acc with
  | nil => rfl
  | cons r rest ih =>
    cases r with
    | eof => rfl
    | wouldBlock => rfl
    | failed => rfl
    | data chunk stray =>
      rw [socketReadLoop_data h, readEnds]
      split
      · rfl
      · split
        · rfl
        · exact ih (by rw [List.take_length])

/-- `socket_read` as a loop over the bytes it receives. -/
theorem socketRead_eq (recvs : List Recv) :
    (socketRead recvs).map (Prod.map ReadEnd.ofResult id) = readEnds [] recvs := by
  have h : (List.replicate MAX_RECV_BUFF_SIZE (0 : Byte)).take ([] : Bytes).length = [] := rfl
  exact socketReadLoop_eq recvs h

variable (P : Params)

/-- `on_peer_ready_recv` once `socket_read` has returned. -/
def onRead (ans : Answers) (fd : Int) : Option ReadEnd → Proc FdStatus
  | none => undefined "recv"
  | some .overflow => undefined "recv_len"
  | some .eof => pure fdStatusNORW
  | some .again => pure fdStatusR
  | some .failed => perrorDie "recv"
  | some (.frame data) => do
    emitAt fd fun conn => .handed fd conn (cstr data)
    serve P ans fd (parseStringToJson P.json (cstr data))
    pure fdStatusR

/-- The only undefined behaviour of `socket_read` is the overflow of
`recv_len`. -/
theorem socketReadLoop_error {recvs : List Recv} {buf : Bytes} {n : Int} {k : Nat} {e : Stop}
    {rest : List Recv} (h : socketReadLoop buf n k recvs = some (.error e, rest)) :
    e = .undefined "recv_len" := by
  induction recvs generalizing buf n k with
  | nil => simp [socketReadLoop] at h
  | cons r recvs ih =>
    cases r with
    | eof => simp [socketReadLoop] at h
    | wouldBlock => simp [socketReadLoop] at h
    | failed => simp [socketReadLoop] at h
    | data chunk stray =>
      simp only [socketReadLoop] at h
      split at h
      · simp only [Option.some.injEq, Prod.mk.injEq, Except.error.injEq] at h
        exact h.1.symm
      · split at h
        · simp at h
        · exact ih h

theorem onPeerReadyRecv_eq (ans : Answers) (fd : Int) :
    onPeerReadyRecv P ans fd = (do
      assertLtMaxfds fd
      let _ ← getSlot fd
      emitAt fd fun conn => .received fd conn ans.recvs
      onRead P ans fd ((readEnds [] ans.recvs).map Prod.fst)) := by
  unfold onPeerReadyRecv
  refine congrArg _ (funext fun _ => congrArg _ (funext fun _ => congrArg _ (funext fun _ => ?_)))
  rw [← socketRead_eq]
  rcases hr : socketRead ans.recvs with _ | ⟨r, rest⟩
  · rfl
  · rcases r with e | ⟨_ | data, ret⟩
    · rw [socketReadLoop_error hr]; rfl
    · rfl
    · simp only [Option.map_some, Prod.map_fst, ReadEnd.ofResult]
      split
      · rfl
      split
      · rfl
      split <;> rfl

end CmdAgent
