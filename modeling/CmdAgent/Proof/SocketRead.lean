import CmdAgent.Impl.SocketRead
import CmdAgent.Proof.Read
import Mathlib.Data.Stream.Init

/-!
# `socket_read` on its memory

`Locals.Holds` is the invariant of the loop: both counters are the number of
bytes read so far, and the block starts with these bytes. An iteration keeps it
(`Locals.Holds.grow`), so what an iteration does is a matter of the bytes read,
and of one byte more: the one past the block, which the second comparison of
the stop test looks at (`readTurn_data`). A call gets by without it only if it
ends with its first `recv` (`receivedOnly_iff`).
-/

namespace CmdAgent

variable {heap : Heap} {k : Nat} {l : Locals} {acc : Bytes} {results : List RecvResult} {chunk : Chunk}
  {found : Nat → Byte}

def Chunk.EndsInNul (c : Chunk) : Prop := c.bytes.getLast c.ne_nil = 0

instance (c : Chunk) : Decidable c.EndsInNul := inferInstanceAs (Decidable (_ = _))

/-! ## One iteration -/

/-- The variables when the bytes `acc` have been read. -/
structure Locals.Holds (l : Locals) (acc : Bytes) : Prop where
  recvData : l.recvData.Holds acc
  recvLen : l.recvLen = acc.length
  offset : l.offset = acc.length

theorem Locals.init_holds (heap : Heap) : (Locals.init heap).Holds [] := ⟨.nil, rfl, rfl⟩

section Grow

variable (h : l.Holds acc)

include h

theorem Locals.Holds.grow_recvLen : (l.grow found chunk).recvLen = (acc ++ chunk.bytes).length := by
  rw [Locals.grow, h.recvLen, List.length_append]; rfl

theorem Locals.Holds.grow_offset : (l.grow found chunk).offset = (acc ++ chunk.bytes).length := by
  rw [Locals.grow, h.offset, List.length_append]

theorem Locals.Holds.grow_recvData : (l.grow found chunk).recvData =
    (l.recvData.realloc (acc ++ chunk.bytes).length found).write acc.length chunk.bytes := by
  have hlen : (l.recvLen + chunk.bytes.length).toNat = (acc ++ chunk.bytes).length := by
    rw [h.recvLen, List.length_append]; rfl
  rw [Locals.grow, hlen, h.offset]

theorem Locals.Holds.grow_size : (l.grow found chunk).recvData.size = (acc ++ chunk.bytes).length := by
  rw [h.grow_recvData]; rfl

/-- The chunk is read behind the bytes read so far. -/
theorem Locals.Holds.grow : (l.grow found chunk).Holds (acc ++ chunk.bytes) where
  recvData := by
    rw [h.grow_recvData]
    exact Block.holds_write (Block.holds_realloc h.recvData (by simp)) le_rfl
  recvLen := h.grow_recvLen
  offset := h.grow_offset

theorem Locals.Holds.grow_contents : (l.grow found chunk).recvData.contents = acc ++ chunk.bytes :=
  h.grow.recvData.contents_eq h.grow_size

/-- The first comparison of the stop test looks at the last byte of the chunk. -/
theorem Locals.Holds.grow_last :
    (l.grow found chunk).recvData.cells ((l.grow found chunk).recvLen - 1).toNat =
      chunk.bytes.getLast chunk.ne_nil := by
  have hi : ((l.grow found chunk).recvLen - 1).toNat = (acc ++ chunk.bytes).length - 1 := by
    rw [h.grow_recvLen]; omega
  rw [hi, h.grow.recvData.cells_last chunk.ne_nil]

/-- The second looks past the block. -/
theorem Locals.Holds.grow_past :
    (l.grow found chunk).recvData.cells (l.grow found chunk).recvLen.toNat =
      found (acc ++ chunk.bytes).length := by
  have hi : (l.grow found chunk).recvLen.toNat = (acc ++ chunk.bytes).length := by
    rw [h.grow_recvLen]; rfl
  rw [hi, h.grow_recvData, Block.write_past (by rw [List.length_append]), Block.realloc_past le_rfl]

end Grow

/-- The record of an iteration that reads `chunk` behind `n` bytes, up to the
first comparison of the stop test. -/
def chunkLog (n : Nat) (chunk : Chunk) : List Effect :=
  let m := n + chunk.bytes.length
  [.recv (.data chunk), .counters m m] ++ writes m n chunk.bytes.length ++ [.access m (m - 1)]

/-- What the loop does with a chunk. -/
theorem readTurn_data (h : l.Holds acc) (found : Nat → Byte) (chunk : Chunk) :
    readTurn found l (.data chunk) =
      let m := (acc ++ chunk.bytes).length
      if INT_MAX < m then (.returns (.error (.undefined "recv_len")), [.recv (.data chunk), .counters m m])
      else if chunk.EndsInNul then (.returns (.ok (some (acc ++ chunk.bytes), 0)), chunkLog acc.length chunk)
      else if found m = 0 then
        (.returns (.ok (some (acc ++ chunk.bytes), 0)), chunkLog acc.length chunk ++ [.access m m])
      else (.goesOn (l.grow found chunk), chunkLog acc.length chunk ++ [.access m m]) := by
  -- the bytes the stop test reads first, while its indices are still `recv_len - 1` and `recv_len`
  simp only [readTurn, h.grow_last, h.grow_past]
  simp only [h.grow_contents, h.grow_size, h.grow_recvLen, h.grow_offset, h.offset, Chunk.EndsInNul, chunkLog,
    List.length_append]

/-! ## The record -/

def Effect.recv? : Effect → Option RecvResult
  | .recv r => some r
  | .counters .. | .access .. => none

/-- The results of `recv` that a call has consumed. -/
def Call.consumed (c : Call) : List RecvResult := c.log.filterMap Effect.recv?

@[simp] theorem Call.result_after (log : List Effect) (c : Call) : (c.after log).result = c.result := rfl
@[simp] theorem Call.left_after (log : List Effect) (c : Call) : (c.after log).left = c.left := rfl
@[simp] theorem Call.log_after (log : List Effect) (c : Call) : (c.after log).log = log ++ c.log := rfl

theorem Call.consumed_after (log : List Effect) (c : Call) :
    (c.after log).consumed = log.filterMap Effect.recv? ++ c.consumed := List.filterMap_append

theorem recv?_writes (size offset n : Nat) : (writes size offset n).filterMap Effect.recv? = [] := by
  refine List.filterMap_eq_nil_iff.mpr fun e he => ?_
  obtain ⟨i, -, rfl⟩ := List.mem_map.mp he
  rfl

/-- An iteration consumes one result. -/
theorem recv?_readTurn (found : Nat → Byte) (l : Locals) (r : RecvResult) :
    (readTurn found l r).2.filterMap Effect.recv? = [r] := by
  cases r with
  | eof => rfl
  | wouldBlock => rfl
  | failed => rfl
  | data chunk =>
    simp only [readTurn]
    split_ifs
    · rfl
    all_goals
      simp only [List.filterMap_append, recv?_writes]
      rfl

/-- What the loop consumes and what it leaves. -/
theorem consumed_readLoop (heap : Heap) (k : Nat) (l : Locals) (results : List RecvResult) :
    (readLoop heap k l results).consumed ++ (readLoop heap k l results).left = results := by
  induction results generalizing k l with
  | nil => rfl
  | cons r rest ih =>
    have hr := recv?_readTurn (heap k) l r
    rw [readLoop]
    split
    · rename_i result log ht
      rw [ht] at hr
      rw [Call.consumed, hr]
      rfl
    · rename_i l' log ht
      rw [ht] at hr
      rw [Call.consumed_after, hr, Call.left_after, List.append_assoc, ih, List.singleton_append]

theorem consumed_socketReadIn (heap : Heap) (results : List RecvResult) :
    (socketReadIn heap results).consumed ++ (socketReadIn heap results).left = results := by
  rw [socketReadIn, Call.consumed_after, recv?_writes]
  exact consumed_readLoop heap 1 _ results

/-! ## Reading past the block -/

/-- An access of `recv_data` is at an index below the size last allocated. -/
def Effect.InBlock : Effect → Prop
  | .access size index => 0 ≤ index ∧ index < size
  | .recv _ | .counters .. => True

/-- The number of bytes received. -/
def arrived : List RecvResult → Nat
  | [] => 0
  | .data chunk :: rest => chunk.bytes.length + arrived rest
  | .eof :: rest | .wouldBlock :: rest | .failed :: rest => arrived rest

/-- The size of the `k`-th block allocated. -/
def allocated (results : List RecvResult) : Nat → Nat
  | 0 => MAX_RECV_BUFF_SIZE
  | k + 1 => arrived (results.take (k + 1))

/-- The heaps differ past the blocks only. -/
def DifferPast (results : List RecvResult) (heap heap' : Heap) : Prop :=
  ∀ k i, i < allocated results k → heap k i = heap' k i

/-- The code in `*ret` and the bytes returned, and how much was consumed. -/
def Call.outcome (c : Call) : Option (Except Stop ReadResult) × Nat := (c.result, c.consumed.length)

/-- `socket_read` stays within its blocks, and what lies past them makes no
difference. -/
structure ReceivedOnly (results : List RecvResult) : Prop where
  inBlock : ∀ heap, ∀ e ∈ (socketReadIn heap results).log, e.InBlock
  outcome : ∀ heap heap', DifferPast results heap heap' →
    (socketReadIn heap results).outcome = (socketReadIn heap' results).outcome

/-- The first `recv` brings no bytes, or bytes that end in NUL. -/
def FirstEnds : List RecvResult → Prop
  | .data chunk :: _ => chunk.EndsInNul
  | _ => True

theorem inBlock_writes {size offset n : Nat} (h : offset + n ≤ size) : ∀ e ∈ writes size offset n, e.InBlock := by
  intro e he
  obtain ⟨i, hi, rfl⟩ := List.mem_map.mp he
  have hi := List.mem_range.mp hi
  exact ⟨by omega, by omega⟩

/-- Up to the first comparison of the stop test, an iteration stays within its
block. -/
theorem inBlock_chunkLog (n : Nat) (chunk : Chunk) : ∀ e ∈ chunkLog n chunk, e.InBlock := by
  have hpos := List.length_pos_iff.mpr chunk.ne_nil
  intro e he
  simp only [chunkLog, List.mem_append, List.mem_cons, List.not_mem_nil, or_false] at he
  obtain ((rfl | rfl) | he) | rfl := he
  · trivial
  · trivial
  · exact inBlock_writes le_rfl e he
  · exact ⟨by omega, by omega⟩

theorem recv?_chunkLog (n : Nat) (chunk : Chunk) : (chunkLog n chunk).filterMap Effect.recv? = [.data chunk] := by
  simp only [chunkLog, List.filterMap_append, recv?_writes]
  rfl

/-- A loop that has returned has consumed something. -/
theorem consumed_ne_nil (h : (readLoop heap k l results).result ≠ none) :
    (readLoop heap k l results).consumed ≠ [] := by
  cases results with
  | nil => exact absurd rfl h
  | cons r rest =>
    intro hnil
    have hr := recv?_readTurn (heap k) l r
    rw [readLoop] at hnil
    split at hnil
    · rename_i result log ht
      rw [ht] at hr
      rw [Call.consumed, hr] at hnil
      cases hnil
    · rename_i l' log ht
      rw [ht] at hr
      rw [Call.consumed_after, hr] at hnil
      cases hnil

/-- What a call does with its first chunk. -/
theorem readTurn_first (heap : Heap) (chunk : Chunk) :
    readTurn (heap 1) (.init heap) (.data chunk) =
      let m := chunk.bytes.length
      if chunk.EndsInNul then (.returns (.ok (some chunk.bytes, 0)), chunkLog 0 chunk)
      else if heap 1 m = 0 then (.returns (.ok (some chunk.bytes, 0)), chunkLog 0 chunk ++ [.access m m])
      else (.goesOn ((Locals.init heap).grow (heap 1) chunk), chunkLog 0 chunk ++ [.access m m]) := by
  have hle : ¬ INT_MAX < (([] ++ chunk.bytes).length : Int) := by
    have h : chunk.bytes.length ≤ 256 := chunk.length_le
    rw [List.nil_append, INT_MAX]
    omega
  rw [readTurn_data (Locals.init_holds heap), if_neg hle]
  rfl

section First

variable (rest : List RecvResult)

theorem socketReadIn_nul (heap : Heap) (h : chunk.EndsInNul) :
    socketReadIn heap (.data chunk :: rest) =
      Call.after (writes MAX_RECV_BUFF_SIZE 0 MAX_RECV_BUFF_SIZE)
        ⟨some (.ok (some chunk.bytes, 0)), rest, chunkLog 0 chunk⟩ := by
  have ht := readTurn_first heap chunk
  rw [if_pos h] at ht
  rw [socketReadIn, readLoop, ht]

theorem socketReadIn_stray (h : ¬ chunk.EndsInNul) (h₀ : heap 1 chunk.bytes.length = 0) :
    socketReadIn heap (.data chunk :: rest) =
      Call.after (writes MAX_RECV_BUFF_SIZE 0 MAX_RECV_BUFF_SIZE)
        ⟨some (.ok (some chunk.bytes, 0)), rest,
          chunkLog 0 chunk ++ [.access chunk.bytes.length chunk.bytes.length]⟩ := by
  have ht := readTurn_first heap chunk
  rw [if_neg h, if_pos h₀] at ht
  rw [socketReadIn, readLoop, ht]

theorem socketReadIn_goesOn (h : ¬ chunk.EndsInNul) (h₀ : heap 1 chunk.bytes.length ≠ 0) :
    socketReadIn heap (.data chunk :: rest) =
      ((readLoop heap 2 ((Locals.init heap).grow (heap 1) chunk) rest).after
        (chunkLog 0 chunk ++ [.access chunk.bytes.length chunk.bytes.length])).after
        (writes MAX_RECV_BUFF_SIZE 0 MAX_RECV_BUFF_SIZE) := by
  have ht := readTurn_first heap chunk
  rw [if_neg h, if_neg h₀] at ht
  rw [socketReadIn, readLoop, ht]

/-- After a chunk that does not end in NUL, the byte past the block is read. -/
theorem access_past (heap : Heap) (h : ¬ chunk.EndsInNul) :
    Effect.access chunk.bytes.length chunk.bytes.length ∈ (socketReadIn heap (.data chunk :: rest)).log := by
  by_cases h₀ : heap 1 chunk.bytes.length = 0
  · rw [socketReadIn_stray rest h h₀]
    simp
  · rw [socketReadIn_goesOn rest h h₀]
    simp

/-- It decides whether the call ends here. -/
theorem outcome_stray (h : ¬ chunk.EndsInNul) {heap' : Heap} (h₀ : heap 1 chunk.bytes.length = 0)
    (h₁ : heap' 1 chunk.bytes.length ≠ 0) :
    (socketReadIn heap (.data chunk :: rest)).outcome ≠ (socketReadIn heap' (.data chunk :: rest)).outcome := by
  intro heq
  obtain ⟨hresult, hlen⟩ := Prod.mk.inj heq
  rw [socketReadIn_stray rest h h₀, socketReadIn_goesOn rest h h₁] at hresult hlen
  generalize hc : readLoop heap' 2 ((Locals.init heap').grow (heap' 1) chunk) rest = c at hresult hlen
  have hlog : List.filterMap Effect.recv?
      (chunkLog 0 chunk ++ [.access chunk.bytes.length chunk.bytes.length]) = [.data chunk] := by
    rw [List.filterMap_append, recv?_chunkLog]
    rfl
  rw [Call.consumed_after, Call.consumed_after, Call.consumed_after, recv?_writes, hlog] at hlen
  -- with the first heap the call has consumed one result, with the second it has returned later
  have hone : ([] ++ [RecvResult.data chunk]).length = ([] ++ ([RecvResult.data chunk] ++ c.consumed)).length := by
    rw [← hlen, Call.consumed, hlog]
  have hnil : c.consumed = [] := List.eq_nil_of_length_eq_zero (by simpa using hone)
  rw [← hc] at hnil hresult
  exact consumed_ne_nil (fun hnone => absurd (hresult.trans hnone) (by simp)) hnil

end First

theorem inBlock_iff : (∀ heap, ∀ e ∈ (socketReadIn heap results).log, e.InBlock) ↔ FirstEnds results := by
  have hinit : ∀ e ∈ writes MAX_RECV_BUFF_SIZE 0 MAX_RECV_BUFF_SIZE, e.InBlock := inBlock_writes le_rfl
  -- a call that ends without a chunk accesses its first block only
  have hsole : ∀ r : RecvResult, ∀ e ∈ writes MAX_RECV_BUFF_SIZE 0 MAX_RECV_BUFF_SIZE ++ [.recv r], e.InBlock := by
    intro r e he
    obtain he | he := List.mem_append.mp he
    · exact hinit e he
    · rw [List.mem_singleton.mp he]; trivial
  match results with
  | [] => exact ⟨fun _ => trivial, fun _ heap e he => hinit e (by simpa [socketReadIn, readLoop] using he)⟩
  | .eof :: rest => exact ⟨fun _ => trivial, fun _ heap => hsole .eof⟩
  | .wouldBlock :: rest => exact ⟨fun _ => trivial, fun _ heap => hsole .wouldBlock⟩
  | .failed :: rest => exact ⟨fun _ => trivial, fun _ heap => hsole .failed⟩
  | .data chunk :: rest =>
    constructor
    · intro h
      by_contra hn
      have hpast : Effect.InBlock _ := h (fun _ _ => 0) _ (access_past rest _ hn)
      exact absurd hpast.2 (lt_irrefl _)
    · intro hnul heap e he
      rw [socketReadIn_nul rest heap hnul] at he
      obtain he | he := List.mem_append.mp he
      · exact hinit e he
      · exact inBlock_chunkLog 0 chunk e he

theorem Locals.init_contents (heap : Heap) :
    (Locals.init heap).recvData.contents = List.replicate MAX_RECV_BUFF_SIZE 0 := by
  have hfill : (List.replicate MAX_RECV_BUFF_SIZE (0 : Byte)).length = MAX_RECV_BUFF_SIZE := List.length_replicate
  refine Block.Holds.contents_eq (Block.holds_write .nil ?_) ?_
  · rw [List.nil_append, hfill]; rfl
  · exact hfill.symm

/-- If the first chunk ends in NUL, no part of the heap makes a difference. -/
theorem outcome_eq_of_firstEnds (h : FirstEnds results) (heap heap' : Heap) :
    (socketReadIn heap results).outcome = (socketReadIn heap' results).outcome := by
  match results with
  | [] => rfl
  | .eof :: rest => rfl
  | .wouldBlock :: rest =>
    simp only [Call.outcome, Call.consumed, socketReadIn, readLoop, readTurn, Call.after, Locals.init_contents]
  | .failed :: rest =>
    simp only [Call.outcome, Call.consumed, socketReadIn, readLoop, readTurn, Call.after, Locals.init_contents]
  | .data chunk :: rest => rw [socketReadIn_nul rest heap h, socketReadIn_nul rest heap' h]

theorem outcome_eq_iff :
    (∀ heap heap', DifferPast results heap heap' →
      (socketReadIn heap results).outcome = (socketReadIn heap' results).outcome) ↔ FirstEnds results := by
  constructor
  · intro h
    match results with
    | [] | .eof :: _ | .wouldBlock :: _ | .failed :: _ => trivial
    | .data chunk :: rest =>
      by_contra hn
      -- two heaps that differ in the byte past the first chunk
      let heap : Heap := fun k i => if k = 1 ∧ i = chunk.bytes.length then 0 else 1
      have hpast : DifferPast (.data chunk :: rest) heap fun _ _ => 1 := by
        intro k i hi
        refine if_neg fun hki => ?_
        obtain ⟨rfl, rfl⟩ := hki
        exact absurd hi (by simp [allocated, arrived])
      exact outcome_stray rest hn (if_pos ⟨rfl, rfl⟩) (by decide) (h _ _ hpast)
  · intro h heap heap' _
    exact outcome_eq_of_firstEnds h heap heap'

/-- `socket_read` depends on the bytes received only, if and only if the first
`recv` brings none, or bytes that end in NUL. -/
theorem receivedOnly_iff (results : List RecvResult) : ReceivedOnly results ↔ FirstEnds results := by
  constructor
  · intro h
    exact inBlock_iff.mp h.inBlock
  · intro h
    exact ⟨inBlock_iff.mpr h, outcome_eq_iff.mpr h⟩

/-- A chunk of one byte. -/
def byteChunk (b : Byte) : Chunk := ⟨[b], List.cons_ne_nil _ _, show 1 ≤ MAX_RECV_BUFF_SIZE by decide⟩

/-- A message of which one byte has arrived. -/
theorem receivedOnly_piece : ¬ ∀ results, ReceivedOnly results := by
  intro h
  have hpast : Effect.InBlock _ :=
    (h [.data (byteChunk 97)]).inBlock (fun _ _ => 0) _ (access_past [] _ (by decide))
  exact absurd hpast.2 (lt_irrefl _)

end CmdAgent
