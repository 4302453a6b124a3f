import CmdAgent.Proof.SocketRead

/-!
# How a call of `socket_read` goes

A call reads chunks that do not end it, and then waits for more, overflows its
counter, or returns at a result that ends it: `Course` is this list of cases,
with the result in each of them (`course_readLoop`), and what follows is read
off it.

A peer that keeps sending without a NUL at the end of a chunk is read until
`recv_len` overflows (`endsWithinCounters_iff`). As long as it cannot overflow,
the chunks are put together in order (`reassembles`).

`socketRead` is what a call does once the byte past the block is part of the
answers (`socketReadIn_eq`).
-/

namespace CmdAgent

variable {heap : Heap} {k : Nat} {l : Locals} {acc : Bytes} {results : List RecvResult} {chunk : Chunk}
  {chunks : List Chunk}

/-! ## The course of a call -/

theorem arrived_append (xs ys : List RecvResult) : arrived (xs ++ ys) = arrived xs + arrived ys := by
  induction xs with
  | nil => simp [arrived]
  | cons r rest ih => cases r <;> simp [arrived, ih, Nat.add_assoc]

/-- The bytes of some chunks, one after the other. -/
def joined (chunks : List Chunk) : Bytes := chunks.flatMap Chunk.bytes

theorem arrived_data (chunks : List Chunk) : arrived (chunks.map .data) = (joined chunks).length := by
  induction chunks with
  | nil => rfl
  | cons c cs ih => simp [arrived, joined, ih]

/-- Chunks that do not end the loop: neither they nor the blocks they are read
into are followed by a NUL. `n` bytes have been read before them, and the next
allocation is the `k`-th. -/
def Passes (heap : Heap) (k n : Nat) : List Chunk → Prop
  | [] => True
  | c :: cs =>
    (¬ c.EndsInNul ∧ heap k (n + c.bytes.length) ≠ 0) ∧ Passes heap (k + 1) (n + c.bytes.length) cs

/-- `last` ends the loop with the result `r`, when `acc` has been read. -/
def EndsWith (heap : Heap) (k : Nat) (acc : Bytes) (last : RecvResult) (r : ReadResult) : Prop :=
  match last with
  | .eof => r = (none, -1)
  | .wouldBlock => ∃ buf, r = (some buf, -2)
  | .failed => ∃ buf, r = (some buf, -3)
  | .data c =>
    (c.EndsInNul ∨ heap k (acc ++ c.bytes).length = 0) ∧ r = (some (acc ++ c.bytes), 0)

/-- How the loop goes from its `k`-th allocation on, when `acc` has been read,
up to its result and the results of `recv` it leaves. -/
inductive Course (heap : Heap) (k : Nat) (acc : Bytes) (results : List RecvResult)
    (result : Option (Except Stop ReadResult)) (left : List RecvResult) : Prop
  | waits (chunks : List Chunk) (hresults : results = chunks.map .data)
    (hpass : Passes heap k acc.length chunks)
    (hmax : (acc.length + arrived (chunks.map .data) : Nat) ≤ INT_MAX)
    (hresult : result = none) (hleft : left = [])
  | overflows (chunks : List Chunk) (last : Chunk) (rest : List RecvResult)
    (hresults : results = chunks.map .data ++ .data last :: rest)
    (hpass : Passes heap k acc.length chunks)
    (hmax : INT_MAX < (acc.length + arrived (chunks.map .data ++ [.data last]) : Nat))
    (hresult : result = some (.error (.undefined "recv_len"))) (hleft : left = rest)
  | returns (chunks : List Chunk) (last : RecvResult) (rest : List RecvResult) (r : ReadResult)
    (hresults : results = chunks.map .data ++ last :: rest)
    (hpass : Passes heap k acc.length chunks)
    (hmax : (acc.length + arrived (chunks.map .data ++ [last]) : Nat) ≤ INT_MAX)
    (hends : EndsWith heap (k + chunks.length) (acc ++ joined chunks) last r)
    (hresult : result = some (.ok r)) (hleft : left = rest)

/-- One more chunk in front. -/
theorem Course.cons {result : Option (Except Stop ReadResult)} {left : List RecvResult}
    (h : Course heap (k + 1) (acc ++ chunk.bytes) results result left) (hnul : ¬ chunk.EndsInNul)
    (hpast : heap k (acc ++ chunk.bytes).length ≠ 0) : Course heap k acc (.data chunk :: results) result left := by
  have hlen : (acc ++ chunk.bytes).length = acc.length + chunk.bytes.length := List.length_append
  have hhead : ∀ {cs : List Chunk}, Passes heap (k + 1) (acc ++ chunk.bytes).length cs →
      Passes heap k acc.length (chunk :: cs) := by
    intro cs hcs
    rw [hlen] at hcs hpast
    exact ⟨⟨hnul, hpast⟩, hcs⟩
  have hsum : ∀ xs : List RecvResult, acc.length + arrived (.data chunk :: xs) =
      (acc ++ chunk.bytes).length + arrived xs := by
    intro xs
    rw [hlen, arrived]
    omega
  cases h with
  | waits chunks hresults hpass hmax hresult hleft =>
    refine .waits (chunk :: chunks) (by rw [hresults]; rfl) (hhead hpass) ?_ hresult hleft
    rw [List.map_cons, hsum]
    exact hmax
  | overflows chunks last rest hresults hpass hmax hresult hleft =>
    refine .overflows (chunk :: chunks) last rest (by rw [hresults]; rfl) (hhead hpass) ?_ hresult hleft
    rw [List.map_cons, List.cons_append, hsum]
    exact hmax
  | returns chunks last rest r hresults hpass hmax hends hresult hleft =>
    refine .returns (chunk :: chunks) last rest r (by rw [hresults]; rfl) (hhead hpass) ?_ ?_ hresult hleft
    · rw [List.map_cons, List.cons_append, hsum]
      exact hmax
    · rw [List.append_assoc] at hends
      rwa [List.length_cons, ← Nat.add_assoc, Nat.add_right_comm]

/-- What the loop does with a chunk: it overflows, returns, or goes on. -/
theorem readLoop_data_cases (heap : Heap) (k : Nat) (h : l.Holds acc) (chunk : Chunk) (rest : List RecvResult) :
    let m := (acc ++ chunk.bytes).length
    (INT_MAX < m ∧ readLoop heap k l (.data chunk :: rest) =
      ⟨some (.error (.undefined "recv_len")), rest, [.recv (.data chunk), .counters m m]⟩) ∨
    (m ≤ INT_MAX ∧ (chunk.EndsInNul ∨ heap k m = 0) ∧ ∃ past, (∀ e ∈ past, e = .access m m) ∧
      readLoop heap k l (.data chunk :: rest) =
        ⟨some (.ok (some (acc ++ chunk.bytes), 0)), rest, chunkLog acc.length chunk ++ past⟩) ∨
    (m ≤ INT_MAX ∧ ¬ chunk.EndsInNul ∧ heap k m ≠ 0 ∧ readLoop heap k l (.data chunk :: rest) =
      (readLoop heap (k + 1) (l.grow (heap k) chunk) rest).after (chunkLog acc.length chunk ++ [.access m m])) := by
  intro m
  have ht := readTurn_data h (heap k) chunk
  by_cases hmax : INT_MAX < m
  · rw [if_pos hmax] at ht
    exact .inl ⟨hmax, by rw [readLoop, ht]⟩
  rw [if_neg hmax] at ht
  by_cases hnul : chunk.EndsInNul
  · rw [if_pos hnul] at ht
    exact .inr (.inl ⟨not_lt.mp hmax, .inl hnul, [], by simp, by rw [readLoop, ht, List.append_nil]⟩)
  rw [if_neg hnul] at ht
  by_cases hpast : heap k m = 0
  · rw [if_pos hpast] at ht
    exact .inr (.inl ⟨not_lt.mp hmax, .inr hpast, [.access m m], by simp, by rw [readLoop, ht]⟩)
  rw [if_neg hpast] at ht
  exact .inr (.inr ⟨not_lt.mp hmax, hnul, hpast, by rw [readLoop, ht]⟩)

theorem course_readLoop (heap : Heap) (k : Nat) (h : l.Holds acc) (hle : acc.length ≤ INT_MAX)
    (results : List RecvResult) :
    Course heap k acc results (readLoop heap k l results).result (readLoop heap k l results).left := by
  induction results generalizing k l acc with
  | nil => exact .waits [] rfl trivial hle rfl rfl
  | cons r rest ih =>
    cases r with
    | eof => exact .returns [] .eof rest _ rfl trivial (by simpa [arrived] using hle) rfl rfl rfl
    | wouldBlock =>
      exact .returns [] .wouldBlock rest _ rfl trivial (by simpa [arrived] using hle) ⟨_, rfl⟩ rfl rfl
    | failed => exact .returns [] .failed rest _ rfl trivial (by simpa [arrived] using hle) ⟨_, rfl⟩ rfl rfl
    | data chunk =>
      obtain ⟨hmax, hloop⟩ | ⟨hmax, hends, past, -, hloop⟩ | ⟨hmax, hnul, hpast, hloop⟩ :=
        readLoop_data_cases heap k h chunk rest
      · rw [hloop]
        exact .overflows [] chunk rest rfl trivial (by simpa [arrived] using hmax) rfl rfl
      · rw [hloop]
        refine .returns [] (.data chunk) rest _ rfl trivial (by simpa [arrived] using hmax) ?_ rfl rfl
        rw [joined, List.flatMap_nil, List.append_nil]
        exact ⟨hends, rfl⟩
      · rw [hloop]
        exact (ih (k + 1) h.grow hmax).cons hnul hpast

/-- How a call goes. -/
theorem course_socketReadIn (heap : Heap) (results : List RecvResult) :
    Course heap 1 [] results (socketReadIn heap results).result (socketReadIn heap results).left :=
  course_readLoop heap 1 (Locals.init_holds heap) (by decide) results

/-! ## The end of a call -/

/-- Once the loop has returned, further results are left. -/
theorem readLoop_append {xs : List RecvResult} (h : (readLoop heap k l xs).result ≠ none) (ys : List RecvResult) :
    readLoop heap k l (xs ++ ys) =
      { readLoop heap k l xs with left := (readLoop heap k l xs).left ++ ys } := by
  induction xs generalizing k l with
  | nil => exact absurd rfl h
  | cons r rest ih =>
    rw [readLoop] at h
    rw [List.cons_append, readLoop, readLoop]
    split
    · rfl
    · rename_i l' log ht
      simp only [ht, Call.result_after] at h
      rw [ih h]
      rfl

theorem result_append {xs : List RecvResult} {result : Except Stop ReadResult}
    (h : (socketReadIn heap xs).result = some result) (ys : List RecvResult) :
    (socketReadIn heap (xs ++ ys)).result = some result := by
  have hne : (readLoop heap 1 (.init heap) xs).result ≠ none := by
    intro hnone
    cases hnone.symm.trans h
  rw [socketReadIn, readLoop_append hne]
  exact h

/-- The last of the results ends a call that has read those before it. -/
def EndsCall (heap : Heap) (xs : List RecvResult) : Prop :=
  match xs.getLast? with
  | none => False
  | some (.data c) => c.EndsInNul ∨ heap xs.length (arrived xs) = 0
  | some .eof | some .wouldBlock | some .failed => True

theorem Passes.last {n : Nat} {cs : List Chunk} {c : Chunk} (h : Passes heap k n (cs ++ [c])) :
    ¬ c.EndsInNul ∧ heap (k + cs.length) (n + arrived ((cs ++ [c]).map .data)) ≠ 0 := by
  induction cs generalizing k n with
  | nil => exact h.1
  | cons d cs ih =>
    have hlast := ih h.2
    rwa [Nat.add_assoc, Nat.add_comm 1, Nat.add_assoc] at hlast

/-- Chunks that do not end the loop. -/
theorem Passes.not_endsCall (h : Passes heap 1 0 chunks) : ¬ EndsCall heap (chunks.map .data) := by
  rcases List.eq_nil_or_concat' chunks with rfl | ⟨cs, c, rfl⟩
  · exact id
  · have hlast := h.last
    rw [Nat.zero_add, Nat.add_comm] at hlast
    intro hends
    simp only [EndsCall, List.map_append, List.map_cons, List.map_nil, List.getLast?_concat,
      List.length_append, List.length_map, List.length_singleton] at hends hlast
    exact hends.elim hlast.1 hlast.2

theorem EndsWith.endsCall {last : RecvResult} {r : ReadResult}
    (h : EndsWith heap (1 + chunks.length) (joined chunks) last r) :
    EndsCall heap (chunks.map .data ++ [last]) := by
  cases last with
  | data c =>
    have hsize : arrived (chunks.map .data ++ [.data c]) = (joined chunks ++ c.bytes).length := by
      rw [arrived_append, arrived_data, List.length_append]
      rfl
    rw [EndsCall, List.getLast?_concat, List.length_append, List.length_map, hsize, List.length_singleton,
      Nat.add_comm]
    exact h.1
  | eof => simp [EndsCall]
  | wouldBlock => simp [EndsCall]
  | failed => simp [EndsCall]

/-- Nothing overflows as long as at most `INT_MAX` bytes arrive. -/
theorem not_error_of_arrived (hmax : (arrived results : Int) ≤ INT_MAX) (e : Stop) :
    (socketReadIn heap results).result ≠ some (.error e) := by
  intro he
  cases course_socketReadIn heap results with
  | waits chunks hresults hpass hmax' hresult hleft => cases he.symm.trans hresult
  | overflows chunks last rest hresults hpass hmax' hresult hleft =>
    rw [hresults, List.append_cons, arrived_append] at hmax
    rw [List.length_nil] at hmax'
    omega
  | returns chunks last rest r hresults hpass hmax' hends hresult hleft => cases he.symm.trans hresult

/-- A call returns at a result that ends it, unless its counter overflows. -/
theorem returns_of_endsCall (h : EndsCall heap results) (hmax : (arrived results : Int) ≤ INT_MAX) :
    ∃ r, (socketReadIn heap results).result = some (.ok r) := by
  cases course_socketReadIn heap results with
  | waits chunks hresults hpass hmax' hresult hleft =>
    rw [hresults] at h
    exact absurd h hpass.not_endsCall
  | overflows chunks last rest hresults hpass hmax' hresult hleft =>
    exact absurd hresult (not_error_of_arrived hmax _)
  | returns chunks last rest r hresults hpass hmax hends hresult hleft => exact ⟨r, hresult⟩

/-- And only there. -/
theorem endsCall_of_returns {r : ReadResult} (h : (socketReadIn heap results).result = some (.ok r)) :
    ∃ n ≤ results.length, EndsCall heap (results.take n) ∧ (arrived (results.take n) : Int) ≤ INT_MAX := by
  cases course_socketReadIn heap results with
  | waits chunks hresults hpass hmax hresult hleft => cases h.symm.trans hresult
  | overflows chunks last rest hresults hpass hmax hresult hleft => cases h.symm.trans hresult
  | returns chunks last rest r' hresults hpass hmax hends hresult hleft =>
    have hsplit : results = (chunks.map .data ++ [last]) ++ rest := by rw [hresults, List.append_cons]
    refine ⟨(chunks.map RecvResult.data ++ [last]).length, ?_, ?_⟩
    · rw [hsplit]
      simp
    · rw [hsplit, List.take_left]
      refine ⟨hends.endsCall, ?_⟩
      rwa [List.length_nil, Nat.zero_add] at hmax

/-- A call on the results of a stream returns, and as long as it runs, the
`int` `recv_len` stays in its range and is the `size_t` `offset`. -/
structure EndsWithinCounters (heap : Heap) (stream : Stream' RecvResult) : Prop where
  returns : ∃ n r, (socketReadIn heap (stream.take n)).result = some (.ok r)
  counters : ∀ (n : Nat) (recvLen : Int) (offset : Nat),
    .counters recvLen offset ∈ (socketReadIn heap (stream.take n)).log → recvLen ≤ INT_MAX ∧ recvLen = offset

theorem counters_writes {size offset n m : Nat} {i : Int} : .counters i m ∉ writes size offset n := by
  intro h
  obtain ⟨j, -, hj⟩ := List.mem_map.mp h
  cases hj

theorem counters_chunkLog {n m : Nat} {i : Int} (h : .counters i m ∈ chunkLog n chunk) :
    i = (n + chunk.bytes.length : Nat) ∧ m = n + chunk.bytes.length := by
  simpa [chunkLog, counters_writes] using h

/-- The counters agree, and are in range unless the loop overflows. -/
theorem counters_readLoop (h : l.Holds acc) {m : Nat} {i : Int}
    (hmem : .counters i m ∈ (readLoop heap k l results).log) :
    i = m ∧ (i ≤ INT_MAX ∨ (readLoop heap k l results).result = some (.error (.undefined "recv_len"))) := by
  induction results generalizing k l acc with
  | nil => cases hmem
  | cons r rest ih =>
    cases r with
    | eof => simp [readLoop, readTurn] at hmem
    | wouldBlock => simp [readLoop, readTurn] at hmem
    | failed => simp [readLoop, readTurn] at hmem
    | data chunk =>
      have hlen : (acc ++ chunk.bytes).length = acc.length + chunk.bytes.length := List.length_append
      obtain ⟨hmax, hloop⟩ | ⟨hmax, -, past, hpast, hloop⟩ | ⟨hmax, -, -, hloop⟩ :=
        readLoop_data_cases heap k h chunk rest
      · rw [hloop] at hmem ⊢
        simp only [List.mem_cons, reduceCtorEq, Effect.counters.injEq, List.not_mem_nil, or_false,
          false_or] at hmem
        exact ⟨by rw [hmem.1, hmem.2], .inr rfl⟩
      · rw [hloop] at hmem
        obtain hmem | hmem := List.mem_append.mp hmem
        · obtain ⟨rfl, rfl⟩ := counters_chunkLog hmem
          exact ⟨rfl, .inl (by rwa [hlen] at hmax)⟩
        · cases hpast _ hmem
      · rw [hloop] at hmem ⊢
        obtain hmem | hmem := List.mem_append.mp hmem
        · obtain hmem | hmem := List.mem_append.mp hmem
          · obtain ⟨rfl, rfl⟩ := counters_chunkLog hmem
            exact ⟨rfl, .inl (by rwa [hlen] at hmax)⟩
          · cases List.mem_singleton.mp hmem
        · exact ih h.grow hmem

theorem counters_socketReadIn {m : Nat} {i : Int} (hmem : .counters i m ∈ (socketReadIn heap results).log) :
    i = m ∧ (i ≤ INT_MAX ∨ (socketReadIn heap results).result = some (.error (.undefined "recv_len"))) := by
  obtain hmem | hmem := List.mem_append.mp hmem
  · exact absurd hmem counters_writes
  · exact counters_readLoop (Locals.init_holds heap) hmem

/-- A call that returns on a stream overflows at no point of it. -/
theorem not_error_of_returns {stream : Stream' RecvResult} {n m : Nat} {r : ReadResult} {e : Stop}
    (h : (socketReadIn heap (stream.take n)).result = some (.ok r)) :
    (socketReadIn heap (stream.take m)).result ≠ some (.error e) := by
  intro he
  obtain ⟨d, rfl⟩ | ⟨d, rfl⟩ := (le_total n m).imp Nat.exists_eq_add_of_le Nat.exists_eq_add_of_le
  · have h' := result_append h ((stream.drop n).take d)
    rw [← Stream'.take_add] at h'
    cases h'.symm.trans he
  · have he' := result_append he ((stream.drop m).take d)
    rw [← Stream'.take_add] at he'
    cases he'.symm.trans h

theorem exists_endsCall {stream : Stream' RecvResult} {n : Nat} {r : ReadResult}
    (h : (socketReadIn heap (stream.take n)).result = some (.ok r)) :
    ∃ m, EndsCall heap (stream.take m) ∧ (arrived (stream.take m) : Int) ≤ INT_MAX := by
  obtain ⟨m, hm, hends⟩ := endsCall_of_returns h
  rw [Stream'.length_take] at hm
  rw [Stream'.take_take, min_eq_right hm] at hends
  exact ⟨m, hends⟩

/-- A call on a stream ends within its counters if and only if, within the
first `INT_MAX` bytes, some `recv` brings no bytes, or bytes that end in NUL,
or bytes that a NUL happens to lie behind. -/
theorem endsWithinCounters_iff (heap : Heap) (stream : Stream' RecvResult) :
    EndsWithinCounters heap stream ↔
      ∃ n, EndsCall heap (stream.take n) ∧ (arrived (stream.take n) : Int) ≤ INT_MAX := by
  constructor
  · intro h
    obtain ⟨n, r, hr⟩ := h.returns
    exact exists_endsCall hr
  · intro h
    obtain ⟨n, hends, hmax⟩ := h
    obtain ⟨r, hr⟩ := returns_of_endsCall hends hmax
    refine ⟨⟨n, r, hr⟩, fun m recvLen offset hmem => ?_⟩
    obtain ⟨heq, hle | herr⟩ := counters_socketReadIn hmem
    · exact ⟨hle, heq⟩
    · exact absurd herr (not_error_of_returns hr)

/-- No call waits for more than `INT_MAX` chunks: a stream that does not end it
overflows `recv_len`. -/
theorem length_le_of_waits (h : (socketReadIn heap results).result = none) : results.length ≤ INT_MAX := by
  cases course_socketReadIn heap results with
  | waits chunks hresults hpass hmax hresult hleft =>
    have hle : chunks.length ≤ (joined chunks).length := by
      rw [joined, List.length_flatMap]
      refine le_trans (by simp) (List.length_le_sum_of_one_le _ fun n hn => ?_)
      obtain ⟨c, -, rfl⟩ := List.mem_map.mp hn
      exact List.length_pos_iff.mpr c.ne_nil
    rw [arrived_data, List.length_nil] at hmax
    rw [hresults, List.length_map]
    omega
  | overflows chunks last rest hresults hpass hmax hresult hleft => cases h.symm.trans hresult
  | returns chunks last rest r hresults hpass hmax hends hresult hleft => cases h.symm.trans hresult

/-- A peer that sends the same byte over and over. -/
theorem endsWithinCounters_endless : ¬ ∀ heap stream, EndsWithinCounters heap stream := by
  intro h
  obtain ⟨n, r, hr⟩ := (h (fun _ _ => 1) (Stream'.const (.data (byteChunk 97)))).returns
  obtain ⟨m, hends, -⟩ := exists_endsCall hr
  cases m with
  | zero => exact hends
  | succ m =>
    rw [EndsCall, Stream'.take_succ', List.getLast?_concat] at hends
    have hbyte : (byteChunk 97).EndsInNul ∨ (1 : Byte) = 0 := hends
    exact absurd hbyte (by decide)

/-! ## Reassembly -/

theorem Passes.not_endsInNul {n : Nat} (h : Passes heap k n chunks) : ∀ c ∈ chunks, ¬ c.EndsInNul := by
  induction chunks generalizing k n with
  | nil => simp
  | cons c cs ih =>
    intro d hd
    obtain rfl | hd := List.mem_cons.mp hd
    · exact h.1.1
    · exact ih h.2 d hd

/-- A call puts the chunks it consumes together, in order. -/
structure Reassembles (results : List RecvResult) (c : Call) : Prop where
  defined : ∀ e, c.result ≠ some (.error e)
  /-- It has not returned as long as there are only chunks, none of them with
  a NUL at its end. -/
  waits : c.result = none → ∀ r ∈ results, ∃ chunk : Chunk, r = .data chunk ∧ ¬ chunk.EndsInNul
  frame : ∀ data, c.result = some (.ok (data, 0)) →
    ∃ (chunks : List Chunk) (last : Chunk) (buf : Bytes), c.consumed = (chunks ++ [last]).map .data ∧
      data = some buf ∧ buf.take (arrived c.consumed) = joined (chunks ++ [last]) ∧
      ∀ chunk ∈ chunks, ¬ chunk.EndsInNul
  eof : c.result = some (.ok (none, -1)) ↔ c.consumed.getLast? = some .eof
  wouldBlock : (∃ data, c.result = some (.ok (data, -2))) ↔ c.consumed.getLast? = some .wouldBlock
  failed : (∃ data, c.result = some (.ok (data, -3))) ↔ c.consumed.getLast? = some .failed
  unread : c.consumed ++ c.left = results

/-- The code that a result of `recv` ends the loop with. -/
def RecvResult.code : RecvResult → Int
  | .data _ => 0
  | .eof => -1
  | .wouldBlock => -2
  | .failed => -3

section Codes

variable {last : RecvResult} {r : ReadResult} (h : EndsWith heap k acc last r)

include h

theorem EndsWith.code : r.2 = last.code := by
  cases last with
  | eof => rw [show r = (none, -1) from h]; rfl
  | wouldBlock => obtain ⟨buf, rfl⟩ := h; rfl
  | failed => obtain ⟨buf, rfl⟩ := h; rfl
  | data chunk => obtain ⟨-, rfl⟩ := h; rfl

theorem EndsWith.exists_code (v : Int) : (∃ data, r = (data, v)) ↔ last.code = v := by
  constructor
  · intro hr
    obtain ⟨data, rfl⟩ := hr
    exact h.code.symm
  · intro hv
    exact ⟨r.1, Prod.ext rfl (h.code.trans hv)⟩

theorem EndsWith.eq_eof : r = (none, -1) ↔ last = .eof := by
  constructor
  · intro hr
    have hcode := (h.exists_code (-1)).mp ⟨_, hr⟩
    cases last <;> first | rfl | cases hcode
  · intro hlast
    rw [hlast] at h
    exact h

theorem EndsWith.eq_wouldBlock : (∃ data, r = (data, -2)) ↔ last = .wouldBlock := by
  rw [h.exists_code]
  cases last <;> simp [RecvResult.code]

theorem EndsWith.eq_failed : (∃ data, r = (data, -3)) ↔ last = .failed := by
  rw [h.exists_code]
  cases last <;> simp [RecvResult.code]

/-- Only a chunk ends the loop with the code 0. -/
theorem EndsWith.frame {data : Option Bytes} (hr : r = (data, 0)) :
    ∃ chunk, last = .data chunk ∧ data = some (acc ++ chunk.bytes) := by
  have hcode := (h.exists_code 0).mp ⟨data, hr⟩
  cases last with
  | eof => cases hcode
  | wouldBlock => cases hcode
  | failed => cases hcode
  | data chunk =>
    obtain ⟨-, hbuf⟩ := h
    exact ⟨chunk, rfl, (Prod.mk.inj (hr.symm.trans hbuf)).1⟩

end Codes

/-- A call in whose results at most `INT_MAX` bytes arrive reassembles them,
whatever lies past its blocks. -/
theorem reassembles (heap : Heap) (hmax : (arrived results : Int) ≤ INT_MAX) :
    Reassembles results (socketReadIn heap results) := by
  have hunread := consumed_socketReadIn heap results
  have hcourse := course_socketReadIn heap results
  have hdefined : ∀ e, (socketReadIn heap results).result ≠ some (.error e) := not_error_of_arrived hmax
  generalize socketReadIn heap results = c at hunread hcourse hdefined
  cases hcourse with
  | waits chunks hresults hpass hmax' hresult hleft =>
    have hdata : ∀ r ∈ results, ∃ chunk : Chunk, r = .data chunk ∧ ¬ chunk.EndsInNul := by
      intro r hr
      rw [hresults] at hr
      obtain ⟨chunk, hchunk, rfl⟩ := List.mem_map.mp hr
      exact ⟨chunk, rfl, hpass.not_endsInNul chunk hchunk⟩
    have hlast : ∀ r, c.consumed.getLast? = some r → ∃ chunk, r = .data chunk := by
      intro r hr
      rw [hleft, List.append_nil] at hunread
      obtain ⟨chunk, hchunk, -⟩ := hdata r (hunread ▸ List.mem_of_getLast? hr)
      exact ⟨chunk, hchunk⟩
    exact
      { defined := hdefined
        waits := fun _ => hdata
        frame := by simp [hresult]
        eof := iff_of_false (by simp [hresult]) fun h => by simpa using hlast _ h
        wouldBlock := iff_of_false (by simp [hresult]) fun h => by simpa using hlast _ h
        failed := iff_of_false (by simp [hresult]) fun h => by simpa using hlast _ h
        unread := hunread }
  | overflows chunks last rest hresults hpass hmax' hresult hleft => exact absurd hresult (hdefined _)
  | returns chunks last rest r hresults hpass hmax' hends hresult hleft =>
    have hconsumed : c.consumed = chunks.map .data ++ [last] := by
      rw [hleft, hresults, List.append_cons] at hunread
      exact List.append_cancel_right hunread
    have hlast : c.consumed.getLast? = some last := by rw [hconsumed, List.getLast?_concat]
    refine
      { defined := hdefined
        waits := by simp [hresult]
        frame := ?_
        eof := by simpa [hresult, hlast] using hends.eq_eof
        wouldBlock := by simpa [hresult, hlast] using hends.eq_wouldBlock
        failed := by simpa [hresult, hlast] using hends.eq_failed
        unread := hunread }
    intro data hok
    rw [hresult, Option.some.injEq, Except.ok.injEq] at hok
    obtain ⟨chunk, rfl, hdata⟩ := hends.frame hok
    have hmap : c.consumed = (chunks ++ [chunk]).map .data := by rw [hconsumed, List.map_append]; rfl
    have hjoin : joined chunks ++ chunk.bytes = joined (chunks ++ [chunk]) := by simp [joined]
    refine ⟨chunks, chunk, _, hmap, hdata, ?_, hpass.not_endsInNul⟩
    rw [List.nil_append, hjoin, hmap, arrived_data, List.take_length]

/-- Two chunks, of which the second ends in NUL, and the end of the stream. -/
def twoChunks : List RecvResult := [.data (byteChunk 97), .data (byteChunk 0), .eof]

/-- They are put together, and the end of the stream is left. -/
theorem reassembles_twoChunks :
    Reassembles twoChunks (socketReadIn (fun _ _ => 1) twoChunks) ∧
      (socketReadIn (fun _ _ => 1) twoChunks).result = some (.ok (some [97, 0], 0)) ∧
      (socketReadIn (fun _ _ => 1) twoChunks).left = [.eof] :=
  ⟨reassembles _ (by decide), by decide +kernel, by decide +kernel⟩

/-! ## `socketRead` -/

/-- The answers of `recv` as `socketRead` takes them: each chunk with the byte
past the block it is read into. -/
def recvsIn (heap : Heap) (k n : Nat) : List RecvResult → List Recv
  | [] => []
  | .data c :: rest =>
    let m := n + c.bytes.length
    .data c.bytes (heap k m) :: recvsIn heap (k + 1) m rest
  | .eof :: rest => .eof :: recvsIn heap k n rest
  | .wouldBlock :: rest => .wouldBlock :: recvsIn heap k n rest
  | .failed :: rest => .failed :: recvsIn heap k n rest

theorem length_recvsIn (heap : Heap) (k n : Nat) (results : List RecvResult) :
    (recvsIn heap k n results).length = results.length := by
  induction results generalizing k n with
  | nil => rfl
  | cons r rest ih => cases r <;> simp only [recvsIn, List.length_cons, ih]

theorem getLast?_append_bytes (acc : Bytes) (chunk : Chunk) :
    (acc ++ chunk.bytes).getLast? = some 0 ↔ chunk.EndsInNul := by
  rw [List.getLast?_append_of_ne_nil _ chunk.ne_nil, List.getLast?_eq_some_getLast chunk.ne_nil,
    Option.some.injEq, Chunk.EndsInNul]

theorem socketReadLoop_recvsIn (heap : Heap) (k : Nat) (h : l.Holds acc) (results : List RecvResult) :
    (socketReadLoop l.recvData.contents acc.length acc.length (recvsIn heap k acc.length results)).map
        (Prod.map id List.length) =
      (readLoop heap k l results).result.map fun r => (r, (readLoop heap k l results).left.length) := by
  induction results generalizing k l acc with
  | nil => rfl
  | cons r rest ih =>
    cases r with
    | eof => exact congrArg (fun n => some (_, n)) (length_recvsIn heap k acc.length rest)
    | wouldBlock => exact congrArg (fun n => some (_, n)) (length_recvsIn heap k acc.length rest)
    | failed => exact congrArg (fun n => some (_, n)) (length_recvsIn heap k acc.length rest)
    | data chunk =>
      have hlen : (acc ++ chunk.bytes).length = acc.length + chunk.bytes.length := List.length_append
      have hleft := length_recvsIn heap (k + 1) (acc ++ chunk.bytes).length rest
      rw [recvsIn, ← hlen, socketReadLoop_data h.recvData.take_contents]
      simp only [getLast?_append_bytes]
      obtain ⟨hmax, hloop⟩ | ⟨hmax, hends, past, -, hloop⟩ | ⟨hmax, hnul, hpast, hloop⟩ :=
        readLoop_data_cases heap k h chunk rest
      · rw [if_pos hmax, hloop]
        exact congrArg (fun n => some (_, n)) hleft
      · rw [if_neg (not_lt.mpr hmax), if_pos hends, hloop]
        exact congrArg (fun n => some (_, n)) hleft
      · have hgrow : (l.grow (heap k) chunk).Holds (acc ++ chunk.bytes) := h.grow
        have hrest := ih (k + 1) hgrow
        rw [h.grow_contents] at hrest
        rw [if_neg (not_lt.mpr hmax), if_neg (not_or.mpr ⟨hnul, hpast⟩), hloop]
        exact hrest

/-- A call in a heap is `socketRead` on the answers with the bytes that lie
past its blocks. -/
theorem socketReadIn_eq (heap : Heap) (results : List RecvResult) :
    (socketRead (recvsIn heap 1 0 results)).map (Prod.map id List.length) =
      (socketReadIn heap results).result.map fun r => (r, (socketReadIn heap results).left.length) := by
  have hloop := socketReadLoop_recvsIn heap 1 (Locals.init_holds heap) results
  rwa [Locals.init_contents] at hloop

end CmdAgent
