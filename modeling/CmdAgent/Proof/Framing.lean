import CmdAgent.Proof.EventLoop
import CmdAgent.Framework.Frames

/-!
# Framing of the input

What a connection's calls of `recv` got over a whole run (`receivedBy`)
determines the strings handed to the parser (`handedBy`): `handoffs` is
`socket_read` called again and again on it (`reach_handed`).

A stream of NUL-terminated messages is handed over message by message exactly
if it is `WellSplit`: no NUL but at the end of a chunk, no would-block within
a message, and no NUL past the buffer after a chunk that does not end its
message. A chunk with a NUL inside loses what stands after it, a would-block
loses what was read before it, and a stray NUL ends a message early, so that
its terminator begins the next. The count of solid bytes (`size_handoffs_le`)
shows that what is lost does not come back.
-/

namespace CmdAgent

/-! ## Over a list of answers -/

/-- The strings handed over when the calls of `recv` get the given answers, if
`acc` has been read of the current message. -/
def handoffs (acc : Bytes) : List Recv → List Bytes
  | [] => []
  | .data chunk stray :: rest =>
    if INT_MAX < (acc ++ chunk).length then []
    else if (acc ++ chunk).getLast? = some 0 ∨ stray = 0 then cstr (acc ++ chunk) :: handoffs [] rest
    else handoffs (acc ++ chunk) rest
  | .eof :: rest | .wouldBlock :: rest | .failed :: rest => handoffs [] rest

/-- The bytes received. -/
def streamOf : List Recv → Bytes
  | [] => []
  | .data chunk _ :: rest => chunk ++ streamOf rest
  | _ :: rest => streamOf rest

/-- The answers respect the messages, when `acc` has been read of the current
one. -/
def WellSplit (acc : Bytes) : List Recv → Prop
  | [] => True
  | .data chunk stray :: rest =>
    (acc ++ chunk).length ≤ INT_MAX ∧ (0 : Byte) ∉ chunk.dropLast ∧
      if chunk.getLast? = some 0 then WellSplit [] rest else stray ≠ 0 ∧ WellSplit (acc ++ chunk) rest
  | .eof :: rest | .wouldBlock :: rest | .failed :: rest => acc = [] ∧ WellSplit [] rest

instance decidableWellSplit : ∀ acc rs, Decidable (WellSplit acc rs)
  | _, [] => isTrue trivial
  | acc, .data chunk _ :: rest =>
    have := decidableWellSplit [] rest
    have := decidableWellSplit (acc ++ chunk) rest
    inferInstanceAs (Decidable (_ ∧ _ ∧ ite _ _ _))
  | _, .eof :: rest | _, .wouldBlock :: rest | _, .failed :: rest =>
    have := decidableWellSplit [] rest
    inferInstanceAs (Decidable (_ ∧ _))

/-- An answer of `recv` while the stream is open: bytes or would-block. -/
def Recv.Streams (r : Recv) : Prop := r.Valid ∧ r ≠ .eof ∧ r ≠ .failed

theorem Recv.Streams.chunk {chunk : Bytes} {stray : Byte} (h : (Recv.data chunk stray).Streams) :
    chunk ≠ [] ∧ chunk.length ≤ INT_MAX := by
  obtain ⟨⟨h₁, h₂⟩, -⟩ := h
  refine ⟨fun e => ?_, ?_⟩
  · rw [e] at h₁; exact absurd h₁ (by decide)
  · unfold MAX_RECV_BUFF_SIZE at h₂
    unfold INT_MAX
    omega

variable {acc : Bytes} {rs : List Recv} {ms : List Bytes}

/-- What is handed over is at most the string read so far and the solid bytes
to come. -/
theorem size_handoffs_le (acc : Bytes) (rs : List Recv) :
    ((handoffs acc rs).map List.length).sum ≤ (cstr acc).length + solid (streamOf rs) := by
  fun_induction handoffs acc rs with
  | case1 => simp
  | case2 => simp
  | case3 acc chunk stray rest _ _ ih =>
    have := length_cstr_append_le acc chunk
    simp only [List.map_cons, List.sum_cons, streamOf, solid_append]
    have hnil : (cstr []).length = 0 := rfl
    omega
  | case4 acc chunk stray rest _ _ ih =>
    have := length_cstr_append_le acc chunk
    simp only [streamOf, solid_append]
    omega
  | case5 acc rest ih | case6 acc rest ih | case7 acc rest ih =>
    have hnil : (cstr []).length = 0 := rfl
    simp only [streamOf]
    omega

theorem nul_mem_iff (chunk : Bytes) : (0 : Byte) ∈ chunk ↔ (0 : Byte) ∈ chunk.dropLast ∨ chunk.getLast? = some 0 := by
  rcases List.eq_nil_or_concat chunk with rfl | ⟨init, b, rfl⟩
  · simp
  · simp [eq_comm]

/-- Messages that arrive well split are handed over. -/
theorem handoffs_of_wellSplit (h : WellSplit acc rs) (hacc : (0 : Byte) ∉ acc) (hm : ∀ m ∈ ms, (0 : Byte) ∉ m)
    (hrs : ∀ r ∈ rs, r.Streams) (hs : acc ++ streamOf rs = frames ms) : handoffs acc rs = ms := by
  induction rs generalizing acc ms with
  | nil =>
    rw [streamOf, List.append_nil] at hs
    rw [hs] at hacc
    obtain rfl := nul_mem_frames hacc
    rfl
  | cons r rest ih =>
    have hr := hrs r (List.mem_cons_self ..)
    have hrest : ∀ r ∈ rest, r.Streams := fun r h => hrs r (List.mem_cons_of_mem _ h)
    cases r with
    | eof => exact absurd rfl hr.2.1
    | failed => exact absurd rfl hr.2.2
    | wouldBlock =>
      obtain ⟨rfl, h⟩ := h
      exact ih h hacc hm hrest hs
    | data chunk stray =>
      obtain ⟨hlen, hdrop, h⟩ := h
      obtain ⟨hne, -⟩ := hr.chunk
      rw [handoffs, if_neg (not_lt.mpr hlen), List.getLast?_append_of_ne_nil _ hne]
      split at h
      · -- the chunk ends the message
        rename_i hlast
        obtain ⟨init, rfl⟩ := List.getLast?_eq_some_iff.mp hlast
        rw [List.dropLast_concat] at hdrop
        have hfree : (0 : Byte) ∉ acc ++ init := by simp [hacc, hdrop]
        rw [streamOf, ← List.append_assoc, ← List.append_assoc, List.append_assoc, List.singleton_append] at hs
        obtain ⟨ms', rfl, ht⟩ := frames_split hfree hm hs
        rw [if_pos (.inl hlast), ← List.append_assoc, cstr_append_nul hfree]
        exact congrArg _ (ih h List.not_mem_nil (fun m h' => hm m (List.mem_cons_of_mem _ h')) hrest ht)
      · rename_i hlast
        obtain ⟨hstray, h⟩ := h
        have hfree : (0 : Byte) ∉ chunk := fun h' => ((nul_mem_iff chunk).mp h').elim hdrop hlast
        rw [if_neg (not_or.mpr ⟨hlast, hstray⟩)]
        exact ih h (by simp [hacc, hfree]) hm hrest (by rw [List.append_assoc]; exact hs)

/-- A NUL left over from a message that was handed over early costs a message
or a byte. -/
theorem handoffs_ne_of_nul {t : Bytes} (hs : streamOf rs = 0 :: t) (hrs : ∀ r ∈ rs, r.Streams)
    (hm : [] ∉ handoffs [] rs) : ((handoffs [] rs).map List.length).sum < solid (streamOf rs) := by
  induction rs with
  | nil => cases hs
  | cons r rest ih =>
    have hr := hrs r (List.mem_cons_self ..)
    have hrest : ∀ r ∈ rest, r.Streams := fun r h => hrs r (List.mem_cons_of_mem _ h)
    cases r with
    | eof => exact absurd rfl hr.2.1
    | failed => exact absurd rfl hr.2.2
    | wouldBlock => exact ih hs hrest hm
    | data chunk stray =>
      obtain ⟨hne, hlen⟩ := hr.chunk
      obtain ⟨b, x, rfl⟩ := List.exists_cons_of_ne_nil hne
      obtain rfl : b = 0 := (List.cons.inj hs).1
      rw [handoffs, List.nil_append, if_neg (not_lt.mpr hlen)] at hm ⊢
      split
      · rename_i hstop
        rw [if_pos hstop] at hm
        exact absurd (List.mem_cons_self ..) hm
      · rename_i hstop
        have hlt := length_cstr_lt (b := 0 :: x) (by simp) fun h => hstop (.inl h)
        have hle := size_handoffs_le (0 :: x) rest
        rw [streamOf, solid_append]
        omega

section Handed

variable {chunk : Bytes} {rest : List Recv}
  (hm : ∀ m ∈ cstr (acc ++ chunk) :: handoffs [] rest, m ≠ [] ∧ (0 : Byte) ∉ m)
  (hs : acc ++ chunk ++ streamOf rest = frames (cstr (acc ++ chunk) :: handoffs [] rest))

include hm hs

theorem size_handed : solid (acc ++ chunk) + solid (streamOf rest) =
    (cstr (acc ++ chunk)).length + ((handoffs [] rest).map List.length).sum := by
  have hsize := solid_frames fun m h => (hm m h).2
  rwa [← hs, solid_append, List.map_cons, List.sum_cons] at hsize

/-- A message that is handed over has all the solid bytes read for it: what is
handed over later has arrived later. -/
theorem solid_of_handed : solid (acc ++ chunk) ≤ (cstr (acc ++ chunk)).length := by
  have hsize := size_handed hm hs
  have hle := size_handoffs_le [] rest
  rw [show (cstr []).length = 0 from rfl] at hle
  omega

/-- It has arrived with its NUL: the bytes of an incomplete one would be
counted twice. -/
theorem getLast?_of_handed (hne : chunk ≠ []) (hrest : ∀ r ∈ rest, r.Streams) : chunk.getLast? = some 0 := by
  by_contra h0
  have hlast := List.getLast?_append_of_ne_nil acc hne
  have hsize := size_handed hm hs
  have hsolid := solid_of_handed hm hs
  have hnul : (0 : Byte) ∉ acc ++ chunk := fun h => by
    have := length_cstr_lt h (hlast ▸ h0)
    omega
  rw [cstr_of_nul_free hnul, frames_cons] at hs
  have hlt := handoffs_ne_of_nul (List.append_cancel_left hs) hrest fun h =>
    (hm _ (List.mem_cons_of_mem _ h)).1 rfl
  rw [cstr_of_nul_free hnul, ← solid_of_nul_free hnul] at hsize
  omega

/-- Its NUL is the only one of the chunk, and the rest of the stream holds the
other messages. -/
theorem split_of_handed (h0 : chunk.getLast? = some 0) :
    (0 : Byte) ∉ chunk.dropLast ∧ streamOf rest = frames (handoffs [] rest) := by
  have hsolid := solid_of_handed hm hs
  obtain ⟨init, rfl⟩ := List.getLast?_eq_some_iff.mp h0
  obtain ⟨hb, ht⟩ := frames_buffer (by simp) hsolid (fun m h => hm m (List.mem_cons_of_mem _ h)) hs
  have hinit : acc ++ init = cstr (acc ++ (init ++ [0])) :=
    List.append_cancel_right ((List.append_assoc ..).trans hb)
  have hnul := nul_not_mem_cstr (acc ++ (init ++ [0]))
  rw [← hinit, List.mem_append, not_or] at hnul
  rw [List.dropLast_concat]
  exact ⟨hnul.2, ht⟩

end Handed

/-- Messages that are handed over have arrived well split. -/
theorem wellSplit_of_handoffs (h : handoffs acc rs = ms) (hacc : (0 : Byte) ∉ acc)
    (hm : ∀ m ∈ ms, m ≠ [] ∧ (0 : Byte) ∉ m) (hrs : ∀ r ∈ rs, r.Streams)
    (hs : acc ++ streamOf rs = frames ms) : WellSplit acc rs := by
  have hfree : ∀ {ms : List Bytes}, (∀ m ∈ ms, m ≠ [] ∧ (0 : Byte) ∉ m) → ∀ m ∈ ms, (0 : Byte) ∉ m :=
    fun h m hm => (h m hm).2
  induction rs generalizing acc ms with
  | nil => trivial
  | cons r rest ih =>
    have hr := hrs r (List.mem_cons_self ..)
    have hrest : ∀ r ∈ rest, r.Streams := fun r h => hrs r (List.mem_cons_of_mem _ h)
    -- all the solid bytes are handed over
    have hsize := solid_frames (hfree hm)
    rw [← hs, solid_append, solid_of_nul_free hacc] at hsize
    cases r with
    | eof => exact absurd rfl hr.2.1
    | failed => exact absurd rfl hr.2.2
    | wouldBlock =>
      have hle := size_handoffs_le [] rest
      rw [show handoffs [] rest = ms from h, show (cstr []).length = 0 from rfl] at hle
      rw [show streamOf (.wouldBlock :: rest) = streamOf rest from rfl] at hsize
      obtain rfl : acc = [] := List.length_eq_zero_iff.mp (by omega)
      exact ⟨rfl, ih h hacc hm hrest hs⟩
    | data chunk stray =>
      obtain ⟨hne, -⟩ := hr.chunk
      have hlast := List.getLast?_append_of_ne_nil acc hne
      rw [streamOf, ← List.append_assoc] at hs
      rw [streamOf, solid_append] at hsize
      rw [handoffs] at h
      split at h
      · -- `recv_len` overflows, and nothing more is handed over
        subst h
        rw [frames_nil, List.append_eq_nil_iff, List.append_eq_nil_iff] at hs
        exact absurd hs.1.2 hne
      · rename_i hlen
        have hlen : ((acc ++ chunk).length : Int) ≤ INT_MAX := not_lt.mp hlen
        have hsolid : solid (acc ++ chunk) = acc.length + solid chunk := by
          rw [solid_append, solid_of_nul_free hacc]
        split at h
        · subst h
          have hall : ∀ m ∈ handoffs [] rest, m ≠ [] ∧ (0 : Byte) ∉ m :=
            fun m h => hm m (List.mem_cons_of_mem _ h)
          have h0 := getLast?_of_handed hm hs hne hrest
          obtain ⟨hnul, ht⟩ := split_of_handed hm hs h0
          refine ⟨hlen, hnul, ?_⟩
          rw [if_pos h0]
          exact ih rfl List.not_mem_nil hall hrest ht
        · rename_i hstop
          rw [not_or, hlast] at hstop
          have hle := size_handoffs_le (acc ++ chunk) rest
          rw [h] at hle
          have hnul : (0 : Byte) ∉ acc ++ chunk := fun h' => by
            have := length_cstr_lt h' (hlast ▸ hstop.1)
            omega
          refine ⟨hlen, fun h' => hnul (List.mem_append_right _ (List.mem_of_mem_dropLast h')), ?_⟩
          rw [if_neg hstop.1]
          exact ⟨hstop.2, ih h hnul hm hrest hs⟩

/-! ## Over a run -/

/-- What the calls of `recv` on a connection got in a trace, oldest first. -/
def receivedBy (c : Nat) : List Obs → List Recv
  | [] => []
  | .received _ (some c') recvs :: tr => if c = c' then receivedBy c tr ++ recvs else receivedBy c tr
  | _ :: tr => receivedBy c tr

/-- The strings of a connection handed to the parser in a trace, oldest first. -/
def handedBy (c : Nat) : List Obs → List Bytes
  | [] => []
  | .handed _ (some c') text :: tr => if c = c' then handedBy c tr ++ [text] else handedBy c tr
  | _ :: tr => handedBy c tr

/-- The string that a call of `socket_read` hands over. -/
def ReadEnd.handed : ReadEnd → List Bytes
  | .frame data => [cstr data]
  | _ => []

/-- One call of `socket_read`, and the calls after it. -/
theorem handoffs_append {r : ReadEnd} (h : readEnds acc rs = some (r, [])) (more : List Recv) :
    handoffs acc (rs ++ more) = if r = .overflow then [] else r.handed ++ handoffs [] more := by
  fun_induction readEnds acc rs with
  | case1 => cases h
  | case2 acc rest | case3 acc rest | case4 acc rest =>
    obtain ⟨rfl, rfl⟩ := Prod.mk.inj (Option.some.inj h)
    rfl
  | case5 acc chunk stray rest hlen =>
    obtain ⟨rfl, rfl⟩ := Prod.mk.inj (Option.some.inj h)
    rw [List.cons_append, handoffs, if_pos hlen, if_pos rfl]
  | case6 acc chunk stray rest hlen hstop =>
    obtain ⟨rfl, rfl⟩ := Prod.mk.inj (Option.some.inj h)
    rw [List.cons_append, handoffs, if_neg hlen, if_pos hstop]
    rfl
  | case7 acc chunk stray rest hlen hstop ih =>
    rw [List.cons_append, handoffs, if_neg hlen, if_neg hstop]
    exact ih h

/-- The trace of a connection: what was handed over is what the calls of
`recv` determine, and nothing of an unfinished message is kept between calls
while the process runs. -/
structure Handed (s : State) (c : Nat) : Prop where
  valid : ∀ r ∈ receivedBy c s.trace, r.Valid
  eq : handedBy c s.trace = handoffs [] (receivedBy c s.trace)
  fresh : s.stopped = none → ∀ more, handoffs [] (receivedBy c s.trace ++ more) =
    handoffs [] (receivedBy c s.trace) ++ handoffs [] more

variable {P : Params} {s s' : State}

/-- An observation that neither receives nor hands over. -/
def Obs.Silent : Obs → Prop
  | .received _ _ _ | .handed _ _ _ => False
  | _ => True

theorem Obs.Quiet.silent {o : Obs} (h : o.Quiet) : o.Silent := by
  cases o <;> first | exact h.elim | trivial

theorem by_append {new : List Obs} (h : ∀ o ∈ new, o.Silent) (c : Nat) (tr : List Obs) :
    receivedBy c (new ++ tr) = receivedBy c tr ∧ handedBy c (new ++ tr) = handedBy c tr := by
  induction new with
  | nil => exact ⟨rfl, rfl⟩
  | cons o new ih =>
    have ho := h o (List.mem_cons_self ..)
    have ih := ih fun o' ho' => h o' (List.mem_cons_of_mem _ ho')
    cases o with
    | received => exact ho.elim
    | handed => exact ho.elim
    | _ => exact ih

theorem Serves.by_eq {ans : Answers} {fd : Int} {msg : Json} {o : Option Stop} (h : Serves P ans fd msg s o s')
    (c : Nat) : receivedBy c s'.trace = receivedBy c s.trace ∧ handedBy c s'.trace = handedBy c s.trace := by
  obtain ⟨new, heq, hnew⟩ := h.trace_eq
  rw [heq]
  refine by_append (fun o ho => ?_) c s.trace
  rcases hnew o ho with h | ⟨_, _, _, _, rfl⟩ | ⟨_, _, _, _, _, rfl⟩
  · exact h.silent
  · trivial
  · trivial

theorem receivedBy_received (c : Nat) (f : Int) (conn : Option Nat) (recvs : List Recv) (tr : List Obs) :
    receivedBy c (.received f conn recvs :: tr) =
      if conn = some c then receivedBy c tr ++ recvs else receivedBy c tr := by
  cases conn <;> simp [receivedBy, eq_comm]

theorem handedBy_handed (c : Nat) (f : Int) (conn : Option Nat) (text : Bytes) (tr : List Obs) :
    handedBy c (.handed f conn text :: tr) = if conn = some c then handedBy c tr ++ [text] else handedBy c tr := by
  cases conn <;> simp [handedBy, eq_comm]

/-- A step adds nothing to what the connection has received and handed over,
or what one call of `socket_read` received and handed over. -/
def Adds (ans : Answers) (c : Nat) (s : State) (o : Option Stop) (s' : State) : Prop :=
  (receivedBy c s'.trace = receivedBy c s.trace ∧ handedBy c s'.trace = handedBy c s.trace) ∨
  ∀ r, readEnds [] ans.recvs = some (r, []) → (o = none → r ≠ .overflow) ∧
    receivedBy c s'.trace = receivedBy c s.trace ++ ans.recvs ∧
    handedBy c s'.trace = handedBy c s.trace ++ r.handed

/-- A call of `socket_read` that ends with `x`. -/
theorem adds_read {ans : Answers} {fd : Int} {o : Option Stop} {c : Nat} {x : ReadEnd}
    (hx : (readEnds [] ans.recvs).map Prod.fst = some x) (ho : o = none → x ≠ .overflow)
    (hrec : receivedBy c s'.trace = receivedBy c (.received fd (s.peerAt fd) ans.recvs :: s.trace))
    (hhand : handedBy c s'.trace =
      (if s.peerAt fd = some c then handedBy c s.trace ++ x.handed else handedBy c s.trace)) :
    Adds ans c s o s' := by
  rw [receivedBy_received] at hrec
  by_cases hc : s.peerAt fd = some c
  · refine .inr fun r hr => ?_
    rw [hr, Option.map_some, Option.some.injEq] at hx
    subst hx
    exact ⟨ho, by rw [hrec, if_pos hc], by rw [hhand, if_pos hc]⟩
  · exact .inl ⟨by rw [hrec, if_neg hc], by rw [hhand, if_neg hc]⟩

/-- A call of `socket_read` whose string is served. -/
theorem adds_served {ans : Answers} {fd : Int} {o o' : Option Stop} {c : Nat} {data : Bytes} {s₁ : State}
    (hr : (readEnds [] ans.recvs).map Prod.fst = some (.frame data))
    (hs : Serves P ans fd (parseStringToJson P.json (cstr data)) (handedOn s fd ans.recvs (cstr data)) o' s₁)
    (htr : s'.trace = s₁.trace) : Adds ans c s o s' := by
  obtain ⟨h₁, h₂⟩ := hs.by_eq c
  rw [← htr] at h₁ h₂
  exact adds_read hr (fun _ => by simp) h₁ (h₂.trans (handedBy_handed ..))

/-- What handling an event adds to the trace of a connection: nothing, or the
answers of `recv` and the string they give. -/
theorem handles_by {ans : Answers} {e : Ready} {o : Option Stop} (h : Handles P ans e s o s') (c : Nat) :
    Adds ans c s o s' := by
  cases h with
  | error | idle | acceptFailed | accepted | acceptDied => exact .inl ⟨rfl, rfl⟩
  | readStopped _ hr =>
    rcases hr with ⟨-, hr⟩ | ⟨-, hr⟩ | ⟨-, hr⟩
    · exact adds_read hr (by simp) rfl (by simp [ReadEnd.handed, readOn, handedBy])
    · exact adds_read hr (by simp) rfl (by simp [ReadEnd.handed, readOn, handedBy])
    · exact .inr fun r h => by rw [hr] at h; cases h
  | again _ hr => exact adds_read hr (by simp) rfl (by simp [ReadEnd.handed, readOn, handedBy])
  | againDied _ hr => exact adds_read hr (by simp) rfl (by simp [ReadEnd.handed, readOn, handedBy])
  | closed _ hr _ hobs =>
    have hby := by_append (fun o ho => (hobs o ho).silent) c (.received e.fd (s.peerAt e.fd) ans.recvs :: s.trace)
    exact adds_read hr (by simp) hby.1 (hby.2.trans (by simp [ReadEnd.handed, handedBy]))
  | closeDied _ hr _ hobs =>
    have hby := by_append (fun o ho => (hobs o ho).silent) c (.received e.fd (s.peerAt e.fd) ans.recvs :: s.trace)
    exact adds_read hr (by simp) hby.1 (hby.2.trans (by simp [ReadEnd.handed, handedBy]))
  | served _ hr hs => exact adds_served hr hs rfl
  | serveDied _ hr hs => exact adds_served hr hs rfl
  | serveStopped _ hr hs => exact adds_served hr hs rfl

/-- In every reachable state, what a connection's answers of `recv` determine
has been handed over. -/
theorem reach_handed (h : (server P).Reach s) (c : Nat) : Handed s c := by
  refine reach_events (P := P) (I := fun s => Handed s c) (fun s hi _ => ?_) (fun s _ _ _ _ ih => ?_) ?_ h.to_restrict
  · constructor <;> simp [hi.trace, receivedBy, handedBy, handoffs]
  · exact ⟨ih.valid, ih.eq, ih.fresh⟩
  · intro s ans e rest o s' _ hrun _ ih hv _ _ hh
    obtain ⟨r, hr⟩ : ∃ r, readEnds [] ans.recvs = some (r, []) := by
      obtain ⟨r, hr⟩ := hv.returns
      exact ⟨_, by rw [← socketRead_eq, hr]; rfl⟩
    rcases handles_by hh c with ⟨h₁, h₂⟩ | h
    · exact ⟨fun r hr => ih.valid r (h₁ ▸ hr), h₂.trans (ih.eq.trans (congrArg _ h₁.symm)),
        fun _ more => by rw [show receivedBy c _ = receivedBy c s.trace from h₁]; exact ih.fresh hrun more⟩
    · obtain ⟨ho, h₁, h₂⟩ := h r hr
      dsimp only at h₁ h₂
      have hone := handoffs_append hr []
      rw [List.append_nil] at hone
      have hhanded : handoffs [] ans.recvs = r.handed := by
        rw [hone]
        split
        · rename_i hov; rw [hov]; rfl
        · exact List.append_nil _
      refine ⟨fun r hr => ?_, ?_, fun hrun' more => ?_⟩
      · rcases List.mem_append.mp (h₁ ▸ hr) with hr | hr
        · exact ih.valid r hr
        · exact hv.recvs r hr
      · show handedBy c s'.trace = handoffs [] (receivedBy c s'.trace)
        rw [h₁, h₂, ih.fresh hrun, ih.eq, hhanded]
      · show handoffs [] (receivedBy c s'.trace ++ more) = handoffs [] (receivedBy c s'.trace) ++ _
        have hne := ho hrun'
        rw [h₁, List.append_assoc, ih.fresh hrun, ih.fresh hrun, handoffs_append hr more, if_neg hne, hhanded,
          List.append_assoc]

/-- The messages a peer sends are handed to the parser one by one, whole and in
order, if and only if they arrive well split. -/
theorem lossless_framing (h : (server P).Reach s) (c : Nat) {ms : List Bytes}
    (hm : ∀ m ∈ ms, m ≠ [] ∧ (0 : Byte) ∉ m) (hrs : ∀ r ∈ receivedBy c s.trace, r ≠ .eof ∧ r ≠ .failed)
    (hs : streamOf (receivedBy c s.trace) = frames ms) :
    handedBy c s.trace = ms ↔ WellSplit [] (receivedBy c s.trace) := by
  have hh := reach_handed h c
  have hstreams : ∀ r ∈ receivedBy c s.trace, r.Streams := fun r hr => ⟨hh.valid r hr, hrs r hr⟩
  rw [hh.eq]
  constructor
  · intro heq
    exact wellSplit_of_handoffs heq List.not_mem_nil hm hstreams hs
  · intro hw
    exact handoffs_of_wellSplit hw List.not_mem_nil (fun m h => (hm m h).2) hstreams hs

/-- Two empty objects, the first in two pieces, with a would-block between. -/
def pieced : State :=
  (server Flat.params).exec (Flat.start .empty)
    (Flat.connect 6 ++
      Flat.one 6 (some 0) { recvs := [.data (ascii "\x7b") 1, .data (ascii "\x7d" ++ [0]) 0] } ++
      Flat.one 6 (some 0) { recvs := [.wouldBlock] } ++ Flat.speaks 6 0 (ascii "\x7b\x7d"))

theorem lossless_framing_pieced : handedBy 0 pieced.trace = [ascii "\x7b\x7d", ascii "\x7b\x7d"] := by
  have hreach : (server Flat.params).Reach pieced := .exec (.init (Flat.initial_start .empty)) (by decide +kernel)
  exact (lossless_framing hreach 0 (by decide) (by decide +kernel) (by decide +kernel)).mpr (by decide +kernel)

/-- Two empty objects in one piece. -/
def merged : State :=
  (server Flat.params).exec (Flat.start .empty)
    (Flat.connect 6 ++
      Flat.one 6 (some 0) { recvs := [.data (ascii "\x7b\x7d" ++ [0] ++ ascii "\x7b\x7d" ++ [0]) 1] })

/-- The second of two messages that arrive together is lost. -/
theorem lossless_framing_merged :
    ¬ ∀ (P : Params) (s : State) (c : Nat) (ms : List Bytes), (server P).Reach s →
      (∀ m ∈ ms, m ≠ [] ∧ (0 : Byte) ∉ m) → (∀ r ∈ receivedBy c s.trace, r ≠ .eof ∧ r ≠ .failed) →
      streamOf (receivedBy c s.trace) = frames ms → handedBy c s.trace = ms := by
  intro h
  have hreach : (server Flat.params).Reach merged := .exec (.init (Flat.initial_start .empty)) (by decide +kernel)
  have hhanded : handedBy 0 merged.trace = [ascii "\x7b\x7d"] := by decide +kernel
  have hall := h Flat.params merged 0 [ascii "\x7b\x7d", ascii "\x7b\x7d"] hreach (by decide) (by decide +kernel)
    (by decide +kernel)
  rw [hhanded] at hall
  exact absurd (congrArg List.length hall) (by decide)

end CmdAgent
