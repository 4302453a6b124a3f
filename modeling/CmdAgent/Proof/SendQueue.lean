import CmdAgent.Impl.Flat
import CmdAgent.Proof.Step

/-!
# The send queue of a peer

A slot of `global_state` is a queue of `sendbuf_end` bytes at `send_data`, of
which `send` has accepted the first `sendptr`. `PeerState.next` and
`PeerState.status` are what `on_peer_ready_send` makes of an answer of `send`,
and `readySends_run` is a run of such calls.

The bookkeeping is right in every run, but each call offers the bytes from the
start of `send_data` and not from `sendptr` on: whatever the buffer holds, it
gets through unchanged if and only if no call completes a send that was begun
by another (`sentOnce_iff`).

`on_peer_connected` resets a slot but for `send_data`, so the slots of two
earlier peers lead to the same behaviour if and only if they agree in it
(`traceless_iff`).
-/

namespace CmdAgent

variable {fd : Int} {s : State} {p : PeerState} {a : SendAnswer} {as : List SendAnswer}

/-! ## What is put on a stream -/

/-- The bytes an entry of the trace puts on the stream of `fd`. -/
def Obs.bytesOn (fd : Int) : Obs → Bytes
  | .sent _ f _ data (.sent n) => if f = fd then data.take n else []
  | .offered f (some data) (.sent n) => if f = fd then data.take n else []
  | _ => []

/-- The bytes `send` has accepted for `fd`, in order. -/
def stream (fd : Int) (trace : List Obs) : Bytes := trace.reverse.flatMap (Obs.bytesOn fd)

theorem stream_cons (fd : Int) (o : Obs) (trace : List Obs) :
    stream fd (o :: trace) = stream fd trace ++ o.bytesOn fd := by
  simp [stream]

theorem stream_append (fd : Int) (l trace : List Obs) :
    stream fd (l ++ trace) = stream fd trace ++ stream fd l := by
  simp [stream]

/-! ## One call -/

namespace PeerState

/-- There is something to send. -/
def Pending (p : PeerState) : Prop := p.sendptr < p.sendbufEnd

instance (p : PeerState) : Decidable p.Pending := inferInstanceAs (Decidable (_ < _))

def sendlen (p : PeerState) : Int := p.sendbufEnd - p.sendptr

/-- The slot after `send` has accepted `n` bytes. -/
def advance (p : PeerState) (n : Nat) : PeerState :=
  if (n : Int) < p.sendlen then { p with sendptr := p.sendptr + n }
  else
    { p with
      sendptr := 0
      sendbufEnd := 0
      state := if p.state = .initialAck then .waitForMsg else p.state }

/-- The slot after a call of `on_peer_ready_send`. -/
def next (p : PeerState) (a : SendAnswer) : PeerState :=
  match a with
  | .sent n => if p.Pending then p.advance n else p
  | _ => p

def status (p : PeerState) (a : SendAnswer) : FdStatus :=
  if p.Pending then
    match a with
    | .sent n => if (n : Int) < p.sendlen then fdStatusW else fdStatusR
    | _ => fdStatusW
  else fdStatusRW

/-- What the call records: the bytes it offers to `send`, if it gets there. -/
def offers (p : PeerState) (fd : Int) (a : SendAnswer) : List Obs :=
  if p.Pending then [.offered fd (p.sendData.map (·.take p.sendlen.toNat)) a] else []

/-- An answer of `send` to this call: would-block, or a count up to what it
was given. -/
def Takes (p : PeerState) (a : SendAnswer) : Prop :=
  p.Pending → a = .wouldBlock ∨ ∃ n : Nat, a = .sent n ∧ (n : Int) ≤ p.sendlen

theorem next_of_not_pending (h : ¬ p.Pending) (a : SendAnswer) : p.next a = p := by
  cases a <;> simp [next, h]

theorem sendData_next (p : PeerState) (a : SendAnswer) : (p.next a).sendData = p.sendData := by
  cases a with
  | sent n =>
    unfold next advance
    dsimp only
    split
    · split <;> rfl
    · rfl
  | _ => rfl

end PeerState

theorem getSlot_run (hfd : 0 ≤ fd ∧ fd < MAXFDS) (s : State) : getSlot fd s = .ok (s.slots fd) s := by
  rw [getSlot, if_pos hfd]
  rfl

theorem setSlot_run (hfd : 0 ≤ fd ∧ fd < MAXFDS) (f : PeerState → PeerState) (s : State) :
    setSlot fd f s = .ok ⟨⟩ { s with slots := Function.update s.slots fd (f (s.slots fd)) } := by
  rw [setSlot, if_pos hfd]
  rfl

theorem assertLtMaxfds_run (hfd : 0 ≤ fd ∧ fd < MAXFDS) (s : State) : assertLtMaxfds fd s = .ok ⟨⟩ s := by
  rw [assertLtMaxfds, if_pos hfd.2]
  rfl

/-- The state after a call that leaves the slot `p`, and has recorded `l`. -/
def State.called (s : State) (fd : Int) (p : PeerState) (l : List Obs) : State :=
  { s with slots := Function.update s.slots fd p, trace := l ++ s.trace }

/-- One call, with a buffer to send from. -/
theorem onPeerReadySend_run (hfd : 0 ≤ fd ∧ fd < MAXFDS) (hbuf : (s.slots fd).sendData ≠ none)
    (ha : (s.slots fd).Takes a) :
    onPeerReadySend { send := a } fd s = .ok ((s.slots fd).status a)
      (s.called fd ((s.slots fd).next a) ((s.slots fd).offers fd a ++ [.readySend fd])) := by
  have hemit : ∀ (o : Obs) (s : State), emit o s = .ok ⟨⟩ { s with trace := o :: s.trace } := fun _ _ => rfl
  unfold onPeerReadySend
  rw [bind_run (hemit ..), bind_run (assertLtMaxfds_run hfd _), bind_run (getSlot_run hfd _)]
  by_cases hp : (s.slots fd).Pending
  · have hsome : (s.slots fd).sendData.isSome = true := Option.isSome_iff_ne_none.mpr hbuf
    rw [if_neg (not_le.mpr hp), if_pos hsome, bind_run (hemit ..)]
    rcases ha hp with rfl | ⟨n, rfl, -⟩
    · simp only [PeerState.status, PeerState.offers, hp, if_true, State.called, PeerState.next,
        Function.update_eq_self]
      rfl
    · simp only [PeerState.status, PeerState.offers, hp, if_true, State.called, PeerState.next,
        PeerState.advance, PeerState.sendlen]
      by_cases hn : (n : Int) < (s.slots fd).sendbufEnd - (s.slots fd).sendptr
      · simp only [hn, if_true]
        rw [bind_run (setSlot_run hfd _ _)]
        rfl
      · simp only [hn, if_false]
        rw [bind_run (setSlot_run hfd _ _)]
        rfl
  · rw [if_pos (not_lt.mp hp), PeerState.next_of_not_pending hp]
    simp only [PeerState.status, PeerState.offers, hp, if_false, State.called, Function.update_eq_self]
    rfl

/-! ## Runs of calls -/

/-- One call of `on_peer_ready_send` after the other, with these answers. -/
def readySends (fd : Int) : List SendAnswer → Proc (List FdStatus)
  | [] => pure []
  | a :: as => do
    let status ← onPeerReadySend { send := a } fd
    let rest ← readySends fd as
    pure (status :: rest)

namespace PeerState

def run (p : PeerState) (as : List SendAnswer) : PeerState := as.foldl next p

def statuses (p : PeerState) : List SendAnswer → List FdStatus
  | [] => []
  | a :: as => p.status a :: (p.next a).statuses as

def records (p : PeerState) (fd : Int) : List SendAnswer → List Obs
  | [] => []
  | a :: as => (p.next a).records fd as ++ (p.offers fd a ++ [.readySend fd])

/-- Each answer is one to the call it comes to. -/
def Accepts (p : PeerState) : List SendAnswer → Prop
  | [] => True
  | a :: as => p.Takes a ∧ (p.next a).Accepts as

/-- The bytes `send` accepts from a slot. -/
def sentBy (p : PeerState) (a : SendAnswer) : Bytes :=
  match a with
  | .sent n => if p.Pending then ((p.sendData.getD []).take p.sendlen.toNat).take n else []
  | _ => []

def sent (p : PeerState) : List SendAnswer → Bytes
  | [] => []
  | a :: as => p.sentBy a ++ (p.next a).sent as

theorem run_snoc (p : PeerState) (l : List SendAnswer) (a : SendAnswer) : p.run (l ++ [a]) = (p.run l).next a :=
  List.foldl_append ..

theorem sendData_run (p : PeerState) (as : List SendAnswer) : (p.run as).sendData = p.sendData := by
  induction as generalizing p with
  | nil => rfl
  | cons a as ih => exact (ih (p.next a)).trans (sendData_next p a)

theorem sent_snoc (p : PeerState) (l : List SendAnswer) (a : SendAnswer) :
    p.sent (l ++ [a]) = p.sent l ++ (p.run l).sentBy a := by
  induction l generalizing p with
  | nil => simp [sent, run]
  | cons b l ih =>
    rw [List.cons_append, sent, ih, sent, List.append_assoc]
    rfl

theorem statuses_snoc (p : PeerState) (l : List SendAnswer) (a : SendAnswer) :
    p.statuses (l ++ [a]) = p.statuses l ++ [(p.run l).status a] := by
  induction l generalizing p with
  | nil => rfl
  | cons b l ih =>
    rw [List.cons_append, statuses, ih, statuses]
    rfl

theorem accepts_snoc (p : PeerState) (l : List SendAnswer) (a : SendAnswer) :
    p.Accepts (l ++ [a]) ↔ p.Accepts l ∧ (p.run l).Takes a := by
  induction l generalizing p with
  | nil => simp [Accepts, run]
  | cons b l ih =>
    rw [List.cons_append, Accepts, ih, Accepts, and_assoc]
    rfl

theorem Accepts.start {l : List SendAnswer} (h : p.Accepts as) (hl : l <+: as) : p.Accepts l := by
  obtain ⟨r, rfl⟩ := hl
  induction r using List.reverseRecOn with
  | nil => simpa using h
  | append_singleton r a ih =>
    rw [← List.append_assoc] at h
    exact ih ((accepts_snoc ..).mp h).1

/-- What a call records puts the bytes that were accepted on the stream. -/
theorem stream_offers (p : PeerState) (fd : Int) (a : SendAnswer) (h : p.sendData ≠ none) :
    stream fd (p.offers fd a ++ [.readySend fd]) = p.sentBy a := by
  obtain ⟨buf, hbuf⟩ := Option.ne_none_iff_exists'.mp h
  have hready : Obs.bytesOn fd (.readySend fd) = [] := rfl
  by_cases hp : p.Pending
  · rw [offers, if_pos hp, List.singleton_append, stream_cons, stream_cons, hready, List.append_nil]
    cases a with
    | sent n => simp [stream, Obs.bytesOn, sentBy, hbuf, hp]
    | _ => simp [stream, Obs.bytesOn, sentBy, hbuf]
  · rw [offers, if_neg hp, List.nil_append, stream_cons, hready, List.append_nil]
    cases a <;> simp [stream, sentBy, hp]

theorem stream_records (p : PeerState) (fd : Int) (h : p.sendData ≠ none) :
    stream fd (p.records fd as) = p.sent as := by
  induction as generalizing p with
  | nil => rfl
  | cons a as ih =>
    rw [records, stream_append, ih (p.next a) (by rwa [sendData_next]), stream_offers p fd a h, sent]

end PeerState

theorem called_called (s : State) (fd : Int) (p p' : PeerState) (l l' : List Obs) :
    (s.called fd p l).called fd p' l' = s.called fd p' (l' ++ l) := by
  simp [State.called]

theorem slots_called (s : State) (fd : Int) (p : PeerState) (l : List Obs) : (s.called fd p l).slots fd = p :=
  Function.update_self ..

/-- A run of calls, with a buffer to send from. -/
theorem readySends_run (hfd : 0 ≤ fd ∧ fd < MAXFDS) (hbuf : (s.slots fd).sendData ≠ none)
    (h : (s.slots fd).Accepts as) :
    readySends fd as s = .ok ((s.slots fd).statuses as)
      (s.called fd ((s.slots fd).run as) ((s.slots fd).records fd as)) := by
  induction as generalizing s with
  | nil =>
    simp only [PeerState.statuses, PeerState.run, PeerState.records, State.called, List.foldl_nil,
      Function.update_eq_self]
    rfl
  | cons a as ih =>
    let s₁ := s.called fd ((s.slots fd).next a) ((s.slots fd).offers fd a ++ [.readySend fd])
    have hslot : s₁.slots fd = (s.slots fd).next a := slots_called ..
    have hrest := ih (s := s₁) (by rw [hslot, PeerState.sendData_next]; exact hbuf) (by rw [hslot]; exact h.2)
    rw [hslot, called_called] at hrest
    rw [readySends, bind_run (onPeerReadySend_run hfd hbuf h.1), bind_run hrest]
    rfl

/-! ## The bookkeeping -/

namespace PeerState

/-- The offset is within the queue. -/
def InRange (p : PeerState) : Prop := 0 ≤ p.sendptr ∧ p.sendptr ≤ p.sendbufEnd

instance (p : PeerState) : Decidable p.InRange := inferInstanceAs (Decidable (_ ∧ _))

theorem InRange.next (h : p.InRange) (a : SendAnswer) : (p.next a).InRange := by
  obtain ⟨h₀, h₁⟩ := h
  cases a with
  | sent n =>
    unfold PeerState.next advance
    dsimp only
    split
    · split
      · rename_i hn
        unfold sendlen at hn
        constructor
        · show 0 ≤ p.sendptr + n
          omega
        · show p.sendptr + n ≤ p.sendbufEnd
          omega
      · exact ⟨le_rfl, le_rfl⟩
    · exact ⟨h₀, h₁⟩
  | _ => exact ⟨h₀, h₁⟩

theorem InRange.run (h : p.InRange) (as : List SendAnswer) : (p.run as).InRange := by
  induction as generalizing p with
  | nil => exact h
  | cons a as ih => exact ih (h.next a)

theorem status_eq_R : p.status a = fdStatusR ↔ p.Pending ∧ ∃ n : Nat, a = .sent n ∧ p.sendlen ≤ n := by
  unfold status
  split
  · rename_i hp
    cases a with
    | sent n =>
      dsimp only
      split
      · rename_i hn
        simp only [hp, SendAnswer.sent.injEq, true_and, exists_eq_left']
        exact ⟨fun h => (by cases h), fun h => absurd hn (not_lt.mpr h)⟩
      · rename_i hn
        simp only [hp, SendAnswer.sent.injEq, true_and, exists_eq_left', true_iff]
        exact not_lt.mp hn
    | _ => simp [fdStatusW, fdStatusR]
  · rename_i hp
    simp [hp, fdStatusRW, fdStatusR]

/-- `INITIAL_ACK` is left at a completion. -/
theorem state_next (p : PeerState) (a : SendAnswer) :
    (p.next a).state =
      if p.state = .initialAck ∧ p.status a = fdStatusR then .waitForMsg else p.state := by
  by_cases hR : p.status a = fdStatusR
  · obtain ⟨hp, n, rfl, hn⟩ := status_eq_R.mp hR
    simp [next, advance, hp, hR, not_lt.mpr hn]
  · rw [if_neg fun h => hR h.2]
    cases a with
    | sent n =>
      rw [status_eq_R, not_and, not_exists] at hR
      unfold next advance
      dsimp only
      split
      · rename_i hp
        rw [if_pos (not_le.mp fun hn => hR hp n ⟨rfl, hn⟩)]
      · rfl
    | _ => rfl

theorem state_run (p : PeerState) (as : List SendAnswer) :
    (p.run as).state =
      if p.state = .initialAck ∧ fdStatusR ∈ p.statuses as then .waitForMsg else p.state := by
  induction as generalizing p with
  | nil => simp [run, statuses]
  | cons a as ih =>
    show ((p.next a).run as).state = _
    rw [ih, state_next, statuses]
    by_cases hi : p.state = .initialAck
    · by_cases hR : p.status a = fdStatusR
      · simp [hi, hR]
      · simp [hi, hR, Ne.symm hR]
    · simp [hi]

theorem length_sentBy {buf : Bytes} (hd : p.sendData = some buf) (hlen : (buf.length : Int) = p.sendbufEnd)
    (hr : p.InRange) (hp : p.Pending) {n : Nat} (hn : (n : Int) ≤ p.sendlen) : (p.sentBy (.sent n)).length = n := by
  unfold sendlen at hn
  obtain ⟨h₀, -⟩ := hr
  simp only [sentBy, hp, if_true, hd, Option.getD_some, List.length_take, sendlen]
  omega

/-- Until it completes, the offset counts the bytes that were accepted since it
was zero. -/
theorem progress {buf : Bytes} (hr : p.InRange) (h₀ : p.sendptr = 0) (hd : p.sendData = some buf)
    (hlen : (buf.length : Int) = p.sendbufEnd) (l : List SendAnswer) :
    (p.run l).sendbufEnd = 0 ∨
      (p.run l).sendbufEnd = p.sendbufEnd ∧ ((p.sent l).length : Int) = (p.run l).sendptr := by
  induction l using List.reverseRecOn with
  | nil => exact .inr ⟨rfl, h₀.symm⟩
  | append_singleton l a ih =>
    have hrange := hr.run l
    rw [run_snoc, sent_snoc, List.length_append]
    by_cases hp : (p.run l).Pending
    · have hend : (p.run l).sendbufEnd ≠ 0 := by
        obtain ⟨h₁, -⟩ := hrange
        unfold Pending at hp
        omega
      obtain ⟨he, hs⟩ := ih.resolve_left hend
      cases a with
      | sent n =>
        simp only [next, hp, if_true, advance]
        split
        · rename_i hn
          have hsent := length_sentBy (by rw [sendData_run, hd]) (by rw [he, hlen]) hrange hp (le_of_lt hn)
          exact .inr ⟨he, by rw [hsent]; push_cast; rw [hs]⟩
        · exact .inl rfl
      | _ => exact .inr ⟨he, by simpa [sentBy, next] using hs⟩
    · have hsent : (p.run l).sentBy a = [] := by cases a <;> simp [sentBy, hp]
      rw [next_of_not_pending hp, hsent]
      simpa using ih

/-! The buffer plays no part in the bookkeeping. -/

def withData (p : PeerState) (buf : Bytes) : PeerState := { p with sendData := some buf }

theorem next_withData (p : PeerState) (buf : Bytes) (a : SendAnswer) :
    (p.withData buf).next a = (p.next a).withData buf := by
  cases a with
  | sent n =>
    by_cases hp : p.Pending
    · have hp' : (p.withData buf).Pending := hp
      simp only [next, hp, hp', if_true, advance]
      by_cases hn : (n : Int) < p.sendlen
      · rw [if_pos hn, if_pos (show (n : Int) < (p.withData buf).sendlen from hn)]
        rfl
      · rw [if_neg hn, if_neg (show ¬ (n : Int) < (p.withData buf).sendlen from hn)]
        rfl
    · rw [next_of_not_pending hp, next_of_not_pending (show ¬ (p.withData buf).Pending from hp)]
  | _ => rfl

theorem run_withData (p : PeerState) (buf : Bytes) (as : List SendAnswer) :
    (p.withData buf).run as = (p.run as).withData buf := by
  induction as generalizing p with
  | nil => rfl
  | cons a as ih =>
    show ((p.withData buf).next a).run as = _
    rw [next_withData, ih]
    rfl

theorem accepts_withData (p : PeerState) (buf : Bytes) (as : List SendAnswer) :
    (p.withData buf).Accepts as ↔ p.Accepts as := by
  induction as generalizing p with
  | nil => rfl
  | cons a as ih =>
    rw [Accepts, Accepts, next_withData, ih]
    rfl

end PeerState

/-! ## Each byte once -/

/-- The state in which `send_data` of the slot leads to `buf`. -/
def State.holding (s : State) (fd : Int) (buf : Bytes) : State :=
  { s with slots := Function.update s.slots fd ((s.slots fd).withData buf) }

theorem slots_holding (s : State) (fd : Int) (buf : Bytes) :
    (s.holding fd buf).slots fd = (s.slots fd).withData buf := Function.update_self ..

/-- What holds in the state `s'` after a run of calls from `s`: the offset is
within the queue; if the last call has completed a send, begun with `sendptr`
at zero, then `send` has accepted the buffer; and `INITIAL_ACK` has been left
for `WAIT_FOR_MSG` if and only if a call has completed. -/
structure Accounted (fd : Int) (buf : Bytes) (s : State) (statuses : List FdStatus) (s' : State) : Prop where
  range : (s'.slots fd).InRange
  content : (s.slots fd).sendptr = 0 → statuses.getLast? = some fdStatusR →
    stream fd s'.trace = stream fd s.trace ++ buf
  ack : (s'.slots fd).state =
    if (s.slots fd).state = .initialAck ∧ fdStatusR ∈ statuses then .waitForMsg else (s.slots fd).state

/-- After every call of the run, the slot is in order and each byte of the
buffer has been sent once. -/
def SentOnce (fd : Int) (buf : Bytes) (s : State) (as : List SendAnswer) : Prop :=
  ∀ l, l <+: as → ∃ statuses s', readySends fd l s = .ok statuses s' ∧ Accounted fd buf s statuses s'

/-- No call completes a send that was begun by another: when `send` takes all it
was given, this is the whole queue. -/
def PeerState.Unbroken (p : PeerState) (as : List SendAnswer) : Prop :=
  p.sendptr = 0 → ∀ (l : List SendAnswer) (n : Nat), l ++ [.sent n] <+: as → (p.run l).Pending →
    (p.run l).sendlen ≤ n → (p.run l).sendptr = 0

/-- A run, in terms of the slot. -/
theorem readySends_holding (hfd : 0 ≤ fd ∧ fd < MAXFDS) (h : (s.slots fd).Accepts as) (buf : Bytes) :
    ∃ s', readySends fd as (s.holding fd buf) = .ok (((s.slots fd).withData buf).statuses as) s' ∧
      s'.slots fd = ((s.slots fd).run as).withData buf ∧
      stream fd s'.trace = stream fd s.trace ++ ((s.slots fd).withData buf).sent as := by
  have hslot := slots_holding s fd buf
  have hbuf : ((s.holding fd buf).slots fd).sendData ≠ none := by
    rw [hslot]
    simp [PeerState.withData]
  have hrun := readySends_run hfd hbuf (by rw [hslot, PeerState.accepts_withData]; exact h)
  rw [hslot] at hrun hbuf
  refine ⟨_, hrun, ?_, ?_⟩
  · rw [slots_called, PeerState.run_withData]
  · show stream fd (_ ++ s.trace) = _
    rw [stream_append, PeerState.stream_records _ fd hbuf]

/-- A call that completes an unbroken send has offered the whole buffer. -/
theorem PeerState.sent_of_completes {buf : Bytes} (hr : p.InRange) (h₀ : p.sendptr = 0)
    (hd : p.sendData = some buf) (hlen : (buf.length : Int) = p.sendbufEnd) {l : List SendAnswer}
    (hR : (p.run l).status a = fdStatusR) (hl : (p.run l).sendptr = 0) : p.sent (l ++ [a]) = buf := by
  obtain ⟨hp, n, rfl, hn⟩ := status_eq_R.mp hR
  obtain ⟨he, hs⟩ := (progress hr h₀ hd hlen l).resolve_left (by unfold Pending at hp; omega)
  have hnil : p.sent l = [] := List.length_eq_zero_iff.mp (by omega)
  have hd' : (p.run l).sendData = some buf := by rw [sendData_run, hd]
  unfold sendlen at hn
  have hall : buf.take ((p.run l).sendbufEnd - (p.run l).sendptr).toNat = buf :=
    List.take_of_length_le (by omega)
  rw [sent_snoc, hnil, List.nil_append, sentBy, if_pos hp, hd', Option.getD_some, sendlen, hall,
    List.take_of_length_le (by omega)]

/-- A call that completes a broken send repeats the start of the buffer: with a
byte there that occurs nowhere else, this shows. -/
theorem PeerState.sent_ne_of_broken {n : Nat} (hr : p.InRange) (h₀ : p.sendptr = 0)
    (hd : p.sendData = some (1 :: List.replicate n 0)) (hlen : (n + 1 : Int) = p.sendbufEnd)
    {l : List SendAnswer} (hR : (p.run l).status a = fdStatusR) (hl : (p.run l).sendptr ≠ 0) :
    p.sent (l ++ [a]) ≠ 1 :: List.replicate n 0 := by
  intro heq
  obtain ⟨hp, k, rfl, hk⟩ := status_eq_R.mp hR
  obtain ⟨h₁, h₂⟩ := hr.run l
  unfold Pending at hp
  obtain ⟨he, hs⟩ := (progress hr h₀ hd (by simp [← hlen]) l).resolve_left (by omega)
  unfold sendlen at hk
  have hd' : (p.run l).sendData = some (1 :: List.replicate n 0) := by rw [sendData_run, hd]
  -- the first byte of the last part, in what was sent and in the buffer
  have hat := congrArg (·[(p.sent l).length]?) heq
  have hsent : ((p.run l).sentBy (.sent k))[0]? = some 1 := by
    have hm : 0 < ((p.run l).sendbufEnd - (p.run l).sendptr).toNat := by omega
    have hk₀ : 0 < k := by omega
    rw [sentBy, if_pos (show (p.run l).Pending from hp), hd', Option.getD_some, sendlen,
      List.getElem?_take_of_lt hk₀, List.getElem?_take_of_lt hm]
    rfl
  have hbuf : (1 :: List.replicate n 0 : Bytes)[(p.sent l).length]? = some 0 := by
    obtain ⟨j, hj⟩ := Nat.exists_eq_succ_of_ne_zero (n := (p.sent l).length) (by omega)
    rw [hj, List.getElem?_cons_succ, List.getElem?_replicate, if_pos (by omega)]
  rw [sent_snoc, List.getElem?_append_right le_rfl, Nat.sub_self, hsent, hbuf] at hat
  cases hat

theorem getLast_statuses {l : List SendAnswer} (h : (p.statuses l).getLast? = some fdStatusR) :
    ∃ l' a, l = l' ++ [a] ∧ (p.run l').status a = fdStatusR := by
  induction l using List.reverseRecOn with
  | nil => cases h
  | append_singleton l a _ =>
    rw [PeerState.statuses_snoc, List.getLast?_concat] at h
    exact ⟨l, a, rfl, Option.some.inj h⟩

theorem sentOnce_of_unbroken (hfd : 0 ≤ fd ∧ fd < MAXFDS) (hr : (s.slots fd).InRange)
    (h : (s.slots fd).Accepts as) (hu : (s.slots fd).Unbroken as) {buf : Bytes}
    (hlen : (buf.length : Int) = (s.slots fd).sendbufEnd) : SentOnce fd buf (s.holding fd buf) as := by
  intro l hl
  obtain ⟨s', hrun, hslot, hstream⟩ := readySends_holding hfd (h.start hl) buf
  refine ⟨_, s', hrun, ?_, fun h₀ hlast => ?_, ?_⟩
  · rw [hslot]
    exact hr.run l
  · rw [slots_holding] at h₀
    obtain ⟨l, a, rfl, hR⟩ := getLast_statuses hlast
    have hz : (((s.slots fd).withData buf).run l).sendptr = 0 := by
      obtain ⟨hp, n, rfl, hn⟩ := PeerState.status_eq_R.mp hR
      rw [PeerState.run_withData] at hp hn ⊢
      exact hu h₀ l n hl hp hn
    have hsent : ((s.slots fd).withData buf).sent (l ++ [a]) = buf :=
      PeerState.sent_of_completes (p := (s.slots fd).withData buf) hr h₀ rfl hlen hR hz
    rw [hstream, hsent]
    rfl
  · rw [hslot, slots_holding]
    have hstate := PeerState.state_run ((s.slots fd).withData buf) l
    rw [PeerState.run_withData] at hstate
    exact hstate

theorem unbroken_of_sentOnce (hfd : 0 ≤ fd ∧ fd < MAXFDS) (hr : (s.slots fd).InRange)
    (h : (s.slots fd).Accepts as)
    (hall : ∀ buf : Bytes, (buf.length : Int) = (s.slots fd).sendbufEnd →
      SentOnce fd buf (s.holding fd buf) as) : (s.slots fd).Unbroken as := by
  intro h₀ l n hl hp hn
  by_contra hbroken
  have hR : ((s.slots fd).run l).status (.sent n) = fdStatusR := PeerState.status_eq_R.mpr ⟨hp, n, rfl, hn⟩
  rcases Int.lt_or_le 0 (s.slots fd).sendbufEnd with hpos | hneg
  · obtain ⟨k, hk⟩ : ∃ k : Nat, (k + 1 : Int) = (s.slots fd).sendbufEnd :=
      ⟨((s.slots fd).sendbufEnd - 1).toNat, by omega⟩
    let buf : Bytes := 1 :: List.replicate k 0
    obtain ⟨s', hrun, -, hstream⟩ := readySends_holding hfd (h.start hl) buf
    obtain ⟨statuses, s'', hrun', hacc⟩ := hall buf (by simp [buf, ← hk]) _ hl
    obtain ⟨rfl, rfl⟩ := EStateM.Result.ok.inj (hrun.symm.trans hrun')
    have hR' : (((s.slots fd).withData buf).run l).status (.sent n) = fdStatusR := by
      rw [PeerState.run_withData]
      exact hR
    have hlast : (((s.slots fd).withData buf).statuses (l ++ [.sent n])).getLast? = some fdStatusR := by
      rw [PeerState.statuses_snoc, List.getLast?_concat, hR']
    have hcontent := hacc.content (by rw [slots_holding]; exact h₀) hlast
    rw [hstream] at hcontent
    refine PeerState.sent_ne_of_broken (p := (s.slots fd).withData buf) hr h₀ rfl hk hR' ?_
      (List.append_cancel_left hcontent)
    rw [PeerState.run_withData]
    exact hbroken
  · -- an empty queue has nothing to send
    have hend : (s.slots fd).sendbufEnd = 0 := le_antisymm hneg (h₀ ▸ hr.2)
    have hprog := PeerState.progress (p := (s.slots fd).withData []) hr h₀ rfl hend.symm l
    rw [PeerState.run_withData] at hprog
    have hz : ((s.slots fd).run l).sendbufEnd = 0 := hprog.elim id fun hsame => hsame.1.trans hend
    have hge := (hr.run l).1
    unfold PeerState.Pending at hp
    omega

/-- Whatever the buffer holds, the slot stays in order and each byte is sent
once, if and only if no call completes a send that was begun by another. -/
theorem sentOnce_iff (hfd : 0 ≤ fd ∧ fd < MAXFDS) (hr : (s.slots fd).InRange) (h : (s.slots fd).Accepts as) :
    (∀ buf : Bytes, (buf.length : Int) = (s.slots fd).sendbufEnd → SentOnce fd buf (s.holding fd buf) as) ↔
      (s.slots fd).Unbroken as :=
  ⟨unbroken_of_sentOnce hfd hr h, fun hu _ hlen => sentOnce_of_unbroken hfd hr h hu hlen⟩

/-- A slot with two bytes to send. -/
def Flat.queued : State :=
  { Flat.start .empty with slots := fun _ => ⟨.initialAck, none, 2, 0⟩ }

/-- The first call would block, and the second sends both bytes. -/
theorem sentOnce_whole : SentOnce 6 [1, 2] (Flat.queued.holding 6 [1, 2]) [.wouldBlock, .sent 2] := by
  have hacc : (Flat.queued.slots 6).Accepts [.wouldBlock, .sent 2] :=
    ⟨fun _ => .inl rfl, fun _ => .inr ⟨2, rfl, by decide⟩, trivial⟩
  refine (sentOnce_iff (by decide) (by decide) hacc).mpr (fun _ l n hl _ _ => ?_) [1, 2] rfl
  have hlen := hl.length_le
  rcases l with _ | ⟨b, _ | ⟨c, l⟩⟩
  · rfl
  · obtain rfl : b = .wouldBlock := (List.cons_prefix_cons.mp hl).1
    rfl
  · simp at hlen

/-- Two calls that send one byte each send the same byte twice. -/
theorem sentOnce_halves :
    ¬ ∀ (fd : Int) (buf : Bytes) (s : State) (as : List SendAnswer), 0 ≤ fd ∧ fd < MAXFDS →
      (s.slots fd).sendData = some buf → (buf.length : Int) = (s.slots fd).sendbufEnd → (s.slots fd).InRange →
      (s.slots fd).Accepts as → SentOnce fd buf s as := by
  intro h
  have hacc : ((Flat.queued.holding 6 [1, 2]).slots 6).Accepts [.sent 1, .sent 1] :=
    ⟨fun _ => .inr ⟨1, rfl, by decide⟩, fun _ => .inr ⟨1, rfl, by decide⟩, trivial⟩
  obtain ⟨statuses, s', hrun, hacc'⟩ := h 6 [1, 2] (Flat.queued.holding 6 [1, 2]) [.sent 1, .sent 1] (by decide)
    rfl rfl (by decide) hacc _ List.prefix_rfl
  have hrun' := readySends_run (s := Flat.queued.holding 6 [1, 2]) (by decide) (by decide) hacc
  obtain ⟨rfl, rfl⟩ := EStateM.Result.ok.inj (hrun'.symm.trans hrun)
  exact absurd (hacc'.content rfl (by decide)) (by decide)

/-! ## A slot that is used again -/

/-- A new peer on `fd`, and then a run of calls of `on_peer_ready_send`. -/
def reconnect (fd : Int) (as : List SendAnswer) : Proc (FdStatus × List FdStatus) := do
  let status ← onPeerConnected fd
  let statuses ← readySends fd as
  pure (status, statuses)

/-- The bytes offered to `send` on `fd`. -/
def offeredOn (fd : Int) (trace : List Obs) : List (Option Bytes) :=
  trace.filterMap fun o =>
    match o with
    | .offered f data _ => if f = fd then some data else none
    | _ => none

/-- What shows of such a run, when the slot holds `p` from an earlier peer: the
statuses (none, if the process has ended), the slot it leaves and the bytes
that were offered. -/
def seen (fd : Int) (s : State) (p : PeerState) (as : List SendAnswer) :
    Option (FdStatus × List FdStatus) × PeerState × List (Option Bytes) :=
  let s₀ := { s with slots := Function.update s.slots fd p }
  let s' := finish (reconnect fd as) s₀
  (returned (reconnect fd as) s₀, s'.slots fd, offeredOn fd s'.trace)

/-- With either slot from an earlier peer, the same shows of all runs. -/
def Traceless (fd : Int) (s : State) (p₁ p₂ : PeerState) : Prop := ∀ as, seen fd s p₁ as = seen fd s p₂ as

theorem onPeerConnected_run (hfd : 0 ≤ fd ∧ fd < MAXFDS) (s : State) (p : PeerState) :
    onPeerConnected fd { s with slots := Function.update s.slots fd p } =
      .ok fdStatusR { s with slots := Function.update s.slots fd (freshSlot p) } := by
  rw [onPeerConnected, bind_run (assertLtMaxfds_run hfd _), bind_run (setSlot_run hfd _ _)]
  simp only [Function.update_idem, Function.update_self]
  rfl

/-- Nothing but `send_data` is left of an earlier peer, and that is. -/
theorem traceless_iff (hfd : 0 ≤ fd ∧ fd < MAXFDS) {p₁ p₂ : PeerState} :
    Traceless fd s p₁ p₂ ↔ p₁.sendData = p₂.sendData := by
  have hrun : ∀ as p, reconnect fd as { s with slots := Function.update s.slots fd p } =
      (do
        let statuses ← readySends fd as
        pure (fdStatusR, statuses) : Proc (FdStatus × List FdStatus))
        { s with slots := Function.update s.slots fd (freshSlot p) } := fun as p =>
    bind_run (onPeerConnected_run hfd s p)
  constructor
  · intro h
    have hslot : ∀ p, (seen fd s p []).2.1 = freshSlot p := fun p => by
      simp only [seen, finish, hrun]
      exact Function.update_self ..
    have heq := congrArg (·.2.1) (h [])
    rw [hslot, hslot] at heq
    show (freshSlot p₁).sendData = (freshSlot p₂).sendData
    rw [heq]
  · intro h as
    have hc : freshSlot p₁ = freshSlot p₂ := by simp [freshSlot, h]
    simp only [seen, finish, returned, hrun, hc]

/-- Two slots that were never given anything to send. -/
theorem traceless_unused :
    Traceless 6 (Flat.start .empty) ⟨.initialAck, none, 8, 0⟩ ⟨.waitForMsg, none, 4, 3⟩ :=
  (traceless_iff (by decide)).mpr rfl

/-- The bytes a former peer was sent are offered to its successor. -/
theorem traceless_leak :
    ¬ ∀ (fd : Int) (s : State) (p₁ p₂ : PeerState), 0 ≤ fd ∧ fd < MAXFDS → Traceless fd s p₁ p₂ := by
  intro h
  have hseen := h 6 (Flat.start .empty) ⟨.waitForMsg, some (ascii "secret 1"), 0, 0⟩
    ⟨.waitForMsg, some (ascii "secret 2"), 0, 0⟩ (by decide) [.sent 8]
  exact absurd (congrArg (·.2.2) hseen) (by decide +kernel)

end CmdAgent
