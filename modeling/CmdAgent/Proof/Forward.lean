import CmdAgent.Proof.Command
import CmdAgent.Proof.SendQueue

/-!
# What becomes of a forwarded command

`on_peer_ready_recv` keeps the result of `send` as a `size_t` and reports a
failure if it is zero. A result of -1 has become the largest `size_t`, and a
short count is not zero, so in these cases the rest of the command is neither
kept nor reported: it is not lost if and only if `send` took all of it or
nothing (`notLost_iff`).
-/

namespace CmdAgent

variable {P : Params} {ans : Answers} {fd : Int} {ms : List Member} {s : State} {m text : Bytes}

/-- The bytes of a slot that are still to be sent. -/
def PeerState.waiting (p : PeerState) : Bytes := ((p.sendData.getD []).drop p.sendptr.toNat).take p.sendlen.toNat

/-- Between `s` and `s'`, the text has been put on the stream of `f`, or what
is left of it is waiting to be sent. -/
def Kept (f : Int) (text : Bytes) (s s' : State) : Prop :=
  ∃ k, stream f s'.trace = stream f s.trace ++ text.take k ∧
    (s'.slots f).waiting = (s.slots f).waiting ++ text.drop k

/-- The last thing that was done is to report that the command was not sent. -/
def Reported (s' : State) : Prop :=
  s'.trace.head? = some (.debug "fail : session_table_match_non_client")

/-- `on_peer_ready_recv` returns, and the text for `f` is kept or its loss
reported. -/
def NotLost (P : Params) (ans : Answers) (fd : Int) (s : State) (f : Int) (text : Bytes) : Prop :=
  ∃ status s', onPeerReadyRecv P ans fd s = .ok status s' ∧ (Kept f text s s' ∨ Reported s')

/-! ## The result of `send` -/

/-- The result, converted to a `size_t`. -/
def SendAnswer.toSizeT : SendAnswer → Nat
  | .sent n => n
  | _ => 2 ^ 64 - 1

theorem SendAnswer.toSizeT_eq_zero {o : SendAnswer} : o.toSizeT = 0 ↔ o = .sent 0 := by
  cases o <;> simp [SendAnswer.toSizeT]

/-- What is put on the stream of the text that `send` was given. -/
def SendAnswer.taken (o : SendAnswer) (text : Bytes) : Bytes :=
  match o with
  | .sent n => text.take n
  | _ => []

theorem bytesOn_sent (m text : Bytes) (f : Int) (conn : Option Nat) (o : SendAnswer) :
    Obs.bytesOn f (.sent m f conn text o) = o.taken text := by
  cases o with
  | sent n => exact if_pos rfl
  | _ => rfl

/-- The answer to a `send` to `f` in the state `s`. -/
def State.sendAnswer (s : State) (ans : Answers) (f : Int) : SendAnswer :=
  if s.isSocket f then ans.send else .failed

theorem sendTo_run {f : Int} (h : s.sendAnswer ans f ≠ .sigpipe) :
    sendTo ans m f text s = .ok (s.sendAnswer ans f).toSizeT
      { s with trace := .sent m f (s.peerAt f) text (s.sendAnswer ans f) :: s.trace } := by
  have hget : (get : Proc State) s = .ok s s := rfl
  rw [sendTo, bind_run hget, bind_run (emitAt_run ..)]
  unfold State.sendAnswer at h ⊢
  generalize (if s.isSocket f then ans.send else .failed) = o at h ⊢
  cases o with
  | sigpipe => exact absurd rfl h
  | sent n => rfl
  | wouldBlock => rfl
  | failed => rfl

/-- The streams that are opened for the file are no sockets, and were none. -/
theorem isSocket_afterStreams (hv : ans.Valid s) {a b : Int} (ha : ans.stream₁ = some a)
    (hb : ans.stream₂ = some b) {u : State} (hu : u.fds = afterStreams s.fds a b) (f : Int) :
    u.isSocket f = s.isSocket f := by
  have hfa := (hv.stream₁ a ha).2
  have hfb := (hv.stream₂ b hb).1.2
  unfold State.isSocket
  rw [hu, afterStreams]
  by_cases hfb' : f = b
  · subst hfb'
    rw [Function.update_self, hfb]
  rw [Function.update_of_ne hfb', Function.update_of_ne hfb']
  by_cases hfa' : f = a
  · subst hfa'
    rw [Function.update_self, hfa]
  · rw [Function.update_of_ne hfa']

/-! ## The run -/

/-- Entries that put nothing on a stream. -/
theorem stream_silent {f : Int} {l : List Obs} (h : ∀ o ∈ l, o.bytesOn f = []) (trace : List Obs) :
    stream f (l ++ trace) = stream f trace := by
  have hl : stream f l = [] := by
    rw [stream, List.flatMap_eq_nil_iff]
    exact fun o ho => h o (List.mem_reverse.mp ho)
  rw [stream_append, hl, List.append_nil]

theorem Obs.Quiet.bytesOn {o : Obs} (h : o.Quiet) (f : Int) : o.bytesOn f = [] := by
  cases o <;> first | rfl | exact h.elim

/-- What is recorded before the command is sent puts nothing on a stream. -/
theorem stream_uxLooked (u : State) (f : Int) : stream f (uxLooked P ans u m).trace = stream f u.trace := by
  show stream f (.query _ :: (insertObs P.db ans uxSession u.session.fd .reqUx u.table ++
    .registered uxSession u.session.fd _ .reqUx :: u.trace)) = _
  rw [stream_cons, stream_silent fun o ho => (quiet_insertObs _ _ _ _ _ _ o ho).bytesOn f, stream_cons]
  simp [Obs.bytesOn]

/-- The end of the case `REQ_UX` for a command that is sent. -/
theorem serveUx_sent {u u' : State} {f : Int} {o : SendAnswer} (hf : IsInt32 u.session.fd)
    (hm : u.session.minerMac = .str m) (hfit : (selectFdText m).length + 1 ≤ QUERY_LEN)
    (hfound : found P.db ans m (uxStored P ans u).table = f) (h₀ : 0 ≤ f)
    (hbuilt : msgClientInfo P.json ans (uxLooked P ans u m) = .ok (text, text.length) u')
    (ho : u'.sendAnswer ans f = o) (hpipe : o ≠ .sigpipe) :
    ∃ s', serveUx P ans u = .ok ⟨⟩ s' ∧ s'.slots = u'.slots ∧
      s'.trace = (if o = .sent 0 then [.debug "fail : session_table_match_non_client"] else []) ++
        .sent m f (u'.peerAt f) text o :: u'.trace := by
  rw [serveUx_stored hf, hm, bind_run (mysqlSelectFd_run P.db ans _ hfit), hfound, if_neg (not_lt.mpr h₀),
    ← uxLooked, bind_run hbuilt, bind_run (readStr_run ..), List.take_length,
    bind_run (sendTo_run (by rw [ho]; exact hpipe)), ho]
  by_cases hz : o = .sent 0
  · rw [if_pos hz, hz]
    exact ⟨_, rfl, rfl, rfl⟩
  · have hpos : 0 < o.toSizeT := Nat.pos_of_ne_zero fun h => hz (SendAnswer.toSizeT_eq_zero.mp h)
    rw [if_neg hz, if_pos hpos]
    exact ⟨_, rfl, rfl, rfl⟩

/-- Where the command for the mac `m` is sent, for a UX message on `fd`. -/
def target (P : Params) (ans : Answers) (fd : Int) (t : Table) (m : Bytes) : Int :=
  found P.db ans m (insertTable P.db ans uxSession fd .reqUx t)

section

variable {data : Bytes} {rest : List Recv} {len : Nat} {s₀ : State} {o : SendAnswer}
  (hf : 0 ≤ fd ∧ fd < MAXFDS) (hv : ans.Valid s)
  (hread : socketRead ans.recvs = some (.ok (some data, 0), rest))
  (hj : parseStringToJson P.json (cstr data) = .object ms) (ht : agentTypeOf ms = .reqUx)
  (hm : (uxSessionOf s.session fd ms).minerMac = .str m) (hl : Located P ans fd s.table m)
  (hbuilt : msgClientInfo P.json ans (uxOn s fd ms s.session) = .ok (text, len) s₀)
  (ho : s.sendAnswer ans (target P ans fd s.table m) = o) (hpipe : o ≠ .sigpipe)

include hf hv hread hj ht hm hl hbuilt ho hpipe

/-- The whole of `on_peer_ready_recv` for a command that is sent. -/
theorem onPeerReadyRecv_sent :
    ∃ s' conn trace, onPeerReadyRecv P ans fd s = .ok fdStatusR s' ∧ s'.slots = s.slots ∧ text.length = len ∧
      stream (target P ans fd s.table m) trace = stream (target P ans fd s.table m) s.trace ∧
      s'.trace = (if o = .sent 0 then [.debug "fail : session_table_match_non_client"] else []) ++
        .sent m (target P ans fd s.table m) conn text o :: trace := by
  let s₁ := handedOn s fd ans.recvs (cstr data)
  let u := uxOn s₁ fd ms s₁.session
  obtain ⟨a, b, ha, hb, -, hrun⟩ := msgClientInfo_fields hbuilt (u := uxLooked P ans u m) rfl rfl rfl rfl
  obtain ⟨-, -, p, file, pi, -, -, -, htext⟩ := (msgClientInfo_ends P.json ans _).ok hbuilt
  obtain ⟨rfl, rfl⟩ := Prod.mk.inj htext
  have hstream : stream (target P ans fd s.table m) (uxLooked P ans u m).trace =
      stream (target P ans fd s.table m) s.trace := by
    rw [stream_uxLooked]
    show stream _ (.handed .. :: .received .. :: s.trace) = _
    rw [stream_cons, stream_cons]
    simp [Obs.bytesOn]
  obtain ⟨u', hrun, hfds, hslots, hstream⟩ : ∃ u' : State, msgClientInfo P.json ans (uxLooked P ans u m) =
      .ok (_, _) u' ∧ u'.fds = afterStreams s.fds a b ∧ u'.slots = s.slots ∧
      stream (target P ans fd s.table m) u'.trace = stream (target P ans fd s.table m) s.trace :=
    ⟨_, hrun, rfl, rfl, hstream⟩
  have ho' : u'.sendAnswer ans (target P ans fd s.table m) = o := by
    rw [← ho, State.sendAnswer, isSocket_afterStreams hv ha hb hfds]
    rfl
  obtain ⟨s', hserve, hslots', htrace⟩ :=
    serveUx_sent (P := P) (u := u) (isInt32_of_lt_maxfds hf) hm hl.1 rfl hl.2 hrun ho' hpipe
  refine ⟨s', _, _, ?_, hslots'.trans hslots, rfl, hstream, htrace⟩
  rw [onPeerReadyRecv_frame hf (readEnds_of_socketRead hread), hj, bind_run ((serve_ux ht _).trans hserve)]
  rfl

omit hf hv hread hj ht hm hl hbuilt ho hpipe in
/-- A call that leaves the slots alone keeps the text if and only if `send` has
accepted all of it. -/
theorem kept_iff {f : Int} {conn : Option Nat} {s' : State} {trace l : List Obs} (hslots : s'.slots = s.slots)
    (hquiet : ∀ o ∈ l, o.Quiet) (hstream : stream f trace = stream f s.trace)
    (htrace : s'.trace = l ++ .sent m f conn text o :: trace) :
    Kept f text s s' ↔ o.taken text = text := by
  have hs' : stream f s'.trace = stream f s.trace ++ o.taken text := by
    rw [htrace, stream_silent fun o ho => (hquiet o ho).bytesOn f, stream_cons, hstream, bytesOn_sent]
  unfold Kept
  rw [hs', hslots]
  constructor
  · intro hkept
    obtain ⟨k, hk, hw⟩ := hkept
    have hdrop : text.drop k = [] := List.append_right_eq_self.mp hw.symm
    rw [List.append_cancel_left hk, List.take_of_length_le (List.drop_eq_nil_iff.mp hdrop)]
  · intro h
    exact ⟨text.length, by rw [h, List.take_length], by rw [List.drop_length, List.append_nil]⟩

/-- A command is not lost if and only if `send` has taken its bytes, or its
result is zero. -/
theorem notLost_iff_taken :
    NotLost P ans fd s (target P ans fd s.table m) text ↔ o.taken text = text ∨ o = .sent 0 := by
  obtain ⟨s', conn, trace, hrun, hslots, -, hstream, htrace⟩ :=
    onPeerReadyRecv_sent hf hv hread hj ht hm hl hbuilt ho hpipe
  have hquiet : ∀ x ∈ (if o = .sent 0 then [Obs.debug "fail : session_table_match_non_client"] else []),
      x.Quiet := by
    split <;> simp [Obs.Quiet]
  have hkept := kept_iff hslots hquiet hstream htrace
  have hreported : Reported s' ↔ o = .sent 0 := by
    unfold Reported
    rw [htrace]
    split
    · rename_i hz; simp [hz]
    · rename_i hz; simp [hz]
  have hlost : NotLost P ans fd s (target P ans fd s.table m) text ↔
      Kept (target P ans fd s.table m) text s s' ∨ Reported s' := by
    constructor
    · intro hnot
      obtain ⟨status, s'', hrun', h⟩ := hnot
      obtain ⟨rfl, rfl⟩ := EStateM.Result.ok.inj (hrun.symm.trans hrun')
      exact h
    · intro h
      exact ⟨_, s', hrun, h⟩
  rw [hlost, hkept, hreported]

/-- A forwarded command is not lost if and only if `send` has taken all of it or
nothing. -/
theorem notLost_iff (hcount : ∀ n, o = .sent n → n ≤ len) :
    NotLost P ans fd s (target P ans fd s.table m) text ↔ text = [] ∨ o = .sent 0 ∨ o = .sent len := by
  obtain ⟨-, -, -, -, -, hlen, -⟩ := onPeerReadyRecv_sent hf hv hread hj ht hm hl hbuilt ho hpipe
  rw [notLost_iff_taken hf hv hread hj ht hm hl hbuilt ho hpipe]
  cases o with
  | sent n =>
    have hn := hcount n rfl
    simp only [SendAnswer.taken, SendAnswer.sent.injEq, List.take_eq_self_iff]
    rw [← List.length_eq_zero_iff]
    omega
  | sigpipe => exact absurd rfl hpipe
  | wouldBlock => simp [SendAnswer.taken, eq_comm]
  | failed => simp [SendAnswer.taken, eq_comm]

end

/-- The agent `m` is connected on descriptor 7. -/
def Flat.joined : State :=
  { Flat.start (KeyedTable.empty.put ⟨ascii "m", 7, 2⟩) with
    fds := Function.update (initialFds Flat.params) 7 (some (.peer 0)) }

/-- A UX client sends a command for it, and its forwarding is answered. -/
def Flat.forwarded (send : SendAnswer) : Answers := Flat.answers (Flat.download "m") 8 9 send

theorem command_download (send : SendAnswer) :
    ∃ s₀, msgClientInfo Flat.params.json (Flat.forwarded send)
      (uxOn Flat.joined 6 (Flat.downloadTo "/g") Flat.joined.session) =
        .ok (Flat.command, Flat.command.length) s₀ := by
  let σ := (uxOn Flat.joined 6 (Flat.downloadTo "/g") Flat.joined.session).session
  have hf : Forwardable (Flat.forwarded .failed) σ := by decide +kernel
  have hf' : Forwardable (Flat.forwarded send) σ :=
    ⟨hf.cmdType, hf.path, hf.pathInstall, hf.stream₁, hf.stream₂⟩
  obtain ⟨r, s₀, hrun⟩ := (returns_iff_forwardable Flat.params.json).mpr hf'
  obtain ⟨-, -, p, file, pi, hp, hfile, hpi, rfl⟩ := (msgClientInfo_ends Flat.params.json _ _).ok hrun
  obtain rfl : p = ascii "/f" := CharPtr.str.inj (hp.symm.trans (by decide +kernel))
  obtain rfl : pi = ascii "/g" := CharPtr.str.inj (hpi.symm.trans (by decide +kernel))
  have hempty : (Flat.forwarded send).files (ascii "/f") = some ⟨0, []⟩ := rfl
  obtain rfl := Option.some.inj (hfile.symm.trans hempty)
  have hcmd : command Flat.params.json σ (ascii "/f") (ascii "/g") ⟨0, []⟩ = Flat.command := by decide +kernel
  rw [hcmd] at hrun
  exact ⟨s₀, hrun⟩

theorem arrives_download :
    socketRead (Flat.arrives (Flat.download "m")) = some (.ok (some (Flat.download "m" ++ [0]), 0), []) := by
  decide +kernel

theorem parse_download :
    parseStringToJson Flat.params.json (cstr (Flat.download "m" ++ [0])) = .object (Flat.downloadTo "/g") :=
  Flat.parse_text _ []

theorem agentTypeOf_download : agentTypeOf (Flat.downloadTo "/g") = .reqUx := by decide +kernel

theorem minerMac_download :
    (uxSessionOf Flat.joined.session 6 (Flat.downloadTo "/g")).minerMac = .str (ascii "m") := by decide +kernel

/-- A command that is sent as a whole. -/
theorem notLost_whole :
    NotLost Flat.params (Flat.forwarded (.sent Flat.command.length)) 6 Flat.joined 7 Flat.command := by
  obtain ⟨s₀, hbuilt⟩ := command_download (.sent Flat.command.length)
  have htarget : target Flat.params (Flat.forwarded (.sent Flat.command.length)) 6 Flat.joined.table (ascii "m") = 7 := by
    decide +kernel
  have hvalid : (Flat.forwarded (.sent Flat.command.length)).Valid Flat.joined := by decide +kernel
  have hl : Located Flat.params (Flat.forwarded (.sent Flat.command.length)) 6 Flat.joined.table (ascii "m") :=
    ⟨by decide +kernel, by decide +kernel⟩
  have hiff := notLost_iff (by decide) hvalid arrives_download parse_download agentTypeOf_download minerMac_download hl
    hbuilt (show _ = SendAnswer.sent Flat.command.length by rw [htarget]; rfl) (by simp) (by simp)
  rw [htarget] at hiff
  exact hiff.mpr (.inr (.inr rfl))

/-- The send buffer of the agent is full: the command is dropped, and the
result of -1 taken for a success. -/
theorem notLost_full :
    ¬ ∀ (P : Params) (ans : Answers) (fd : Int) (s s₀ : State) (data : Bytes) (rest : List Recv)
      (ms : List Member) (m text : Bytes) (len : Nat), 0 ≤ fd ∧ fd < MAXFDS → ans.Valid s →
      socketRead ans.recvs = some (.ok (some data, 0), rest) →
      parseStringToJson P.json (cstr data) = .object ms → agentTypeOf ms = .reqUx →
      (uxSessionOf s.session fd ms).minerMac = .str m → Located P ans fd s.table m →
      msgClientInfo P.json ans (uxOn s fd ms s.session) = .ok (text, len) s₀ →
      s.sendAnswer ans (target P ans fd s.table m) ≠ .sigpipe →
      (∀ n, s.sendAnswer ans (target P ans fd s.table m) = .sent n → n ≤ len) →
      NotLost P ans fd s (target P ans fd s.table m) text := by
  intro h
  obtain ⟨s₀, hbuilt⟩ := command_download .wouldBlock
  have hvalid : (Flat.forwarded .wouldBlock).Valid Flat.joined := by decide +kernel
  have hl : Located Flat.params (Flat.forwarded .wouldBlock) 6 Flat.joined.table (ascii "m") :=
    ⟨by decide +kernel, by decide +kernel⟩
  have ho : Flat.joined.sendAnswer (Flat.forwarded .wouldBlock)
      (target Flat.params (Flat.forwarded .wouldBlock) 6 Flat.joined.table (ascii "m")) = .wouldBlock := by
    decide +kernel
  have hlost := h Flat.params _ 6 Flat.joined s₀ _ _ _ _ _ _ (by decide) hvalid arrives_download parse_download
    agentTypeOf_download minerMac_download hl hbuilt (by rw [ho]; simp) (by rw [ho]; simp)
  rw [notLost_iff_taken (by decide) hvalid arrives_download parse_download agentTypeOf_download minerMac_download hl
    hbuilt ho (by simp)] at hlost
  exact absurd hlost (by decide +kernel)

end CmdAgent
