import CmdAgent.Proof.Record
import CmdAgent.Proof.Command
import CmdAgent.Proof.Isolation
import CmdAgent.Proof.Log

/-!
# When the process goes on

`Survives` says when the handling of an event leaves the process running. Of
an event on the listener, `accept` and what follows it must not fail; of an
event of a peer, `recv` must not fail, and what it delivers must be the text
of an object that can be served (`Servable`): the mac can be read and fits,
and a UX message that finds its mac must be one whose command can be built
and sent. There is no other condition and none can be spared
(`survives_iff`).

Two consequences. As long as the kernel calls succeed and every message is
complete, no run ends the process, whatever the rows of the table say and
whichever queries fail (`steady_runs`). And a single connection is enough to
end it, from every state in which the loop waits (`one_peer_stops`).
-/

namespace CmdAgent

variable {P : Params} {s s' : State} {ans : Answers} {e : Ready}

/-! ## Serving a message -/

/-- The message with the members `ms` can be served. -/
structure Servable (P : Params) (s : State) (ans : Answers) (fd : Int) (ms : List Member) : Prop where
  agent : agentTypeOf ms = .reqLinuxClaymore →
    ∃ k, (agentSessionOf s.session fd ms).minerMac = .str k ∧ Fits k fd .reqLinuxClaymore
  lookup : agentTypeOf ms = .reqUx →
    ∃ m, (uxSessionOf s.session fd ms).minerMac = .str m ∧ (selectFdText m).length + 1 ≤ QUERY_LEN
  command : agentTypeOf ms = .reqUx → ∀ m, (uxSessionOf s.session fd ms).minerMac = .str m →
    0 ≤ found P.db ans m (insertTable P.db ans uxSession fd .reqUx s.table) →
    Forwardable ans (uxSessionOf s.session fd ms) ∧
      (s.isSocket (found P.db ans m (insertTable P.db ans uxSession fd .reqUx s.table)) = true →
        ans.send ≠ .sigpipe)

/-- The key of the UX clients fits with every descriptor of a connection. -/
theorem fits_uxSession {fd : Int} (hf : 0 ≤ fd ∧ fd < MAXFDS) : Fits uxSession fd .reqUx := by
  have hlen := length_printD_le (isInt32_of_lt_maxfds hf)
  have hkey : uxSession.length = 10 := rfl
  unfold Fits
  rw [length_insertText, length_updateText, hkey]
  unfold QUERY_LEN
  omega

theorem serveAgent_survives {fd : Int} {ms : List Member} (ht : agentTypeOf ms = .reqLinuxClaymore) (s : State) :
    Ends (serveAgent P ans) { s with session := agentSessionOf s.session fd ms }
      (fun _ _ => Servable P s ans fd ms) (fun _ _ => ¬ Servable P s ans fd ms) := by
  unfold serveAgent
  refine .bind (.get (.bind ((mysqlInsertFd_exact P.db ans _ _ .reqLinuxClaymore _).mono ?_ ?_)))
  · rintro _ _ ⟨k, hk, hfit, rfl⟩
    have hux : agentTypeOf ms ≠ .reqUx := by rw [ht]; decide
    exact .pure ⟨fun _ => ⟨k, hk, hfit⟩, fun h => absurd h hux, fun h => absurd h hux⟩
  · rintro _ _ ⟨hno, -⟩ hs
    obtain ⟨k, hk, hfit⟩ := hs.agent ht
    exact hno k hk hfit

theorem serveUx_survives {fd : Int} (hf : 0 ≤ fd ∧ fd < MAXFDS) {ms : List Member} (ht : agentTypeOf ms = .reqUx)
    (hs : StreamsFresh ans s) :
    Ends (serveUx P ans) { s with session := uxSessionOf s.session fd ms }
      (fun _ _ => Servable P s ans fd ms) (fun _ _ => ¬ Servable P s ans fd ms) := by
  have hagent : agentTypeOf ms ≠ .reqLinuxClaymore := by rw [ht]; decide
  unfold serveUx
  refine .bind (.get (.bind ((mysqlInsertFd_exact P.db ans _ _ .reqUx _).mono ?_ ?_)))
  swap
  · rintro _ _ ⟨hno, -⟩
    exact absurd (fits_uxSession hf) (hno uxSession rfl)
  rintro _ _ ⟨k, hk, hfit, rfl⟩
  obtain rfl := CharPtr.str.inj hk
  refine .bind ((mysqlSelectFd_exact P.db ans _ _).mono ?_ ?_)
  swap
  · rintro _ _ ⟨hno, -⟩ hserv
    obtain ⟨m, hm, hfit'⟩ := hserv.lookup ht
    exact hno m hm hfit'
  rintro f _ ⟨m, hm, hfit', hfound, rfl⟩
  -- the mac of the message is `m`, whichever way it is given
  have hsame : ∀ m', (uxSessionOf s.session fd ms).minerMac = .str m' → m' = m := fun m' hm' =>
    CharPtr.str.inj (hm'.symm.trans hm)
  have hserv : (0 ≤ f → Forwardable ans (uxSessionOf s.session fd ms) ∧ (s.isSocket f = true → ans.send ≠ .sigpipe)) →
      Servable P s ans fd ms := fun hcmd => by
    refine ⟨fun h => absurd h hagent, fun _ => ⟨m, hm, hfit'⟩, fun _ m' hm' hpos => ?_⟩
    obtain rfl := hsame m' hm'
    exact hfound ▸ hcmd (hfound ▸ hpos)
  split
  · rename_i hneg
    exact .modify (hserv fun hpos => absurd hneg (not_lt.mpr hpos))
  rename_i hpos
  rw [not_lt] at hpos
  have hcmd : Servable P s ans fd ms → _ := fun h => h.command ht m hm (hfound ▸ hpos)
  refine .bind ((msgClientInfo_ends P.json ans _).mono ?_ ?_)
  swap
  · rintro _ _ ⟨hno, -⟩ h
    exact hno (hcmd h).1
  rintro data _ ⟨hfw, ⟨a, b, ha, hb, rfl⟩, -⟩
  have hsock : ({ s with fds := afterStreams s.fds a b } : State).isSocket f = s.isSocket f :=
    isSocket_of_fdsKept (s := s) (FdsKept.afterStreams ha hb s.fds) hs f
  rw [hm]
  refine .bind (.pure (.bind ((sendTo_ends ans m f _ _).mono ?_ ?_)))
  · rintro n _ ⟨answer, hans, hne, rfl⟩
    have hans' : answer = if s.isSocket f then ans.send else .failed := hsock ▸ hans
    have hgood : Servable P s ans fd ms := hserv fun _ => ⟨hfw, fun hsock' heq => hne ?_⟩
    · split
      · exact .pure hgood
      · exact .modify hgood
    · rw [hans', if_pos hsock', heq]
  · rintro _ _ ⟨-, hans, -⟩ h
    obtain ⟨-, hne⟩ := hcmd h
    have hans' : (if s.isSocket f then ans.send else .failed) = .sigpipe := hsock ▸ hans
    by_cases hs' : s.isSocket f = true
    · rw [if_pos hs'] at hans'
      exact hne (hfound ▸ hs') hans'
    · rw [if_neg hs'] at hans'
      cases hans'

/-- A message is served if and only if it is an object that can be served. -/
theorem serve_survives {fd : Int} (hf : 0 ≤ fd ∧ fd < MAXFDS) (hs : StreamsFresh ans s) (msg : Json) :
    Ends (serve P ans fd msg) s (fun _ _ => ∃ ms, msg = .object ms ∧ Servable P s ans fd ms)
      (fun _ _ => ¬ ∃ ms, msg = .object ms ∧ Servable P s ans fd ms) := by
  unfold serve
  by_cases hobj : msg.IsObject
  · obtain ⟨ms, rfl⟩ := hobj
    have hok : ∀ {x : Proc PUnit} {s₁ : State},
        Ends x s₁ (fun _ _ => Servable P s ans fd ms) (fun _ _ => ¬ Servable P s ans fd ms) →
        Ends x s₁ (fun _ _ => ∃ ms', Json.object ms = .object ms' ∧ Servable P s ans fd ms')
          (fun _ _ => ¬ ∃ ms', Json.object ms = .object ms' ∧ Servable P s ans fd ms') := fun h =>
      h.mono (fun _ _ h => ⟨ms, rfl, h⟩) fun _ _ h => by
        rintro ⟨ms', heq, h'⟩
        rw [← Json.object.inj heq] at h'
        exact h h'
    rw [getAgentType_object]
    refine .bind (.pure ?_)
    cases ht : agentTypeOf ms with
    | reqInvalid =>
      refine .pure ⟨ms, rfl, fun h => ?_, fun h => ?_, fun h => ?_⟩ <;> rw [ht] at h <;> cases h
    | reqUx =>
      refine .bind (.get ?_)
      rw [parseJsonCmd_object]
      exact .bind (.pure (.bind (.modify (hok (serveUx_survives hf ht hs)))))
    | reqLinuxClaymore =>
      refine .bind (.get ?_)
      rw [parseJsonAgent_object]
      exact .bind (.pure (.bind (.modify (hok (serveAgent_survives ht s)))))
    | reqWindowClaymore => exact absurd ht (agentTypeOf_ne_window ms)
  · rw [getAgentType_of_not_object hobj]
    refine .bind (.throw ?_)
    rintro ⟨ms, rfl, -⟩
    exact hobj ⟨ms, rfl⟩

/-! ## Handling an event -/

/-- Handling the event `e` leaves the process running. -/
structure Survives (P : Params) (s : State) (ans : Answers) (e : Ready) : Prop where
  noError : e.events.epollerr = false
  accept : e.fd = P.listener → ans.accept ≠ .failed
  accepted : e.fd = P.listener → ∀ f, ans.accept = .accepted f →
    ans.fcntl = .done ∧ f < MAXFDS ∧ ans.ctlFails = false
  ctl : e.Reads P → ans.ctlFails = false
  read : e.Reads P → (readEnds [] ans.recvs).map Prod.fst ≠ some .failed ∧
    (readEnds [] ans.recvs).map Prod.fst ≠ some .overflow ∧ readEnds [] ans.recvs ≠ none
  frame : e.Reads P → ∀ data, (readEnds [] ans.recvs).map Prod.fst = some (.frame data) →
    ∃ ms, parseStringToJson P.json (cstr data) = .object ms ∧ Servable P s ans e.fd ms

theorem Servable.congr {fd : Int} {ms : List Member} (h : Servable P s ans fd ms) (hs : s'.session = s.session)
    (ht : s'.table = s.table) (hf : s'.fds = s.fds) : Servable P s' ans fd ms := by
  have hsock : s'.isSocket = s.isSocket := by funext f; rw [State.isSocket, State.isSocket, hf]
  refine ⟨?_, ?_, ?_⟩
  · rw [hs]; exact h.agent
  · rw [hs]; exact h.lookup
  · rw [hs, ht, hsock]; exact h.command

theorem Survives.congr (h : Survives P s ans e) (hs : s'.session = s.session) (ht : s'.table = s.table)
    (hf : s'.fds = s.fds) : Survives P s' ans e where
  noError := h.noError
  accept := h.accept
  accepted := h.accepted
  ctl := h.ctl
  read := h.read
  frame he data hd := by
    obtain ⟨ms, hj, hserv⟩ := h.frame he data hd
    exact ⟨ms, hj, hserv.congr hs ht hf⟩

/-- The handling of an event for a peer survives if reading does, `epoll_ctl`
does not fail, and a frame is served. -/
theorem Survives.of_reads (he : e.Reads P) (hc : ans.ctlFails = false) {r : ReadEnd}
    (hr : (readEnds [] ans.recvs).map Prod.fst = some r) (hfail : r ≠ .failed) (hover : r ≠ .overflow)
    (hframe : ∀ data, r = .frame data →
      ∃ ms, parseStringToJson P.json (cstr data) = .object ms ∧ Servable P s ans e.fd ms) :
    Survives P s ans e where
  noError := he.noError
  accept hl := absurd hl he.peer
  accepted hl := absurd hl he.peer
  ctl _ := hc
  read _ := by
    refine ⟨fun h => hfail ?_, fun h => hover ?_, fun h => ?_⟩
    · exact Option.some.inj (hr.symm.trans h)
    · exact Option.some.inj (hr.symm.trans h)
    · rw [h] at hr; cases hr
  frame _ data hd := hframe data (Option.some.inj (hr.symm.trans hd))

theorem recvPeer_survives (hs : StreamsFresh ans s) (he : e.Reads P) (hf : 0 ≤ e.fd ∧ e.fd < MAXFDS)
    (hep : s.epoll e.fd ≠ none) :
    Ends (recvPeer P ans e.fd) s (fun _ _ => Survives P s ans e) (fun _ _ => ¬ Survives P s ans e) := by
  have hctl : ans.ctlFails = true → ¬ Survives P s ans e := fun h hsurv => by
    rw [hsurv.ctl he] at h; cases h
  unfold recvPeer
  rw [onPeerReadyRecv_eq]
  refine .bind (.bind ?_)
  rw [assertLtMaxfds, if_pos hf.2]
  refine .pure (.bind ?_)
  rw [getSlot, if_pos hf]
  refine .bind (.get (.pure (.bind (.modify ?_))))
  rcases hr : (readEnds [] ans.recvs).map Prod.fst with _ | r
  · refine .throw fun hsurv => (hsurv.read he).2.2 ?_
    exact Option.map_eq_none_iff.mp hr
  cases r with
  | failed => exact .throw fun hsurv => (hsurv.read he).1 hr
  | overflow => exact .throw fun hsurv => (hsurv.read he).2.1 hr
  | eof =>
    refine .pure (.bind ((mysqlDeleteFd_ends P.db ans (isInt32_of_lt_maxfds hf) _).mono ?_ fun _ _ h => h.elim))
    rintro _ _ ⟨t, obs, -, -, rfl⟩
    refine .bind (.mono (epollCtlDel_ends ans e hep) ?_ ?_)
    · rintro _ _ ⟨hc, rfl⟩
      exact .modify (.of_reads he hc hr (by simp) (by simp) (by simp))
    · rintro _ _ ⟨-, hc, -⟩
      exact hctl hc
  | again =>
    refine .pure (.mono (epollCtlMod_ends ans e hep) ?_ ?_)
    · rintro _ _ ⟨hc, -⟩
      exact .of_reads he hc hr (by simp) (by simp) (by simp)
    · rintro _ _ ⟨-, hc, -⟩
      exact hctl hc
  | frame data =>
    refine .bind (.modify (.bind (((serve_ends P ans e.fd _ _).and
      (serve_survives (s := handedOn s e.fd ans.recvs (cstr data)) hf hs _)).mono ?_ ?_)))
    · rintro _ s' ⟨hserves, ms, hj, hserv⟩
      have hep' : s'.epoll e.fd ≠ none := by rw [hserves.epoll]; exact hep
      refine .pure (.mono (epollCtlMod_ends ans e hep') ?_ ?_)
      · rintro _ _ ⟨hc, -⟩
        refine .of_reads he hc hr (by simp) (by simp) fun d hd => ⟨ms, ?_, hserv.congr rfl rfl rfl⟩
        rw [← ReadEnd.frame.inj hd]
        exact hj
      · rintro _ _ ⟨-, hc, -⟩
        exact hctl hc
    · rintro _ _ ⟨-, hno⟩ hsurv
      obtain ⟨ms, hj, hserv⟩ := hsurv.frame he data hr
      exact hno ⟨ms, hj, hserv.congr rfl rfl rfl⟩

theorem acceptPeer_survives (he : e.events.epollerr = false) (hl : e.fd = P.listener)
    (hf : ∀ f, ans.accept = .accepted f → 0 ≤ f ∧ s.epoll f = none) :
    Ends (acceptPeer ans) s (fun _ _ => Survives P s ans e) (fun _ _ => ¬ Survives P s ans e) := by
  have hno : ¬ e.Reads P := fun h => h.peer hl
  have hsurv : ans.accept ≠ .failed → (∀ f, ans.accept = .accepted f →
      ans.fcntl = .done ∧ f < MAXFDS ∧ ans.ctlFails = false) → Survives P s ans e := fun h₁ h₂ =>
    ⟨he, fun _ => h₁, fun _ => h₂, fun h => absurd h hno, fun h => absurd h hno, fun h => absurd h hno⟩
  unfold acceptPeer
  rcases ha : ans.accept with f | _ | _
  · obtain ⟨hf₀, hep⟩ := hf f ha
    have hall : Survives P s ans e → ans.fcntl = .done ∧ f < MAXFDS ∧ ans.ctlFails = false := fun h =>
      h.accepted hl f ha
    refine .bind (.modify (.bind ?_))
    unfold makeSocketNonBlocking
    rcases hfc : ans.fcntl with _ | _ | _
    · refine .pure ?_
      split
      · rename_i hge
        exact .throw fun h => absurd (hall h).2.1 (not_lt.mpr hge)
      · rename_i hlt
        rw [not_le] at hlt
        refine .bind ?_
        unfold onPeerConnected assertLtMaxfds setSlot
        rw [if_pos hlt, if_pos ⟨hf₀, hlt⟩]
        refine .bind (.pure (.bind (.modify (.pure ?_))))
        unfold epollCtlAdd
        refine .bind (.get ?_)
        split
        · rename_i hc
          refine .throw fun h => ?_
          have hc' := hc.resolve_right (not_not.mpr hep)
          rw [(hall h).2.2] at hc'
          cases hc'
        · rename_i hc
          rw [not_or, Bool.not_eq_true] at hc
          refine .modify (hsurv (by rw [ha]; simp) fun g hg => ?_)
          obtain rfl := AcceptAnswer.accepted.inj (ha.symm.trans hg)
          exact ⟨hfc, hlt, hc.1⟩
    · refine .throw fun h => ?_
      have hdone := (hall h).1
      rw [hfc] at hdone
      cases hdone
    · refine .throw fun h => ?_
      have hdone := (hall h).1
      rw [hfc] at hdone
      cases hdone
  · exact .pure (hsurv (by rw [ha]; simp) fun g hg => by rw [ha] at hg; cases hg)
  · exact .throw fun h => h.accept hl ha

theorem handleEvent_survives (hs : StreamsFresh ans s) (h : EventOk P s ans e) :
    Ends (handleEvent P ans e) s (fun _ _ => Survives P s ans e) (fun _ _ => ¬ Survives P s ans e) := by
  unfold handleEvent
  split
  · rename_i he
    exact .throw fun hsurv => by rw [hsurv.noError] at he; cases he
  rename_i he
  rw [Bool.not_eq_true] at he
  split
  · rename_i hl; exact acceptPeer_survives he hl h.accept
  rename_i hl
  split
  · rename_i hin
    obtain ⟨h₁, h₂, h₃⟩ := h.peer hl
    exact recvPeer_survives hs ⟨he, hl, hin⟩ ⟨h₁, h₂⟩ h₃
  rename_i hin
  rw [if_neg (by simp [h.epollout])]
  have hno : ¬ e.Reads P := fun h => hin h.epollin
  exact .pure ⟨he, fun h => absurd h hl, fun h => absurd h hl, fun h => absurd h hno, fun h => absurd h hno,
    fun h => absurd h hno⟩

theorem Book.survives_iff_next (hb : Book P s) (hrun : s.stopped = none) (hv : ans.Valid s) {rest : List Ready}
    (hbatch : s.batch = e :: rest) : Survives P s ans e ↔ (next P s (.event ans)).stopped = none := by
  have hend := handleEvent_survives (s := { s with batch := rest }) hv.streamsFresh (hb.eventOk hv hbatch)
  -- the condition does not depend on the rest of the batch
  have hrest : Survives P { s with batch := rest } ans e ↔ Survives P s ans e :=
    ⟨fun h => h.congr rfl rfl rfl, fun h => h.congr rfl rfl rfl⟩
  rw [← hrest]
  simp only [next, hbatch, finish]
  cases hx : handleEvent P ans e { s with batch := rest } with
  | ok _ s₁ =>
    have hrun₁ : s₁.stopped = none :=
      (((handleEvent_ends P ans e (hb.eventOk hv hbatch)).ok hx).stopped).trans hrun
    exact iff_of_true (hend.ok hx) hrun₁
  | error r s₁ => exact iff_of_false (hend.error hx) (by simp)

/-- From every reachable state, the handling of the next event leaves the
process running if and only if the event survives. -/
theorem survives_iff (h : (server P).Reach s) (ha : admits s (.event ans)) {rest : List Ready}
    (hbatch : s.batch = e :: rest) : (next P s (.event ans)).stopped = none ↔ Survives P s ans e := by
  obtain ⟨hrun, -, hv⟩ := ha
  exact ((reach_book h hrun).survives_iff_next hrun hv hbatch).symm

/-- The UX client of `commanding` asks for a file that is not there: its agent
is found, and the process ends. -/
theorem survives_missing :
    ¬ Survives Flat.params commanding { recvs := Flat.arrives (Flat.download "m") }
      ⟨7, { epollin := true }, some 1⟩ := by
  have hs : admits commanding (.event { recvs := Flat.arrives (Flat.download "m") }) ∧
      commanding.batch = [⟨7, { epollin := true }, some 1⟩] ∧
      (next Flat.params commanding (.event { recvs := Flat.arrives (Flat.download "m") })).stopped =
        some (.undefined "json_object_new_string") := by decide +kernel
  have hreach : (server Flat.params).Reach commanding :=
    .exec (.init (Flat.initial_start .empty)) (by decide +kernel)
  rw [← survives_iff hreach hs.1 hs.2.1, hs.2.2]
  simp

/-! ## Runs that never end -/

/-- The frame that `socket_read` delivers. -/
def Answers.frame? (ans : Answers) : Option Bytes :=
  match (readEnds [] ans.recvs).map Prod.fst with
  | some (.frame data) => some data
  | _ => none

theorem Answers.frame?_eq_some {data : Bytes} :
    ans.frame? = some data ↔ (readEnds [] ans.recvs).map Prod.fst = some (.frame data) := by
  unfold frame?
  split
  · rename_i d h
    rw [h, Option.some.injEq, Option.some.injEq, ReadEnd.frame.injEq]
  · rename_i h
    exact ⟨fun h' => (nomatch h'), fun h' => absurd h' (h data)⟩

/-- A UX message that brings along a whole command, for a file that fits its
buffer and an agent that does not hang up. -/
structure Orderly (ans : Answers) (ms : List Member) : Prop where
  mac : ∃ m ∈ macOf ms, m.length ≤ 208
  cmdType : ∃ c ∈ lastString (ascii "commend_type") ms, cstr c = ascii "file-download"
  path : ∃ b ∈ lastString (ascii "path") ms, ∃ file ∈ ans.files (cstr b), file.Fits ans.spare
  pathInstall : ∃ b ∈ lastString (ascii "path_install") ms, b.length ≠ 0
  streams : ans.stream₁ ≠ none ∧ ans.stream₂ ≠ none
  send : ans.send ≠ .sigpipe

instance (ms : List Member) : Decidable (Orderly ans ms) :=
  decidable_of_iff
    ((∃ m ∈ macOf ms, m.length ≤ 208) ∧
      (∃ c ∈ lastString (ascii "commend_type") ms, cstr c = ascii "file-download") ∧
      (∃ b ∈ lastString (ascii "path") ms, ∃ file ∈ ans.files (cstr b), file.Fits ans.spare) ∧
      (∃ b ∈ lastString (ascii "path_install") ms, b.length ≠ 0) ∧ (ans.stream₁ ≠ none ∧ ans.stream₂ ≠ none) ∧
      ans.send ≠ .sigpipe)
    ⟨fun ⟨h₁, h₂, h₃, h₄, h₅, h₆⟩ => ⟨h₁, h₂, h₃, h₄, h₅, h₆⟩,
      fun h => ⟨h.mac, h.cmdType, h.path, h.pathInstall, h.streams, h.send⟩⟩

/-- An agent's message has a mac that fits, and a UX message is a whole
command. -/
def Mannered (ans : Answers) (ms : List Member) : Prop :=
  (agentTypeOf ms = .reqLinuxClaymore → ∃ k ∈ macOf ms, k.length ≤ 178) ∧
    (agentTypeOf ms = .reqUx → Orderly ans ms)

instance (ms : List Member) : Decidable (Mannered ans ms) := inferInstanceAs (Decidable ((_ → _) ∧ (_ → _)))

/-- The calls for the event do not fail, and what is received is a message that
can be served. Neither the table nor the session is spoken of. -/
structure Steady (P : Params) (ans : Answers) (e : Ready) : Prop where
  noError : e.events.epollerr = false
  accept : ans.accept ≠ .failed
  accepted : ∀ f ∈ ans.accept.fd?, f < MAXFDS
  fcntl : ans.fcntl = .done
  ctl : ans.ctlFails = false
  read : (readEnds [] ans.recvs).map Prod.fst ≠ some .failed ∧ (readEnds [] ans.recvs).map Prod.fst ≠ some .overflow
  frame : ∀ data ∈ ans.frame?, ∃ ms ∈ jsonObjectGetObject (parseStringToJson P.json (cstr data)), Mannered ans ms

instance : Decidable (Steady P ans e) :=
  decidable_of_iff
    (e.events.epollerr = false ∧ ans.accept ≠ .failed ∧ (∀ f ∈ ans.accept.fd?, f < MAXFDS) ∧ ans.fcntl = .done ∧
      ans.ctlFails = false ∧
      ((readEnds [] ans.recvs).map Prod.fst ≠ some .failed ∧
        (readEnds [] ans.recvs).map Prod.fst ≠ some .overflow) ∧
      ∀ data ∈ ans.frame?, ∃ ms ∈ jsonObjectGetObject (parseStringToJson P.json (cstr data)), Mannered ans ms)
    ⟨fun ⟨h₁, h₂, h₃, h₄, h₅, h₆, h₇⟩ => ⟨h₁, h₂, h₃, h₄, h₅, h₆, h₇⟩,
      fun h => ⟨h.noError, h.accept, h.accepted, h.fcntl, h.ctl, h.read, h.frame⟩⟩

theorem jsonObjectGetObject_eq_some {j : Json} {ms : List Member} :
    jsonObjectGetObject j = some ms ↔ j = .object ms := by
  cases j <;> simp [jsonObjectGetObject]

/-- An orderly message can be forwarded, whatever is in the session. -/
theorem Orderly.forwardable {ms : List Member} (h : Orderly ans ms) (σ : Session) (fd : Int) :
    Forwardable ans (uxSessionOf σ fd ms) := by
  obtain ⟨c, hc, hcmd⟩ := h.cmdType
  obtain ⟨b, hb, file, hfile, hfits⟩ := h.path
  obtain ⟨pi, hpi, hne⟩ := h.pathInstall
  rw [Option.mem_def] at hc hb hpi
  refine ⟨?_, ⟨cstr b, file, ?_, hfile, hfits⟩, ⟨cstr pi, ?_⟩, h.streams.1, h.streams.2⟩
  · simp only [uxSessionOf, Session.cmdFields, hc, Option.map_some, Option.getD_some, Function.comp_apply, hcmd]
  · simp only [uxSessionOf, Session.cmdFields, hb, Option.map_some, Option.getD_some, Function.comp_apply]
  · simp only [uxSessionOf, Session.cmdFields, hpi, Option.map_some, Option.getD_some, pathInstallPtr, if_pos hne]

/-- A mannered message can be served in every state, on every descriptor. -/
theorem Mannered.servable {ms : List Member} (h : Mannered ans ms) {fd : Int} (hf : 0 ≤ fd ∧ fd < MAXFDS)
    (s : State) : Servable P s ans fd ms := by
  refine ⟨fun ht => ?_, fun ht => ?_, fun ht m hm hpos => ?_⟩
  · obtain ⟨k, hk, hlen⟩ := h.1 ht
    refine ⟨k, minerMac_of_macOf s.session fd hk, ?_⟩
    have hroom := length_printD_add_macRoom hf.1 hf.2
    have hmin : 178 ≤ macRoom fd := by unfold macRoom; split_ifs <;> omega
    unfold Fits
    rw [length_insertText, length_updateText]
    unfold QUERY_LEN
    omega
  · obtain ⟨m, hm, hlen⟩ := (h.2 ht).mac
    refine ⟨m, uxSessionOf_minerMac hm s.session, ?_⟩
    rw [length_selectFdText]
    unfold QUERY_LEN
    omega
  · exact ⟨(h.2 ht).forwardable s.session fd, fun _ => (h.2 ht).send⟩

/-- A step of a steady run. -/
def SteadyStep (P : Params) (s : State) : Action → Prop
  | .wait _ _ => True
  | .event ans => ∀ e ∈ s.batch.head?, Steady P ans e

instance : ∀ a, Decidable (SteadyStep P s a)
  | .wait _ _ => isTrue trivial
  | .event _ => inferInstanceAs (Decidable (∀ _ ∈ _, _))

def steadyServer (P : Params) : Machine State Action := (server P).restrict (fun _ => True) (SteadyStep P)

instance (a : Action) : Decidable ((steadyServer P).admits s a) :=
  inferInstanceAs (Decidable (((server P).restrict _ (SteadyStep P)).admits s a))

theorem Steady.survives (h : Steady P ans e) (hf : e.Reads P → 0 ≤ e.fd ∧ e.fd < MAXFDS)
    (hv : ans.Valid s) : Survives P s ans e where
  noError := h.noError
  accept _ := h.accept
  accepted _ f ha := ⟨h.fcntl, h.accepted f (AcceptAnswer.fd?_eq_some.mpr ha), h.ctl⟩
  ctl _ := h.ctl
  read _ := by
    refine ⟨h.read.1, h.read.2, fun hnone => ?_⟩
    obtain ⟨r, hr⟩ := hv.returns
    have heq := socketRead_eq ans.recvs
    rw [hr, hnone] at heq
    cases heq
  frame he data hd := by
    obtain ⟨ms, hj, hm⟩ := h.frame data (Answers.frame?_eq_some.mpr hd)
    exact ⟨ms, jsonObjectGetObject_eq_some.mp hj, hm.servable (hf he) s⟩

theorem Serves.of_not_object {fd : Int} {msg : Json} {o : Option Stop} (h : Serves P ans fd msg s o s')
    (hj : ¬ msg.IsObject) : o = some nullObject := by
  cases h with
  | malformed => rfl
  | _ hobj => exact absurd ⟨_, hobj⟩ hj

/-- A frame that is no object ends the process, whatever else happens. -/
theorem Handles.of_not_object {o : Option Stop} (h : Handles P ans e s o s') (he : e.Reads P) {data : Bytes}
    (hr : (readEnds [] ans.recvs).map Prod.fst = some (.frame data))
    (hj : ¬ (parseStringToJson P.json (cstr data)).IsObject) : o = some nullObject := by
  have hsame : ∀ {d}, (readEnds [] ans.recvs).map Prod.fst = some (.frame d) → d = data := fun hd =>
    ReadEnd.frame.inj (Option.some.inj (hd.symm.trans hr))
  cases h with
  | error h => rw [he.noError] at h; cases h
  | idle _ h =>
    rcases h with h | h
    · exact absurd h he.peer
    · rw [he.epollin] at h; cases h
  | acceptFailed _ hl | accepted _ hl | acceptDied _ hl => exact absurd hl he.peer
  | readStopped _ h =>
    rcases h with ⟨-, h⟩ | ⟨-, h⟩ | ⟨-, h⟩
    · rw [h] at hr; cases hr
    · rw [h] at hr; cases hr
    · rw [h] at hr; cases hr
  | again _ h | againDied _ h | closed _ h | closeDied _ h => rw [h] at hr; cases hr
  | served _ hr' hs =>
    obtain rfl := hsame hr'
    exact hs.of_not_object hj
  | serveDied _ hr' hs =>
    obtain rfl := hsame hr'
    cases hs.of_not_object hj
  | serveStopped _ hr' hs =>
    obtain rfl := hsame hr'
    exact hs.of_not_object hj

/-- The connection `c` on `f` sends a text and its NUL, which arrive in one
piece. -/
def sendsText (session : Session) (f : Int) (c : Nat) (text : Bytes) : List Action :=
  [.wait session [⟨f, { epollin := true }, some c⟩], .event { recvs := [.data (text ++ [0]) 1] }]

theorem readEnds_piece {text : Bytes} (hlen : text.length < MAX_RECV_BUFF_SIZE) :
    readEnds [] [.data (text ++ [0]) 1] = some (.frame (text ++ [0]), []) := by
  have hmax : ¬ INT_MAX < (([] ++ (text ++ [0]) : Bytes).length : Int) := by
    unfold MAX_RECV_BUFF_SIZE at hlen
    simp only [List.nil_append, List.length_append, List.length_singleton, INT_MAX]
    omega
  rw [readEnds, if_neg hmax, if_pos (.inl (by simp))]
  rfl

theorem valid_piece {text : Bytes} (hlen : text.length < MAX_RECV_BUFF_SIZE) (s : State) :
    ({ recvs := [.data (text ++ [0]) 1] } : Answers).Valid s where
  accept _ h := nomatch h
  recvs r hr := by
    rw [List.mem_singleton.mp hr]
    refine ⟨by simp, ?_⟩
    rw [List.length_append, List.length_singleton]
    exact hlen
  returns := by
    have heq := socketRead_eq [.data (text ++ [0]) 1]
    rw [readEnds_piece hlen] at heq
    obtain ⟨⟨r, left⟩, hr, hleft⟩ := Option.map_eq_some_iff.mp heq
    obtain rfl : left = [] := congrArg Prod.snd hleft
    exact ⟨r, hr⟩
  stream₁ _ h := nomatch h
  stream₂ _ h := nomatch h
  files := rfl

/-- From every state in which the loop waits, a connection that sends a text
which is no object, in one piece, ends the process. -/
theorem one_peer_stops (h : (server P).Reach s) (hrun : s.stopped = none) (hidle : s.batch = []) {f : Int} {c : Nat}
    (hc : s.fds f = some (.peer c)) {text : Bytes} (hnul : (0 : Byte) ∉ text) (hlen : text.length < MAX_RECV_BUFF_SIZE)
    (hj : ¬ (parseStringToJson P.json text).IsObject) (session : Session) :
    (server P).Admits s (sendsText session f c text) ∧
      ((server P).exec s (sendsText session f c text)).stopped = some nullObject := by
  have hb := reach_book h hrun
  have hwait : (server P).admits s (.wait session [⟨f, { epollin := true }, some c⟩]) := by
    refine ⟨hrun, hidle, by simp, fun e he => ?_⟩
    rw [List.mem_singleton.mp he]
    have hep := hb.epoll_of_peer hc
    exact ⟨by simp [hep], fun _ => by simp [hep, readable], fun h => by simp at h,
      (State.peerAt_eq_some.mpr hc).symm⟩
  have hev : admits (next P s (.wait session [⟨f, { epollin := true }, some c⟩]))
      (.event { recvs := [.data (text ++ [0]) 1] }) := ⟨hrun, by simp [next], valid_piece hlen _⟩
  refine ⟨⟨hwait, hev, trivial⟩, ?_⟩
  have hreach : (server P).Reach (next P s (.wait session [⟨f, { epollin := true }, some c⟩])) :=
    .step h hwait
  have hbook := reach_book hreach hrun
  obtain ⟨o, s', hh, heq⟩ := next_event hbook hrun hev.2.2 rfl
  have hreads : Ready.Reads P ⟨f, { epollin := true }, some c⟩ := ⟨rfl, hb.ne_listener hc, rfl⟩
  have hcstr : cstr (text ++ [0]) = text := cstr_append_nul hnul []
  have ho := hh.of_not_object hreads (by rw [readEnds_piece hlen]; rfl) (by rw [hcstr]; exact hj)
  have hexec : (server P).exec s (sendsText session f c text) =
      next P (next P s (.wait session [⟨f, { epollin := true }, some c⟩]))
        (.event { recvs := [.data (text ++ [0]) 1] }) := rfl
  rw [hexec, heq, ho]

/-- A client that has just connected. -/
theorem one_peer_stops_new :
    let s := (server Flat.params).exec (Flat.start .empty) (Flat.connect 6)
    ((server Flat.params).exec s (sendsText Flat.garbage 6 0 (ascii "x"))).stopped = some nullObject := by
  intro s
  have hs : s.stopped = none ∧ s.batch = [] ∧ s.fds 6 = some (.peer 0) := by decide +kernel
  have hreach : (server Flat.params).Reach s := .exec (.init (Flat.initial_start .empty)) (by decide +kernel)
  refine (one_peer_stops hreach hs.1 hs.2.1 hs.2.2 (by decide +kernel) (by decide) ?_ Flat.garbage).2
  rintro ⟨ms, hms⟩
  cases hms

end CmdAgent
