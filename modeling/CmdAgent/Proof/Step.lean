import CmdAgent.Proof.Serve

/-!
# What handling an event does

`Handles` lists what the body of the loop can do with an event, given what the
bookkeeping of the loop ensures (`EventOk`): the descriptor of a ready peer is
in range and registered, and no event is for writing. `handleEvent_ends` says
that these are all the cases; the invariants of the loop are proved by going
through them.
-/

namespace CmdAgent

/-- What is known of an event when it is handled. -/
structure EventOk (P : Params) (s : State) (ans : Answers) (e : Ready) : Prop where
  epollout : e.events.epollout = false
  peer : e.fd ≠ P.listener → 0 ≤ e.fd ∧ e.fd < MAXFDS ∧ s.epoll e.fd ≠ none
  accept : ∀ f, ans.accept = .accepted f → 0 ≤ f ∧ s.epoll f = none

/-- The state after `accept` returned `f`. -/
def opened (s : State) (f : Int) : State :=
  { s with
    fds := Function.update s.fds f (some (.peer s.nextConn))
    nextConn := s.nextConn + 1
    trace := .accepted f s.nextConn :: s.trace }

/-- The slot of a new connection. -/
def freshSlot (p : PeerState) : PeerState :=
  { p with state := .initialAck, sendptr := 0, sendbufEnd := SYNACK_LEN }

/-- The state after `socket_read` got `recvs` on `fd`. -/
def readOn (s : State) (fd : Int) (recvs : List Recv) : State :=
  { s with trace := .received fd (s.peerAt fd) recvs :: s.trace }

/-- The state when the string `text` is handed to the parser. -/
def handedOn (s : State) (fd : Int) (recvs : List Recv) (text : Bytes) : State :=
  { readOn s fd recvs with
    trace := .handed fd (s.peerAt fd) text :: .received fd (s.peerAt fd) recvs :: s.trace }

/-- The state after `mysql_delete_fd`, which left the table `t`. -/
def deletedOn (s : State) (fd : Int) (recvs : List Recv) (t : Table) (obs : List Obs) : State :=
  { s with table := t, trace := obs ++ .received fd (s.peerAt fd) recvs :: s.trace }

/-- `mysql_delete_fd` deletes the rows of `fd`, unless its query fails. -/
def Deleted (ans : Answers) (fd : Int) (t t' : Table) : Prop :=
  t' = if ans.delete = .failed then t else t.deleteWhere (·.fd = fd)

/-- The event makes the loop read from a peer. -/
structure Ready.Reads (P : Params) (e : Ready) : Prop where
  noError : e.events.epollerr = false
  peer : e.fd ≠ P.listener
  epollin : e.events.epollin = true

/-- The interest every peer is registered with. -/
def readable : Interest := ⟨true, false⟩

inductive Handles (P : Params) (ans : Answers) (e : Ready) (s : State) : Option Stop → State → Prop where
  | error (he : e.events.epollerr = true) :
    Handles P ans e s (some (.die "epoll_wait returned EPOLLERR")) s
  /-- An event that is neither for reading nor for writing, or a connection
  that is gone before it is accepted. -/
  | idle (he : e.events.epollerr = false) (h : e.fd = P.listener ∨ e.events.epollin = false) :
    Handles P ans e s none s
  | acceptFailed (he : e.events.epollerr = false) (hl : e.fd = P.listener) (ha : ans.accept = .failed) :
    Handles P ans e s (some (.die "accept")) s
  | accepted {f : Int} (he : e.events.epollerr = false) (hl : e.fd = P.listener)
    (ha : ans.accept = .accepted f) (hf : f < MAXFDS) :
    Handles P ans e s none
      { opened s f with
        slots := Function.update s.slots f (freshSlot (s.slots f))
        epoll := Function.update s.epoll f (some readable) }
  /-- The process ends with a new connection half set up. -/
  | acceptDied {f : Int} {msg : String} {slots : Int → PeerState} (he : e.events.epollerr = false)
    (hl : e.fd = P.listener) (ha : ans.accept = .accepted f) :
    Handles P ans e s (some (.die msg)) { opened s f with slots := slots }
  | readStopped {r : Stop} (he : e.Reads P)
    (hr : r = .die "recv" ∧ (readEnds [] ans.recvs).map Prod.fst = some .failed ∨
      r = .undefined "recv_len" ∧ (readEnds [] ans.recvs).map Prod.fst = some .overflow ∨
      r = .undefined "recv" ∧ readEnds [] ans.recvs = none) :
    Handles P ans e s (some r) (readOn s e.fd ans.recvs)
  | again (he : e.Reads P) (hr : (readEnds [] ans.recvs).map Prod.fst = some .again)
    (hc : ans.ctlFails = false) :
    Handles P ans e s none
      { readOn s e.fd ans.recvs with epoll := Function.update s.epoll e.fd (some readable) }
  | againDied (he : e.Reads P) (hr : (readEnds [] ans.recvs).map Prod.fst = some .again)
    (hc : ans.ctlFails = true) :
    Handles P ans e s (some (.die "epoll_ctl EPOLL_CTL_MOD")) (readOn s e.fd ans.recvs)
  | closed {t : Table} {obs : List Obs} (he : e.Reads P)
    (hr : (readEnds [] ans.recvs).map Prod.fst = some .eof) (hd : Deleted ans e.fd s.table t)
    (hobs : ∀ o ∈ obs, o.Quiet) (hc : ans.ctlFails = false) :
    Handles P ans e s none
      { deletedOn s e.fd ans.recvs t obs with
        epoll := Function.update s.epoll e.fd none
        fds := Function.update s.fds e.fd none
        trace := .closed e.fd (s.peerAt e.fd) :: (obs ++ .received e.fd (s.peerAt e.fd) ans.recvs :: s.trace) }
  | closeDied {t : Table} {obs : List Obs} (he : e.Reads P)
    (hr : (readEnds [] ans.recvs).map Prod.fst = some .eof) (hd : Deleted ans e.fd s.table t)
    (hobs : ∀ o ∈ obs, o.Quiet) (hc : ans.ctlFails = true) :
    Handles P ans e s (some (.die "epoll_ctl EPOLL_CTL_DEL")) (deletedOn s e.fd ans.recvs t obs)
  | served {data : Bytes} {s' : State} (he : e.Reads P)
    (hr : (readEnds [] ans.recvs).map Prod.fst = some (.frame data))
    (hs : Serves P ans e.fd (parseStringToJson P.json (cstr data))
      (handedOn s e.fd ans.recvs (cstr data)) none s')
    (hc : ans.ctlFails = false) :
    Handles P ans e s none { s' with epoll := Function.update s.epoll e.fd (some readable) }
  | serveDied {data : Bytes} {s' : State} (he : e.Reads P)
    (hr : (readEnds [] ans.recvs).map Prod.fst = some (.frame data))
    (hs : Serves P ans e.fd (parseStringToJson P.json (cstr data))
      (handedOn s e.fd ans.recvs (cstr data)) none s')
    (hc : ans.ctlFails = true) :
    Handles P ans e s (some (.die "epoll_ctl EPOLL_CTL_MOD")) s'
  | serveStopped {data : Bytes} {r : Stop} {s' : State} (he : e.Reads P)
    (hr : (readEnds [] ans.recvs).map Prod.fst = some (.frame data))
    (hs : Serves P ans e.fd (parseStringToJson P.json (cstr data))
      (handedOn s e.fd ans.recvs (cstr data)) (some r) s') :
    Handles P ans e s (some r) s'

/-! ## Serving a message leaves the bookkeeping alone -/

namespace Serves

variable {P : Params} {ans : Answers} {fd : Int} {msg : Json} {s s' : State} {o : Option Stop}

theorem epoll (h : Serves P ans fd msg s o s') : s'.epoll = s.epoll := by cases h <;> rfl

theorem batch (h : Serves P ans fd msg s o s') : s'.batch = s.batch := by cases h <;> rfl

theorem nextConn (h : Serves P ans fd msg s o s') : s'.nextConn = s.nextConn := by cases h <;> rfl

theorem stopped (h : Serves P ans fd msg s o s') : s'.stopped = s.stopped := by cases h <;> rfl

theorem fdsKept (h : Serves P ans fd msg s o s') : FdsKept ans s.fds s'.fds := by
  cases h with
  | uxFailed _ _ _ _ _ hfds => exact hfds
  | uxSent _ _ _ _ _ _ _ _ _ ha hb => exact FdsKept.afterStreams ha hb _
  | _ => exact FdsKept.refl _ _

end Serves

/-! ## The callbacks -/

theorem isInt32_of_lt_maxfds {fd : Int} (h : 0 ≤ fd ∧ fd < MAXFDS) : IsInt32 fd := by
  obtain ⟨h₁, h₂⟩ := h
  unfold MAXFDS at h₂
  exact ⟨by omega, by omega⟩

theorem mysqlDeleteFd_ends (db : Database) (ans : Answers) {fd : Int} (hf : IsInt32 fd) (s : State) :
    Ends (mysqlDeleteFd db ans fd) s
      (fun _ s' => ∃ t obs, Deleted ans fd s.table t ∧ (∀ o ∈ obs, o.Quiet) ∧
        s' = { s with table := t, trace := obs ++ s.trace })
      (fun _ _ => False) := by
  have hfit : (deleteFdText fd).length + 1 ≤ QUERY_LEN := by
    have := length_printD_le hf
    have h₁ : (ascii "delete from cmd_agent_session where fd='").length = 40 := rfl
    have h₂ : (ascii "'").length = 1 := rfl
    simp only [deleteFdText, List.length_append, h₁, h₂, QUERY_LEN]
    omega
  have hdel : Deleted ans fd s.table (db.query ans.delete (deleteFdText fd) s.table).2 := by
    unfold Deleted
    split
    · rename_i h; rw [h]; rfl
    · rename_i h; exact query_deleteFd db hf h _
  unfold mysqlDeleteFd mysqlDelete
  refine .bind ((sprintf_ends _ s).mono ?_ fun _ _ h => absurd h.2.1 (by omega))
  rintro _ s ⟨rfl, -, rfl⟩
  refine .bind ?_
  rw [Ends, mysqlQuery_run]
  revert hdel
  rcases db.query ans.delete (deleteFdText fd) s.table with ⟨_ | r, t⟩ <;> intro hdel
  · exact ⟨t, [.debug _, .query _], hdel, by simp [Obs.Quiet], rfl⟩
  · exact ⟨t, [.query _], hdel, by simp [Obs.Quiet], rfl⟩

section

variable (P : Params) (ans : Answers) (e : Ready)

theorem epollCtlMod_ends {s : State} (h : s.epoll e.fd ≠ none) :
    Ends (epollCtlMod ans e.fd readable) s
      (fun _ s' => ans.ctlFails = false ∧
        s' = { s with epoll := Function.update s.epoll e.fd (some readable) })
      (fun r s' => r = .die "epoll_ctl EPOLL_CTL_MOD" ∧ ans.ctlFails = true ∧ s' = s) := by
  unfold epollCtlMod
  refine .bind (.get ?_)
  split
  · rename_i hc
    exact ⟨rfl, hc.resolve_right h, rfl⟩
  · rename_i hc
    rw [not_or] at hc
    exact ⟨by simpa using hc.1, rfl⟩

theorem epollCtlDel_ends {s : State} (h : s.epoll e.fd ≠ none) :
    Ends (epollCtlDel ans e.fd) s
      (fun _ s' => ans.ctlFails = false ∧ s' = { s with epoll := Function.update s.epoll e.fd none })
      (fun r s' => r = .die "epoll_ctl EPOLL_CTL_DEL" ∧ ans.ctlFails = true ∧ s' = s) := by
  unfold epollCtlDel
  refine .bind (.get ?_)
  split
  · rename_i hc
    exact ⟨rfl, hc.resolve_right h, rfl⟩
  · rename_i hc
    rw [not_or] at hc
    exact ⟨by simpa using hc.1, rfl⟩

theorem acceptPeer_ends {s : State} (he : e.events.epollerr = false) (hl : e.fd = P.listener)
    (hf : ∀ f, ans.accept = .accepted f → 0 ≤ f ∧ s.epoll f = none) :
    Ends (acceptPeer ans) s (fun _ s' => Handles P ans e s none s')
      (fun r s' => Handles P ans e s (some r) s') := by
  unfold acceptPeer
  rcases ha : ans.accept with f | _ | _
  · obtain ⟨hf₀, hep⟩ := hf f ha
    have hdied : ∀ msg, Handles P ans e s (some (.die msg)) (opened s f) := fun msg => .acceptDied he hl ha
    refine .bind (.modify (.bind ?_))
    unfold makeSocketNonBlocking
    rcases ans.fcntl with _ | _ | _
    · refine .pure ?_
      split
      · exact .throw (hdied _)
      · rename_i hlt
        rw [not_le] at hlt
        refine .bind ?_
        unfold onPeerConnected assertLtMaxfds setSlot
        rw [if_pos hlt, if_pos ⟨hf₀, hlt⟩]
        refine .bind (.pure (.bind (.modify (.pure ?_))))
        unfold epollCtlAdd
        refine .bind (.get ?_)
        split
        · exact .throw (.acceptDied he hl ha)
        · exact .accepted he hl ha hlt
    · exact .throw (hdied _)
    · exact .throw (hdied _)
  · exact .idle he (.inl hl)
  · exact .acceptFailed he hl ha

theorem recvPeer_ends {s : State} (he : e.Reads P) (hf : 0 ≤ e.fd ∧ e.fd < MAXFDS) (hep : s.epoll e.fd ≠ none) :
    Ends (recvPeer P ans e.fd) s (fun _ s' => Handles P ans e s none s')
      (fun r s' => Handles P ans e s (some r) s') := by
  have hint := isInt32_of_lt_maxfds hf
  unfold recvPeer
  rw [onPeerReadyRecv_eq]
  refine .bind (.bind ?_)
  rw [assertLtMaxfds, if_pos hf.2]
  refine .pure (.bind ?_)
  rw [getSlot, if_pos hf]
  refine .bind (.get (.pure (.bind (.modify ?_))))
  rcases hr : readEnds [] ans.recvs with _ | ⟨r, rest⟩
  · exact .readStopped he (.inr (.inr ⟨rfl, hr⟩))
  have hr' : (readEnds [] ans.recvs).map Prod.fst = some r := by rw [hr]; rfl
  cases r with
  | failed => exact .throw (.readStopped he (.inl ⟨rfl, hr'⟩))
  | overflow => exact .throw (.readStopped he (.inr (.inl ⟨rfl, hr'⟩)))
  | eof =>
    refine .pure (.bind ((mysqlDeleteFd_ends P.db ans hint _).mono ?_ fun _ _ h => h.elim))
    rintro _ _ ⟨t, obs, hd, hobs, rfl⟩
    refine .bind (.mono (epollCtlDel_ends ans e hep) ?_ ?_)
    · rintro _ _ ⟨hc, rfl⟩
      exact .modify (.closed he hr' hd hobs hc)
    · rintro r _ ⟨rfl, hc, rfl⟩
      exact .closeDied he hr' hd hobs hc
  | again =>
    refine .pure (.mono (epollCtlMod_ends ans e hep) ?_ ?_)
    · rintro _ _ ⟨hc, rfl⟩
      exact .again he hr' hc
    · rintro r _ ⟨rfl, hc, rfl⟩
      exact .againDied he hr' hc
  | frame data =>
    refine .bind (.modify (.bind ((serve_ends P ans e.fd _ _).mono ?_ ?_)))
    · intro _ s' hs
      have hep' : s'.epoll e.fd ≠ none := by rw [hs.epoll]; exact hep
      refine .pure (.mono (epollCtlMod_ends ans e hep') ?_ ?_)
      · rintro _ _ ⟨hc, rfl⟩
        rw [hs.epoll]
        exact .served he hr' hs hc
      · rintro r _ ⟨rfl, hc, rfl⟩
        exact .serveDied he hr' hs hc
    · intro r s' hs
      exact .serveStopped he hr' hs

/-- Handling an event does one of the things `Handles` lists. -/
theorem handleEvent_ends {s : State} (h : EventOk P s ans e) :
    Ends (handleEvent P ans e) s (fun _ s' => Handles P ans e s none s')
      (fun r s' => Handles P ans e s (some r) s') := by
  unfold handleEvent
  split
  · rename_i he; exact .throw (.error he)
  rename_i he
  rw [Bool.not_eq_true] at he
  split
  · rename_i hl; exact acceptPeer_ends P ans e he hl h.accept
  rename_i hl
  split
  · rename_i hin
    obtain ⟨h₁, h₂, h₃⟩ := h.peer hl
    exact recvPeer_ends P ans e ⟨he, hl, hin⟩ ⟨h₁, h₂⟩ h₃
  rename_i hin
  rw [Bool.not_eq_true] at hin
  rw [if_neg (by simp [h.epollout])]
  exact .pure (.idle he (.inr hin))

end

end CmdAgent
