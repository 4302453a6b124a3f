import CmdAgent.Proof.Delivery
import CmdAgent.Framework.History

/-!
# What a run records

`Emits` lists the places where handling an event records something, each with
the trace at that point: what was read, what was handed to the parser, each
registration with its queries, the lookup and the command of a UX message, and
the deletion before a close. `handleEvent_grown` says that these are all; so a
property of everything a run ever records is proved by going through the
places once (`reach_each`).
-/

namespace CmdAgent

/-- The event delivers the text `text` of an object with the members `ms`,
which registers the key `k` with the type `t`. -/
structure Registering (P : Params) (s : State) (ans : Answers) (e : Ready) (text : Bytes) (ms : List Member)
    (k : Bytes) (t : AgentType) : Prop where
  reads : e.Reads P
  frame : ∃ data, (readEnds [] ans.recvs).map Prod.fst = some (.frame data) ∧ text = cstr data
  parses : parseStringToJson P.json text = .object ms
  type : agentTypeOf ms = t
  key : k = uxSession ∧ t = .reqUx ∨
    (agentSessionOf s.session e.fd ms).minerMac = .str k ∧ t = .reqLinuxClaymore
  fits : Fits k e.fd t

/-- The trace once a key has been registered. -/
def registeredOn (s : State) (ans : Answers) (e : Ready) (text k : Bytes) (t : AgentType) : List Obs :=
  .registered k e.fd (s.peerAt e.fd) t :: (handedOn s e.fd ans.recvs text).trace

/-- The table and the trace when a UX message looks its mac up. -/
def lookupTable (P : Params) (s : State) (ans : Answers) (e : Ready) : Table :=
  insertTable P.db ans uxSession e.fd .reqUx s.table

def lookupTrace (P : Params) (s : State) (ans : Answers) (e : Ready) (text : Bytes) : List Obs :=
  insertObs P.db ans uxSession e.fd .reqUx s.table ++ registeredOn s ans e text uxSession .reqUx

/-- The event delivers a UX message that looks `m` up. -/
structure LooksUp (P : Params) (s : State) (ans : Answers) (e : Ready) (text : Bytes) (ms : List Member)
    (m : Bytes) : Prop where
  registering : Registering P s ans e text ms uxSession .reqUx
  mac : (uxSessionOf s.session e.fd ms).minerMac = .str m
  fits : (selectFdText m).length + 1 ≤ QUERY_LEN

/-- The UX message finds `m` on `f`, and the command for it is `data`. -/
structure Commands (P : Params) (s : State) (ans : Answers) (e : Ready) (text : Bytes) (ms : List Member)
    (m : Bytes) (f : Int) (data : Bytes) : Prop where
  looksUp : LooksUp P s ans e text ms m
  found : f = found P.db ans m (lookupTable P s ans e)
  nonneg : 0 ≤ f
  forwardable : Forwardable ans (uxSessionOf s.session e.fd ms)
  command : ∃ p file pi, (uxSessionOf s.session e.fd ms).path = .str p ∧ ans.files p = some file ∧
    (uxSessionOf s.session e.fd ms).pathInstall = .str pi ∧
    data = command P.json (uxSessionOf s.session e.fd ms) p pi file

/-- Handling `e` from the state `s` records an observation when the trace is
the given one. -/
inductive Emits (P : Params) (s : State) (ans : Answers) (e : Ready) : List Obs → Obs → Prop where
  | accepted {f : Int} (he : e.events.epollerr = false) (hl : e.fd = P.listener) (ha : ans.accept = .accepted f) :
    Emits P s ans e s.trace (.accepted f s.nextConn)
  | received (he : e.Reads P) : Emits P s ans e s.trace (.received e.fd (s.peerAt e.fd) ans.recvs)
  | deleteFd (he : e.Reads P) (hr : (readEnds [] ans.recvs).map Prod.fst = some .eof) :
    Emits P s ans e (readOn s e.fd ans.recvs).trace (.query (deleteFdText e.fd))
  | deleteFailed (he : e.Reads P) :
    Emits P s ans e (.query (deleteFdText e.fd) :: (readOn s e.fd ans.recvs).trace) (.debug "[Fail] mysql_query")
  | closed {obs : List Obs} (he : e.Reads P) (hr : (readEnds [] ans.recvs).map Prod.fst = some .eof)
    (hobs : ∀ o ∈ obs, o.Quiet) :
    Emits P s ans e (obs ++ .query (deleteFdText e.fd) :: (readOn s e.fd ans.recvs).trace)
      (.closed e.fd (s.peerAt e.fd))
  | handed {data : Bytes} (he : e.Reads P) (hr : (readEnds [] ans.recvs).map Prod.fst = some (.frame data)) :
    Emits P s ans e (readOn s e.fd ans.recvs).trace (.handed e.fd (s.peerAt e.fd) (cstr data))
  | registered {text : Bytes} {ms : List Member} {k : Bytes} {t : AgentType}
    (h : Registering P s ans e text ms k t) :
    Emits P s ans e (handedOn s e.fd ans.recvs text).trace (.registered k e.fd (s.peerAt e.fd) t)
  | insert {text : Bytes} {ms : List Member} {k : Bytes} {t : AgentType} (h : Registering P s ans e text ms k t) :
    Emits P s ans e (registeredOn s ans e text k t) (.query (insertText k e.fd t))
  /-- The insertion has failed. -/
  | update {text : Bytes} {ms : List Member} {k : Bytes} {t : AgentType} (h : Registering P s ans e text ms k t)
    (hq : (P.db.query ans.insert (insertText k e.fd t) s.table).1 = .failed) :
    Emits P s ans e (.query (insertText k e.fd t) :: registeredOn s ans e text k t)
      (.query (updateText k e.fd t))
  | insertFailed {text : Bytes} {ms : List Member} {k : Bytes} {t : AgentType}
    (h : Registering P s ans e text ms k t) :
    Emits P s ans e
      (.query (updateText k e.fd t) :: .query (insertText k e.fd t) :: registeredOn s ans e text k t)
      (.debug "[Fail] mysql_query")
  | select {text : Bytes} {ms : List Member} {m : Bytes} (h : LooksUp P s ans e text ms m) :
    Emits P s ans e (lookupTrace P s ans e text) (.query (selectFdText m))
  | notFound {text : Bytes} {ms : List Member} {m : Bytes} (h : LooksUp P s ans e text ms m)
    (hneg : found P.db ans m (lookupTable P s ans e) < 0) :
    Emits P s ans e (.query (selectFdText m) :: lookupTrace P s ans e text) (.debug "Fail : not found session")
  | sent {text : Bytes} {ms : List Member} {m : Bytes} {f : Int} {data : Bytes}
    (h : Commands P s ans e text ms m f data) :
    Emits P s ans e (.query (selectFdText m) :: lookupTrace P s ans e text)
      (.sent m f (s.peerAt f) data (if s.isSocket f then ans.send else .failed))
  /-- `send` has taken no byte of the command. -/
  | notSent {text : Bytes} {ms : List Member} {m : Bytes} {f : Int} {data : Bytes}
    (h : Commands P s ans e text ms m f data) (hz : (if s.isSocket f then ans.send else .failed) = .sent 0) :
    Emits P s ans e
      (.sent m f (s.peerAt f) data (if s.isSocket f then ans.send else .failed) ::
        .query (selectFdText m) :: lookupTrace P s ans e text)
      (.debug "fail : session_table_match_non_client")

section

variable {P : Params} {s s' : State} {ans : Answers} {e : Ready}

/-! ## The callbacks -/

/-- A registration records itself and its queries. -/
theorem Registering.grown {text : Bytes} {ms : List Member} {k : Bytes} {t : AgentType}
    (h : Registering P s ans e text ms k t) :
    Grown (Emits P s ans e) (handedOn s e.fd ans.recvs text).trace
      (insertObs P.db ans k e.fd t s.table ++ registeredOn s ans e text k t) := by
  have hreg : Grown (Emits P s ans e) (handedOn s e.fd ans.recvs text).trace
      (.query (insertText k e.fd t) :: registeredOn s ans e text k t) :=
    (Grown.refl.cons (.registered h)).cons (.insert h)
  unfold insertObs insertQueries
  rcases hq : P.db.query ans.insert (insertText k e.fd t) s.table with ⟨_ | r, tbl⟩
  · have hq' : (P.db.query ans.insert (insertText k e.fd t) s.table).1 = .failed := by rw [hq]
    dsimp only
    rcases P.db.query ans.update (updateText k e.fd t) tbl with ⟨_ | r, tbl'⟩
    · exact (hreg.cons (.update h hq')).cons (.insertFailed h)
    · exact hreg.cons (.update h hq')
  · exact hreg

/-- How `mysql_insert_fd` ends depends on whether the mac can be read and its
texts fit their buffers. -/
theorem mysqlInsertFd_exact (db : Database) (ans : Answers) (p : CharPtr) (fd : Int) (t : AgentType) (s : State) :
    Ends (mysqlInsertFd db ans p fd t) s
      (fun _ s' => ∃ mac, p = .str mac ∧ Fits mac fd t ∧ s' = { s with
        table := insertTable db ans mac fd t s.table
        trace := insertObs db ans mac fd t s.table ++ .registered mac fd (s.peerAt fd) t :: s.trace })
      (fun _ s' => (∀ mac, p = .str mac → ¬ Fits mac fd t) ∧ s' = s) := by
  by_cases h : ∃ mac, p = .str mac ∧ Fits mac fd t
  · obtain ⟨mac, rfl, hfit⟩ := h
    rw [Ends, mysqlInsertFd_run db ans hfit s]
    exact ⟨mac, rfl, hfit, rfl⟩
  · have hno : ∀ mac, p = .str mac → ¬ Fits mac fd t := fun mac hp hfit => h ⟨mac, hp, hfit⟩
    rw [Ends, mysqlInsertFd_stop db ans hno s]
    exact ⟨hno, rfl⟩

theorem mysqlSelectFd_exact (db : Database) (ans : Answers) (p : CharPtr) (s : State) :
    Ends (mysqlSelectFd db ans p) s
      (fun ret s' => ∃ mac, p = .str mac ∧ (selectFdText mac).length + 1 ≤ QUERY_LEN ∧
        ret = found db ans mac s.table ∧ s' = { s with trace := .query (selectFdText mac) :: s.trace })
      (fun _ s' => (∀ mac, p = .str mac → ¬ (selectFdText mac).length + 1 ≤ QUERY_LEN) ∧ s' = s) := by
  by_cases h : ∃ mac, p = .str mac ∧ (selectFdText mac).length + 1 ≤ QUERY_LEN
  · obtain ⟨mac, rfl, hfit⟩ := h
    rw [Ends, mysqlSelectFd_run db ans s hfit]
    exact ⟨mac, rfl, hfit, rfl, rfl⟩
  · have hno : ∀ mac, p = .str mac → ¬ (selectFdText mac).length + 1 ≤ QUERY_LEN :=
      fun mac hp hfit => h ⟨mac, hp, hfit⟩
    rw [Ends, mysqlSelectFd_stop db ans hno s]
    exact ⟨hno, rfl⟩

/-- The members of the object that the event delivers, and its text. -/
structure Delivers (P : Params) (ans : Answers) (e : Ready) (text : Bytes) (ms : List Member) : Prop where
  reads : e.Reads P
  frame : ∃ data, (readEnds [] ans.recvs).map Prod.fst = some (.frame data) ∧ text = cstr data
  parses : parseStringToJson P.json text = .object ms

theorem serveAgent_grown {text : Bytes} {ms : List Member} (hd : Delivers P ans e text ms)
    (ht : agentTypeOf ms = .reqLinuxClaymore) :
    Ends (serveAgent P ans) { handedOn s e.fd ans.recvs text with session := agentSessionOf s.session e.fd ms }
      (fun _ s' => Grown (Emits P s ans e) (handedOn s e.fd ans.recvs text).trace s'.trace)
      (fun _ s' => Grown (Emits P s ans e) (handedOn s e.fd ans.recvs text).trace s'.trace) := by
  unfold serveAgent
  refine .bind (.get (.bind ((mysqlInsertFd_exact P.db ans _ _ .reqLinuxClaymore _).mono ?_ ?_)))
  · rintro _ _ ⟨k, hk, hfit, rfl⟩
    exact .pure (Registering.grown ⟨hd.reads, hd.frame, hd.parses, ht, .inr ⟨hk, rfl⟩, hfit⟩)
  · rintro _ _ ⟨-, rfl⟩
    exact .refl

/-- `send` is given 0 as the result only if it took no byte. -/
theorem sendTo_exact (mac : Bytes) (f : Int) (data : Bytes) (s : State) :
    Ends (sendTo ans mac f data) s
      (fun n s' => ((if s.isSocket f then ans.send else .failed) = .sent 0 ∨ 0 < n) ∧
        s' = { s with trace := .sent mac f (s.peerAt f) data (if s.isSocket f then ans.send else .failed) :: s.trace })
      (fun _ s' => (if s.isSocket f then ans.send else .failed) = .sigpipe ∧
        s' = { s with trace := .sent mac f (s.peerAt f) data (if s.isSocket f then ans.send else .failed) :: s.trace }) := by
  unfold sendTo
  refine .bind (.get (.bind (.modify ?_)))
  rcases (if s.isSocket f then ans.send else .failed) with n | _ | _ | _
  · rcases Nat.eq_zero_or_pos n with rfl | hn
    · exact ⟨.inl rfl, rfl⟩
    · exact ⟨.inr hn, rfl⟩
  · exact ⟨.inr (by decide), rfl⟩
  · exact ⟨.inr (by decide), rfl⟩
  · exact ⟨rfl, rfl⟩

theorem serveUx_grown {text : Bytes} {ms : List Member} (hf : StreamsFresh ans s) (hd : Delivers P ans e text ms)
    (ht : agentTypeOf ms = .reqUx) :
    Ends (serveUx P ans) { handedOn s e.fd ans.recvs text with session := uxSessionOf s.session e.fd ms }
      (fun _ s' => Grown (Emits P s ans e) (handedOn s e.fd ans.recvs text).trace s'.trace)
      (fun _ s' => Grown (Emits P s ans e) (handedOn s e.fd ans.recvs text).trace s'.trace) := by
  unfold serveUx
  refine .bind (.get (.bind ((mysqlInsertFd_exact P.db ans _ _ .reqUx _).mono ?_ ?_)))
  swap
  · rintro _ _ ⟨-, rfl⟩
    exact .refl
  rintro _ _ ⟨k, hk, hfit, rfl⟩
  obtain rfl := CharPtr.str.inj hk
  have hreg : Registering P s ans e text ms uxSession .reqUx :=
    ⟨hd.reads, hd.frame, hd.parses, ht, .inl ⟨rfl, rfl⟩, hfit⟩
  refine .bind ((mysqlSelectFd_exact P.db ans _ _).mono ?_ ?_)
  swap
  · rintro _ _ ⟨-, rfl⟩
    exact hreg.grown
  rintro f _ ⟨m, hm, hfit', hfound, rfl⟩
  have hlook : LooksUp P s ans e text ms m := ⟨hreg, hm, hfit'⟩
  have hsel : Grown (Emits P s ans e) (handedOn s e.fd ans.recvs text).trace
      (.query (selectFdText m) :: lookupTrace P s ans e text) := hreg.grown.cons (.select hlook)
  split
  · rename_i hneg
    exact .modify (hsel.cons (.notFound hlook (hfound ▸ hneg)))
  rename_i hpos
  rw [not_lt] at hpos
  refine .bind ((msgClientInfo_ends P.json ans _).mono ?_ ?_)
  swap
  · rintro _ _ ⟨-, -, fds', -, rfl⟩
    exact hsel
  rintro data _ ⟨hfw, ⟨a, b, ha, hb, rfl⟩, p, file, pi, hp, hfile, hpi, rfl⟩
  have hcmd : Commands P s ans e text ms m f (command P.json (uxSessionOf s.session e.fd ms) p pi file) :=
    ⟨hlook, hfound, hpos, hfw, p, file, pi, hp, hfile, hpi, rfl⟩
  have hk := FdsKept.afterStreams ha hb s.fds
  have hpeer : ({ s with fds := afterStreams s.fds a b } : State).peerAt f = s.peerAt f :=
    congrFun (peerAt_of_fdsKept (s := s) hk hf) f
  have hsock : ({ s with fds := afterStreams s.fds a b } : State).isSocket f = s.isSocket f :=
    isSocket_of_fdsKept (s := s) hk hf f
  have hsent := hsel.cons (.sent hcmd)
  rw [← hpeer, ← hsock] at hsent
  rw [hm]
  refine .bind (.pure (.bind ((sendTo_exact m f _ _).mono ?_ ?_)))
  · rintro n _ ⟨hn, rfl⟩
    dsimp only
    rw [List.take_length]
    split
    · exact .pure hsent
    · rename_i hz
      have hnone : (if s.isSocket f then ans.send else .failed) = .sent 0 :=
        hsock ▸ hn.resolve_right hz
      have hdebug := Emits.notSent hcmd hnone
      rw [← hpeer, ← hsock] at hdebug
      exact .modify (hsent.cons hdebug)
  · rintro _ _ ⟨-, rfl⟩
    dsimp only
    rw [List.take_length]
    exact hsent

/-- Serving a message records what `Emits` lists. -/
theorem serve_grown {text : Bytes} (hf : StreamsFresh ans s) (he : e.Reads P)
    (hr : ∃ data, (readEnds [] ans.recvs).map Prod.fst = some (.frame data) ∧ text = cstr data) :
    Ends (serve P ans e.fd (parseStringToJson P.json text)) (handedOn s e.fd ans.recvs text)
      (fun _ s' => Grown (Emits P s ans e) (handedOn s e.fd ans.recvs text).trace s'.trace)
      (fun _ s' => Grown (Emits P s ans e) (handedOn s e.fd ans.recvs text).trace s'.trace) := by
  unfold serve
  by_cases hobj : (parseStringToJson P.json text).IsObject
  · obtain ⟨ms, hj⟩ := hobj
    have hd : Delivers P ans e text ms := ⟨he, hr, hj⟩
    rw [hj, getAgentType_object]
    refine .bind (.pure ?_)
    cases ht : agentTypeOf ms with
    | reqInvalid => exact .pure .refl
    | reqUx =>
      refine .bind (.get ?_)
      rw [parseJsonCmd_object]
      exact .bind (.pure (.bind (.modify (serveUx_grown hf hd ht))))
    | reqLinuxClaymore =>
      refine .bind (.get ?_)
      rw [parseJsonAgent_object]
      exact .bind (.pure (.bind (.modify (serveAgent_grown hd ht))))
    | reqWindowClaymore => exact absurd ht (agentTypeOf_ne_window ms)
  · rw [getAgentType_of_not_object hobj]
    exact .bind (.throw .refl)

/-! ## An event -/

theorem mysqlDeleteFd_grown (he : e.Reads P) (hf : IsInt32 e.fd)
    (hr : (readEnds [] ans.recvs).map Prod.fst = some .eof) :
    Ends (mysqlDeleteFd P.db ans e.fd) (readOn s e.fd ans.recvs)
      (fun _ s' => s'.epoll = s.epoll ∧ s'.fds = s.fds ∧ ∃ obs, (∀ o ∈ obs, o.Quiet) ∧
        s'.trace = obs ++ .query (deleteFdText e.fd) :: (readOn s e.fd ans.recvs).trace ∧
        Grown (Emits P s ans e) s.trace s'.trace)
      (fun _ _ => False) := by
  have hfit : (deleteFdText e.fd).length + 1 ≤ QUERY_LEN := by
    by_contra h
    exact (mysqlDeleteFd_ends P.db ans hf s).error (bind_stop (sprintf_stop h s))
  have hgrown : Grown (Emits P s ans e) s.trace
      (.query (deleteFdText e.fd) :: (readOn s e.fd ans.recvs).trace) :=
    (Grown.refl.cons (.received he)).cons (.deleteFd he hr)
  unfold mysqlDeleteFd mysqlDelete
  rw [Ends, bind_run (sprintf_run hfit _), bind_run (mysqlQuery_run ..)]
  rcases P.db.query ans.delete (deleteFdText e.fd) (readOn s e.fd ans.recvs).table with ⟨_ | r, t⟩
  · exact ⟨rfl, rfl, [.debug _], by simp [Obs.Quiet], rfl, hgrown.cons (.deleteFailed he)⟩
  · exact ⟨rfl, rfl, [], by simp, rfl, hgrown⟩

theorem recvPeer_grown (hs : StreamsFresh ans s) (he : e.Reads P) (hf : 0 ≤ e.fd ∧ e.fd < MAXFDS) :
    Ends (recvPeer P ans e.fd) s (fun _ s' => Grown (Emits P s ans e) s.trace s'.trace)
      (fun _ s' => Grown (Emits P s ans e) s.trace s'.trace) := by
  have hread : Grown (Emits P s ans e) s.trace (readOn s e.fd ans.recvs).trace := Grown.refl.cons (.received he)
  -- `epoll_ctl` records nothing
  have hmod : ∀ {s' : State} {i : Interest}, Grown (Emits P s ans e) s.trace s'.trace →
      Ends (epollCtlMod ans e.fd i) s' (fun _ s' => Grown (Emits P s ans e) s.trace s'.trace)
        (fun _ s' => Grown (Emits P s ans e) s.trace s'.trace) := fun {s'} {i} h => by
    unfold epollCtlMod
    refine .bind (.get ?_)
    split
    · exact .throw h
    · exact .modify h
  unfold recvPeer
  rw [onPeerReadyRecv_eq]
  refine .bind (.bind ?_)
  rw [assertLtMaxfds, if_pos hf.2]
  refine .pure (.bind ?_)
  rw [getSlot, if_pos hf]
  refine .bind (.get (.pure (.bind (.modify ?_))))
  rcases hr : (readEnds [] ans.recvs).map Prod.fst with _ | r
  · exact .throw hread
  cases r with
  | failed => exact .throw hread
  | overflow => exact .throw hread
  | again => exact .pure (hmod hread)
  | eof =>
    refine .pure (.bind ((mysqlDeleteFd_grown he (isInt32_of_lt_maxfds hf) hr).mono ?_ fun _ _ h => h.elim))
    rintro _ s' ⟨-, hfds, obs, hobs, htr, hg⟩
    refine .bind ?_
    unfold epollCtlDel
    refine .bind (.get ?_)
    split
    · exact .throw hg
    · refine .modify (.modify (hg.cons ?_))
      have hpeer : s'.peerAt e.fd = s.peerAt e.fd := by rw [State.peerAt, State.peerAt, hfds]
      show Emits P s ans e s'.trace (.closed e.fd (s'.peerAt e.fd))
      rw [hpeer, htr]
      exact .closed he hr hobs
  | frame data =>
    have hhanded : Grown (Emits P s ans e) s.trace (handedOn s e.fd ans.recvs (cstr data)).trace :=
      hread.cons (.handed he hr)
    refine .bind (.modify (.bind ((serve_grown hs he ⟨data, hr, rfl⟩).mono ?_ ?_)))
    · intro _ s' hg
      exact .pure (hmod (hhanded.trans hg))
    · intro _ s' hg
      exact hhanded.trans hg

theorem acceptPeer_grown (he : e.events.epollerr = false) (hl : e.fd = P.listener) :
    Ends (acceptPeer ans) s (fun _ s' => Grown (Emits P s ans e) s.trace s'.trace)
      (fun _ s' => Grown (Emits P s ans e) s.trace s'.trace) := by
  unfold acceptPeer
  rcases ha : ans.accept with f | _ | _
  · have hg : Grown (Emits P s ans e) s.trace (opened s f).trace := Grown.refl.cons (.accepted he hl ha)
    refine .bind (.modify (.bind ?_))
    unfold makeSocketNonBlocking
    rcases ans.fcntl with _ | _ | _
    · refine .pure ?_
      split
      · exact .throw hg
      · refine .bind ?_
        unfold onPeerConnected assertLtMaxfds
        split
        · refine .bind (.pure (.bind ?_))
          unfold setSlot
          split
          · refine .modify (.pure ?_)
            unfold epollCtlAdd
            refine .bind (.get ?_)
            split
            · exact .throw hg
            · exact .modify hg
          · exact .throw hg
        · exact .bind (.throw hg)
    · exact .throw hg
    · exact .throw hg
  · exact .pure .refl
  · exact .throw .refl

/-- Handling an event records what `Emits` lists. -/
theorem handleEvent_grown (hs : StreamsFresh ans s) (h : EventOk P s ans e) :
    Ends (handleEvent P ans e) s (fun _ s' => Grown (Emits P s ans e) s.trace s'.trace)
      (fun _ s' => Grown (Emits P s ans e) s.trace s'.trace) := by
  unfold handleEvent
  split
  · exact .throw .refl
  rename_i he
  rw [Bool.not_eq_true] at he
  split
  · rename_i hl; exact acceptPeer_grown he hl
  rename_i hl
  split
  · rename_i hin
    obtain ⟨h₁, h₂, -⟩ := h.peer hl
    exact recvPeer_grown hs ⟨he, hl, hin⟩ ⟨h₁, h₂⟩
  · rw [if_neg (by simp [h.epollout])]
    exact .pure .refl

/-! ## Runs -/

/-- What holds wherever a step records something holds of everything that a
run records. -/
theorem reach_each {P₀ : State → Prop} {C : State → Action → Prop} {Q : List Obs → Obs → Prop}
    (hq : ∀ s ans e rest past o, ((server P).restrict P₀ C).Reach s → s.stopped = none → Book P s → ans.Valid s →
      s.batch = e :: rest → C s (.event ans) → Emits P { s with batch := rest } ans e past o → Q past o)
    (h : ((server P).restrict P₀ C).Reach s) : Each Q s.trace := by
  refine h.inv_of (I := fun s => Each Q s.trace)
    (J := fun s => ((server P).restrict P₀ C).Reach s ∧ (s.stopped = none → Book P s))
    (fun s hs => ⟨hs, reach_book hs.of_restrict⟩) (fun s hi => ?_) ?_
  · rw [hi.1.trace]; trivial
  rintro s a ⟨hreach, hbook⟩ ih ⟨ha, hc⟩
  have hrun : s.stopped = none := admits_running ha
  cases a with
  | wait session batch => exact ih
  | event ans =>
    obtain ⟨-, hne, hv⟩ := ha
    obtain ⟨e, rest, hb⟩ := List.exists_cons_of_ne_nil hne
    have hend := handleEvent_grown (s := { s with batch := rest }) hv.streamsFresh ((hbook hrun).eventOk hv hb)
    have hstep : ∀ past o, Emits P { s with batch := rest } ans e past o → Q past o := fun past o =>
      hq s ans e rest past o hreach hrun (hbook hrun) hv hb hc
    show Each Q (next P s (.event ans)).trace
    simp only [next, hb, finish]
    cases hx : handleEvent P ans e { s with batch := rest } with
    | ok _ s' =>
      have hg := hend.ok hx
      exact Each.grown ih hg hstep
    | error r s' =>
      have hg := hend.error hx
      exact Each.grown ih hg hstep

end

end CmdAgent
