import CmdAgent.Proof.Delivery

/-!
# What a faulty peer can do to the others

An error event and a `recv` that fails end the process: the loop reports them
with `perror_die`. A `send` that fails with an error is only reported; the
step goes on as if the command had been sent, so no connection is closed, and
no row changes but the one the UX client has registered before
(`failure_isolation`).
-/

namespace CmdAgent

variable {P : Params} {s s' : State} {ans : Answers} {e : Ready}

/-- What the commands sent in a trace were answered, newest first. -/
def sendAnswers (tr : List Obs) : List SendAnswer :=
  tr.filterMap fun
    | .sent _ _ _ _ answer => some answer
    | _ => none

theorem sendAnswers_quiet {obs : List Obs} (h : ∀ o ∈ obs, o.Quiet) (tr : List Obs) :
    sendAnswers (obs ++ tr) = sendAnswers tr := by
  rw [sendAnswers, List.filterMap_append, List.filterMap_eq_nil_iff.mpr, List.nil_append]
  · rfl
  · intro o ho
    have hq := h o ho
    cases o <;> first | exact hq.elim | rfl

/-- Serving a message sends one command at most, and then it has registered
the UX client. -/
theorem serves_sendAnswers {fd : Int} {msg : Json} {o : Option Stop} (h : Serves P ans fd msg s o s') :
    sendAnswers s'.trace = sendAnswers s.trace ∨
      ∃ answer, sendAnswers s'.trace = answer :: sendAnswers s.trace ∧ (answer ≠ .sigpipe → o = none) ∧
        s'.table = insertTable P.db ans uxSession fd .reqUx s.table := by
  cases h with
  | malformed => exact .inl rfl
  | ignored => exact .inl rfl
  | agentStopped => exact .inl rfl
  | agent => exact .inl (sendAnswers_quiet (quiet_insertObs _ _ _ _ _ _) _)
  | uxStopped => exact .inl rfl
  | ux _ _ hobs => exact .inl (sendAnswers_quiet hobs _)
  | uxFailed _ _ hobs => exact .inl (sendAnswers_quiet hobs _)
  | @uxSent _ _ _ _ _ _ _ _ _ answer _ _ ho _ hobs hobs' =>
    refine .inr ⟨answer, ?_, fun hne => ?_, rfl⟩
    · rw [sendAnswers_quiet hobs']
      exact congrArg (answer :: ·) (sendAnswers_quiet hobs _)
    · exact ho.elim (·.1) fun h => absurd h.2 hne

theorem handles_sendAnswers {o : Option Stop} (h : Handles P ans e s o s') :
    sendAnswers s'.trace = sendAnswers s.trace ∨
      ∃ answer, e.Reads P ∧ sendAnswers s'.trace = answer :: sendAnswers s.trace ∧
        (answer ≠ .sigpipe → ans.ctlFails = false → o = none) ∧
        s'.table = insertTable P.db ans uxSession e.fd .reqUx s.table ∧ FdsKept ans s.fds s'.fds := by
  cases h with
  | closed _ _ _ hobs => exact .inl (sendAnswers_quiet hobs _)
  | closeDied _ _ _ hobs => exact .inl (sendAnswers_quiet hobs _)
  | served he _ hs =>
    rcases serves_sendAnswers hs with h | ⟨answer, h₁, h₂, h₃⟩
    · exact .inl h
    · exact .inr ⟨answer, he, h₁, fun _ _ => rfl, h₃, hs.fdsKept⟩
  | serveDied he _ hs hc =>
    rcases serves_sendAnswers hs with h | ⟨answer, h₁, h₂, h₃⟩
    · exact .inl h
    · exact .inr ⟨answer, he, h₁, fun _ hc' => absurd (hc.symm.trans hc') (by decide), h₃, hs.fdsKept⟩
  | serveStopped he _ hs =>
    rcases serves_sendAnswers hs with h | ⟨answer, h₁, h₂, h₃⟩
    · exact .inl h
    · exact .inr ⟨answer, he, h₁, fun hne _ => h₂ hne, h₃, hs.fdsKept⟩
  | _ => exact .inl rfl

/-- Registering the UX client changes no other row. -/
theorem rowsFor_insertTable_ux {f : Int} (hf : IsInt32 f) (t : Table) {k : Bytes} (hk : k ≠ uxSession) :
    (insertTable P.db ans uxSession f .reqUx t).rowsFor k = t.rowsFor k := by
  rw [KeyedTable.rowsFor_eq, KeyedTable.rowsFor_eq]
  rcases (stored_insertTable P.db ans uxSession hf .reqUx t).either plain_uxSession with h | h
  · rw [h k]
  · rw [h k, KeyedTable.lookup_put, if_neg (Ne.symm hk)]

/-- `EPOLLERR` ends the process, on whatever descriptor it is reported. -/
theorem Handles.of_epollerr {o : Option Stop} (h : Handles P ans e s o s') (herr : e.events.epollerr = true) :
    o = some (.die "epoll_wait returned EPOLLERR") := by
  cases h with
  | error => rfl
  | idle h | acceptFailed h | accepted h | acceptDied h => rw [herr] at h; cases h
  | _ he => rw [he.noError] at herr; cases herr

/-- So does a `recv` that fails. -/
theorem Handles.of_recvFailed {o : Option Stop} (h : Handles P ans e s o s') (he : e.Reads P)
    (hfailed : (readEnds [] ans.recvs).map Prod.fst = some .failed) : o = some (.die "recv") := by
  cases h with
  | error h => rw [he.noError] at h; cases h
  | idle _ h =>
    rcases h with h | h
    · exact absurd h he.peer
    · rw [he.epollin] at h; cases h
  | acceptFailed _ hl | accepted _ hl | acceptDied _ hl => exact absurd hl he.peer
  | readStopped _ hr =>
    rcases hr with ⟨rfl, -⟩ | ⟨-, hr⟩ | ⟨-, hr⟩
    · rfl
    · rw [hfailed] at hr; cases hr
    · rw [hr] at hfailed; cases hfailed
  | _ _ hr => rw [hfailed] at hr; cases hr

/-- An error event and a failed `recv` end the process. A `send` that fails
with an error leaves it running, every connection open and registered, and
every row but `UX_SESSION` as it was. -/
theorem failure_isolation (h : (server P).Reach s) {rest : List Ready} (hbatch : s.batch = e :: rest)
    (ha : admits s (.event ans)) :
    let s' := next P s (.event ans)
    (e.events.epollerr = true → s'.stopped = some (.die "epoll_wait returned EPOLLERR")) ∧
    (e.Reads P → (∃ data left, socketRead ans.recvs = some (.ok (some data, -3), left)) →
      s'.stopped = some (.die "recv")) ∧
    ∀ answer, sendAnswers s'.trace = answer :: sendAnswers s.trace → answer = .failed ∨ answer = .wouldBlock →
      ans.ctlFails = false →
      s'.stopped = none ∧
      (∀ f c, s.fds f = some (.peer c) → s'.fds f = some (.peer c) ∧ s'.epoll f = some ⟨true, false⟩) ∧
      ∀ k, k ≠ uxSession → s'.table.rowsFor k = s.table.rowsFor k := by
  obtain ⟨hrun, -, hv⟩ := ha
  have hb := reach_book h hrun
  obtain ⟨o, s₁, hh, heq⟩ := next_event hb hrun hv hbatch
  simp only [heq]
  refine ⟨fun herr => ?_, fun he hrecv => ?_, fun answer hsent hfail hctl => ?_⟩
  · exact hh.of_epollerr herr
  · obtain ⟨data, left, hr⟩ := hrecv
    exact hh.of_recvFailed he (by rw [← socketRead_eq, hr]; rfl)
  · obtain ⟨answer', he, h₁, h₂, h₃, h₄⟩ := (handles_sendAnswers hh).resolve_left fun h => by
      rw [h] at hsent
      exact absurd (congrArg List.length hsent) (by simp)
    obtain rfl : answer = answer' := (List.cons.inj (hsent.symm.trans h₁)).1
    obtain rfl := h₂ (by rcases hfail with rfl | rfl <;> decide) hctl
    obtain ⟨c₀, hc₀⟩ := hb.sender he hbatch
    have hb' := book_handles hb hv hbatch hh
    refine ⟨rfl, fun f c hf => ?_, fun k hk => ?_⟩
    · have hf' : s₁.fds f = some (.peer c) := (h₄.fds_iff hv.streamsFresh (by simp)).mpr hf
      exact ⟨hf', hb'.epoll_of_peer hf'⟩
    · show s₁.table.rowsFor k = s.table.rowsFor k
      rw [h₃]
      exact rowsFor_insertTable_ux (isInt32_of_lt_maxfds (hb.range _ _ hc₀)) _ hk

/-- A UX client has sent a command for an agent, which is yet to be read. -/
def commanding : State :=
  (server Flat.params).exec (Flat.start .empty)
    (Flat.connect 6 ++ Flat.speaks 6 0 (Flat.hello "m") ++ Flat.connect 7 ++
      [.wait Flat.garbage [⟨7, { epollin := true }, some 1⟩]])

/-- The command could not be sent to the agent. -/
def refused : State := next Flat.params commanding (.event (Flat.answers (Flat.download "m") 8 9 .failed))

theorem failure_isolation_refused :
    refused.stopped = none ∧ refused.fds 6 = some (.peer 0) ∧
      ∀ k, k ≠ uxSession → refused.table.rowsFor k = commanding.table.rowsFor k := by
  have hs : commanding.batch = [⟨7, { epollin := true }, some 1⟩] ∧ commanding.fds 6 = some (.peer 0) ∧
      admits commanding (.event (Flat.answers (Flat.download "m") 8 9 .failed)) ∧
      sendAnswers refused.trace = .failed :: sendAnswers commanding.trace := by decide +kernel
  have hreach : (server Flat.params).Reach commanding :=
    .exec (.init (Flat.initial_start .empty)) (by decide +kernel)
  unfold refused at hs ⊢
  obtain ⟨-, -, hiso⟩ := failure_isolation hreach hs.1 hs.2.2.1
  obtain ⟨h₁, h₂, h₃⟩ := hiso .failed hs.2.2.2 (.inl rfl) rfl
  exact ⟨h₁, (h₂ 6 0 hs.2.1).1, h₃⟩

/-- Two clients are connected, and an error is reported for the first. -/
def erring : State :=
  (server Flat.params).exec (Flat.start .empty)
    (Flat.connect 6 ++ Flat.connect 7 ++ [.wait Flat.garbage [⟨6, { epollerr := true }, some 0⟩]])

theorem failure_isolation_erring :
    ¬ ∀ (P : Params) (s : State) (ans : Answers) (e : Ready) (rest : List Ready), (server P).Reach s →
      s.batch = e :: rest → admits s (.event ans) → e.fd ≠ P.listener → e.events.epollerr = true →
      (next P s (.event ans)).stopped = none := by
  intro h
  have hs : erring.batch = [⟨6, { epollerr := true }, some 0⟩] ∧ admits erring (.event {}) ∧
      (next Flat.params erring (.event {})).stopped = some (.die "epoll_wait returned EPOLLERR") := by
    decide +kernel
  have hreach : (server Flat.params).Reach erring := .exec (.init (Flat.initial_start .empty)) (by decide +kernel)
  have hrun := h Flat.params erring {} _ _ hreach hs.1 hs.2.1 (by decide) rfl
  rw [hs.2.2] at hrun
  cases hrun

end CmdAgent
