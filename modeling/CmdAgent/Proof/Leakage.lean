import CmdAgent.Proof.Dispatch

/-!
# The shared session

All messages of a batch are parsed into one session, which starts out
uninitialised. A field that a message does not bind to a string keeps what was
there before, so what a message makes the server do can depend on memory that
was never written and on the messages of other clients.

`Independent` is the two-run property: whatever the session holds, the same
queries are made and the same bytes sent. It holds exactly for the messages
that bring along every field their handling gets to read
(`independent_iff_selfContained`).
-/

namespace CmdAgent

variable {P : Params} {ans : Answers} {fd : Int} {ms : List Member} {s : State}

/-- The queries and commands in the trace that a program leaves. -/
def effects {α : Type} (x : Proc α) (s : State) : List Obs := (finish x s).trace.filter Obs.isEffect

/-- What `on_peer_ready_recv` queries and sends is the same for any two
contents of the session. -/
def Independent (P : Params) (ans : Answers) (fd : Int) (s : State) : Prop :=
  ∀ σ₁ σ₂ : Session, effects (onPeerReadyRecv P ans fd) { s with session := σ₁ } =
    effects (onPeerReadyRecv P ans fd) { s with session := σ₂ }

/-- The effects so far are `l`. -/
def Shows (l : List Obs) (s : State) : Prop := s.trace.filter Obs.isEffect = l

theorem effects_of_ends {α : Type} {x : Proc α} {l : List Obs}
    (h : Ends x s (fun _ => Shows l) (fun _ => Shows l)) : effects x s = l := by
  unfold Ends at h
  unfold effects finish
  split <;> rename_i hx <;> rw [hx] at h <;> exact h

/-! ## Messages that leave something open -/

/-- Some session completes the message to a command that can be built. -/
structure Buildable (ans : Answers) (ms : List Member) : Prop where
  cmdType : ∀ c ∈ lastString (ascii "commend_type") ms, cstr c = ascii "file-download"
  path : ∃ p file, (∀ b ∈ lastString (ascii "path") ms, cstr b = p) ∧ ans.files p = some file ∧
    file.Fits ans.spare
  pathInstall : lastString (ascii "path_install") ms ≠ some []
  stream₁ : ans.stream₁ ≠ none
  stream₂ : ans.stream₂ ≠ none

/-- The members a command is built from, besides the mac. -/
def commandKeys : List Bytes :=
  [ascii "commend_type", ascii "sequence", ascii "path", ascii "path_install"]

/-- The mac `m` can be looked up, and is found once the UX client on `fd` has
been stored. -/
def Located (P : Params) (ans : Answers) (fd : Int) (t : Table) (m : Bytes) : Prop :=
  (selectFdText m).length + 1 ≤ QUERY_LEN ∧ 0 ≤ found P.db ans m (insertTable P.db ans uxSession fd .reqUx t)

/-- The message binds its mac to a string, and if it comes to building a
command from it, all members of the command too. -/
structure SelfContained (P : Params) (ans : Answers) (fd : Int) (t : Table) (ms : List Member) : Prop where
  mac : macOf ms ≠ none
  command : agentTypeOf ms = .reqUx → ∀ m, macOf ms = some m → Located P ans fd t m → Buildable ans ms →
    ∀ key ∈ commandKeys, lastString key ms ≠ none

theorem uxSessionOf_minerMac {m : Bytes} (h : macOf ms = some m) (σ : Session) :
    (uxSessionOf σ fd ms).minerMac = .str m := by
  obtain ⟨b, hb, rfl⟩ := Option.map_eq_some_iff.mp h
  simp only [uxSessionOf, Session.cmdFields, hb]
  rfl

/-- A message that binds all five fields determines the session. -/
theorem uxSessionOf_eq (hm : macOf ms ≠ none) (hc : ∀ key ∈ commandKeys, lastString key ms ≠ none)
    (σ₁ σ₂ : Session) : uxSessionOf σ₁ fd ms = uxSessionOf σ₂ fd ms := by
  have h₁ := hc (ascii "commend_type") (by simp [commandKeys])
  have h₂ := hc (ascii "sequence") (by simp [commandKeys])
  have h₃ := hc (ascii "path") (by simp [commandKeys])
  have h₄ := hc (ascii "path_install") (by simp [commandKeys])
  have h₅ : lastString (ascii "miner_mac") ms ≠ none := fun h => hm (by rw [macOf, h]; rfl)
  obtain ⟨_, h₁⟩ := Option.ne_none_iff_exists'.mp h₁
  obtain ⟨_, h₂⟩ := Option.ne_none_iff_exists'.mp h₂
  obtain ⟨_, h₃⟩ := Option.ne_none_iff_exists'.mp h₃
  obtain ⟨_, h₄⟩ := Option.ne_none_iff_exists'.mp h₄
  obtain ⟨_, h₅⟩ := Option.ne_none_iff_exists'.mp h₅
  simp only [uxSessionOf, Session.cmdFields, h₁, h₂, h₃, h₄, h₅]
  rfl

/-- A command can be built for some session only if the message is buildable. -/
theorem Buildable.of_forwardable {σ : Session} (h : Forwardable ans (σ.cmdFields ms)) :
    Buildable ans ms := by
  obtain ⟨hcmd, ⟨p, file, hp, hfile, hsize⟩, ⟨pi, hpi⟩, h₁, h₂⟩ := h
  simp only [Session.cmdFields] at hcmd hp hpi
  refine ⟨fun c hc => ?_, ⟨p, file, fun b hb => ?_, hfile, hsize⟩, fun hnone => ?_, h₁, h₂⟩
  · rw [Option.mem_def.mp hc] at hcmd
    exact CharPtr.str.inj hcmd
  · rw [Option.mem_def.mp hb] at hp
    exact CharPtr.str.inj hp
  · rw [hnone] at hpi
    cases hpi

/-- A session that completes a message to the command to download `p`. -/
def completing (p : Bytes) (i : Int) : Session :=
  ⟨0, .reqInvalid, .str (ascii "file-download"), .null, .str p, .str [], i⟩

theorem Buildable.forwardable (h : Buildable ans ms) :
    ∃ p, ∀ i, Forwardable ans (uxSessionOf (completing p i) fd ms) := by
  obtain ⟨p, file, hp, hfile, hsize⟩ := h.path
  refine ⟨p, fun i => ⟨?_, ⟨p, file, ?_, hfile, hsize⟩, ?_, h.stream₁, h.stream₂⟩⟩
  · simp only [uxSessionOf, Session.cmdFields]
    cases hl : lastString (ascii "commend_type") ms with
    | none => rfl
    | some c => rw [Option.map_some, Option.getD_some, Function.comp_apply, h.cmdType c hl]
  · simp only [uxSessionOf, Session.cmdFields]
    cases hl : lastString (ascii "path") ms with
    | none => rfl
    | some b => rw [Option.map_some, Option.getD_some, Function.comp_apply, hp b hl]
  · simp only [uxSessionOf, Session.cmdFields]
    cases hl : lastString (ascii "path_install") ms with
    | none => exact ⟨[], rfl⟩
    | some b =>
      have hb : b.length ≠ 0 := fun hb => h.pathInstall (by rw [hl, List.length_eq_zero_iff.mp hb])
      exact ⟨cstr b, by rw [Option.map_some, Option.getD_some, pathInstallPtr, if_pos hb]⟩

/-- A session of zero bytes. -/
def blank : Session := ⟨0, .reqInvalid, .null, .null, .null, .null, 0⟩

/-- A message that leaves a field of the command open is not completed by a
blank session. -/
theorem not_forwardable_blank {key : Bytes} (hk : key ∈ commandKeys) (hs : key ≠ ascii "sequence")
    (h : lastString key ms = none) : ¬ Forwardable ans (uxSessionOf blank fd ms) := by
  rintro ⟨hcmd, ⟨p, -, hp, -⟩, ⟨pi, hpi⟩, -, -⟩
  simp only [uxSessionOf, Session.cmdFields] at hcmd hp hpi
  simp only [commandKeys, List.mem_cons, List.not_mem_nil, or_false] at hk
  rcases hk with rfl | rfl | rfl | rfl
  · rw [h] at hcmd; cases hcmd
  · exact hs rfl
  · rw [h] at hp; cases hp
  · rw [h] at hpi; cases hpi

/-! ## What a message does -/

/-- A short mac fits the buffers of `mysql_insert_fd`. -/
theorem fits_of_short {mac : Bytes} (hm : mac.length ≤ 100) (hf : IsInt32 fd) (t : AgentType) :
    Fits mac fd t := by
  have h := length_printD_le hf
  constructor
  · rw [length_insertText, QUERY_LEN]; omega
  · rw [length_updateText, QUERY_LEN]; omega

/-- The state once the UX client has been stored. -/
def uxStored (P : Params) (ans : Answers) (s : State) : State :=
  { s with
    table := insertTable P.db ans uxSession s.session.fd .reqUx s.table
    trace := insertObs P.db ans uxSession s.session.fd .reqUx s.table ++
      .registered uxSession s.session.fd (s.peerAt s.session.fd) .reqUx :: s.trace }

/-- The effects of storing the UX client, after those of the trace `tr`. -/
def uxEffects (P : Params) (ans : Answers) (fd : Int) (t : Table) (tr : List Obs) : List Obs :=
  (insertObs P.db ans uxSession fd .reqUx t ++ tr).filter Obs.isEffect

theorem shows_uxStored (P : Params) (ans : Answers) (s : State) :
    Shows (uxEffects P ans s.session.fd s.table s.trace) (uxStored P ans s) := by
  simp only [Shows, uxStored, uxEffects, List.filter_append, List.filter_cons, Obs.isEffect,
    Bool.false_eq_true, if_false]

theorem serveUx_stored (hf : IsInt32 s.session.fd) :
    serveUx P ans s = (do
      let ret ← mysqlSelectFd P.db ans s.session.minerMac
      if ret < 0 then debug "Fail : not found session"
      else
        let sendData ← msgClientInfo P.json ans
        let mac ← readStr "send" s.session.minerMac
        let result ← sendTo ans mac ret (sendData.1.take sendData.2)
        if 0 < result then pure ⟨⟩ else debug "fail : session_table_match_non_client" : Proc PUnit)
      (uxStored P ans s) := by
  have hfit : uxSession.length ≤ 100 := by decide
  have hget : (get : Proc State) s = .ok s s := rfl
  unfold serveUx
  exact (bind_run hget).trans (bind_run (mysqlInsertFd_run P.db ans (fits_of_short hfit hf .reqUx) s))

/-- A mac that cannot be read or looked up: nothing follows the registration. -/
theorem effects_ux_stopped (hf : IsInt32 s.session.fd)
    (hm : ∀ m, s.session.minerMac = .str m → ¬ (selectFdText m).length + 1 ≤ QUERY_LEN) :
    effects (serveUx P ans) s = uxEffects P ans s.session.fd s.table s.trace := by
  refine effects_of_ends ?_
  rw [Ends, serveUx_stored hf]
  rw [bind_stop (mysqlSelectFd_stop P.db ans hm _)]
  exact shows_uxStored P ans s

/-- The state once the mac `m` has been looked up. -/
def uxLooked (P : Params) (ans : Answers) (s : State) (m : Bytes) : State :=
  { uxStored P ans s with trace := .query (selectFdText m) :: (uxStored P ans s).trace }

theorem shows_uxLooked (P : Params) (ans : Answers) (s : State) (m : Bytes) :
    Shows (.query (selectFdText m) :: uxEffects P ans s.session.fd s.table s.trace) (uxLooked P ans s m) := by
  simp only [Shows, uxLooked, List.filter_cons, Obs.isEffect, if_true]
  rw [← shows_uxStored P ans s]

section

variable {m : Bytes} (hf : IsInt32 s.session.fd) (hm : s.session.minerMac = .str m)
  (hfit : (selectFdText m).length + 1 ≤ QUERY_LEN)

include hf hm hfit

/-- A mac that is not found, or a session from which no command can be built:
nothing is sent. -/
theorem effects_ux_unsent
    (h : ¬ (0 ≤ found P.db ans m (uxStored P ans s).table ∧ Forwardable ans s.session)) :
    effects (serveUx P ans) s = .query (selectFdText m) :: uxEffects P ans s.session.fd s.table s.trace := by
  have hshows := shows_uxLooked P ans s m
  refine effects_of_ends ?_
  rw [Ends, serveUx_stored hf, hm, bind_run (mysqlSelectFd_run P.db ans _ hfit)]
  by_cases h₀ : found P.db ans m (uxStored P ans s).table < 0
  · rw [if_pos h₀]
    exact hshows
  · rw [if_neg h₀]
    refine Ends.bind ((msgClientInfo_ends P.json ans _).mono ?_ ?_)
    · rintro data _ ⟨hfw, -⟩
      exact absurd ⟨not_lt.mp h₀, hfw⟩ h
    · rintro e _ ⟨-, -, fds', -, rfl⟩
      exact hshows

/-- A mac that is found, and a session from which a command can be built: the
command is sent. -/
theorem effects_ux_sent (h₀ : 0 ≤ found P.db ans m (uxStored P ans s).table)
    (h : Forwardable ans s.session) :
    ∃ p file pi conn answer, s.session.path = .str p ∧ ans.files p = some file ∧
      s.session.pathInstall = .str pi ∧
      effects (serveUx P ans) s =
        .sent m (found P.db ans m (uxStored P ans s).table) conn (command P.json s.session p pi file) answer ::
        .query (selectFdText m) :: uxEffects P ans s.session.fd s.table s.trace := by
  have hshows := shows_uxLooked P ans s m
  have hend := msgClientInfo_ends P.json ans (uxLooked P ans s m)
  cases hrun : msgClientInfo P.json ans (uxLooked P ans s m) with
  | error e s' => exact absurd h (hend.error hrun).1
  | ok data s' =>
    obtain ⟨-, ⟨a, b, -, -, rfl⟩, p, file, pi, hp, hfile, hpi, rfl⟩ := hend.ok hrun
    let f := found P.db ans m (uxStored P ans s).table
    let s' : State := { uxLooked P ans s m with fds := afterStreams (uxLooked P ans s m).fds a b }
    refine ⟨p, file, pi, s'.peerAt f, if s'.isSocket f then ans.send else .failed, hp, hfile, hpi,
      effects_of_ends ?_⟩
    rw [Ends, serveUx_stored hf, hm, bind_run (mysqlSelectFd_run P.db ans _ hfit), if_neg (not_lt.mpr h₀),
      ← uxLooked, bind_run hrun, bind_run (readStr_run ..), List.take_length]
    have hsent : ∀ answer, Shows (.sent m f (s'.peerAt f) (command P.json s.session p pi file) answer ::
          .query (selectFdText m) :: uxEffects P ans s.session.fd s.table s.trace)
        { s' with trace := Obs.sent m f (s'.peerAt f) (command P.json s.session p pi file) answer :: s'.trace } :=
      fun _ => congrArg (_ :: ·) hshows
    refine Ends.bind ((sendTo_ends ans m f _ s').mono ?_ ?_)
    · rintro n _ ⟨answer, rfl, -, rfl⟩
      split
      · exact hsent _
      · exact hsent _
    · rintro e _ ⟨-, hpipe, rfl⟩
      rw [hpipe]
      exact hsent _

end

/-- An agent's message whose mac fits the buffers makes the queries of
`mysql_insert_fd`. -/
theorem effects_agent {m : Bytes} (hm : s.session.minerMac = .str m)
    (hfit : Fits m s.session.fd .reqLinuxClaymore) :
    effects (serveAgent P ans) s =
      (insertObs P.db ans m s.session.fd .reqLinuxClaymore s.table ++ s.trace).filter Obs.isEffect := by
  refine effects_of_ends (.bind (.get (.bind ?_)))
  rw [Ends, hm, mysqlInsertFd_run P.db ans hfit s]
  refine Ends.pure ?_
  simp only [Shows, List.filter_append, List.filter_cons, Obs.isEffect, Bool.false_eq_true, if_false]

/-- An agent's message whose mac cannot be read or does not fit makes none. -/
theorem effects_agent_stopped
    (h : ∀ m, s.session.minerMac = .str m → ¬ Fits m s.session.fd .reqLinuxClaymore) :
    effects (serveAgent P ans) s = s.trace.filter Obs.isEffect := by
  refine effects_of_ends (.bind (.get (.bind ?_)))
  rw [Ends, mysqlInsertFd_stop P.db ans h s]
  exact rfl

/-- `mysql_insert_fd` makes at least one query. -/
theorem filter_insertObs_ne_nil (db : Database) (ans : Answers) (mac : Bytes) (fd : Int) (t : AgentType)
    (tbl : Table) : (insertObs db ans mac fd t tbl).filter Obs.isEffect ≠ [] := by
  unfold insertObs insertQueries
  split
  · simp [Obs.isEffect]
  · split <;> simp [Obs.isEffect]

/-! ## Independence -/

/-- json-c writes different numbers differently: the command shows its
sequence number. -/
def JsonC.ShowsSequence (json : JsonC) : Prop :=
  ∀ (σ₁ σ₂ : Session) (p pi : Bytes) (file : File), IsInt32 σ₁.sequence → IsInt32 σ₂.sequence →
    command json σ₁ p pi file = command json σ₂ p pi file → σ₁.sequence = σ₂.sequence

theorem serve_ux (ht : agentTypeOf ms = .reqUx) (s : State) :
    serve P ans fd (.object ms) s = serveUx P ans { s with session := uxSessionOf s.session fd ms } := by
  unfold serve
  simp only [getAgentType_object, parseJsonCmd_object, ht, liftExcept, pure_bind]
  generalize serveUx P ans = x
  rfl

theorem serve_agent (ht : agentTypeOf ms = .reqLinuxClaymore) (s : State) :
    serve P ans fd (.object ms) s = serveAgent P ans { s with session := agentSessionOf s.session fd ms } := by
  unfold serve
  simp only [getAgentType_object, parseJsonAgent_object, ht, liftExcept, pure_bind]
  generalize serveAgent P ans = x
  rfl

/-- The state with the session after a UX message. -/
def uxOn (s : State) (fd : Int) (ms : List Member) (σ : Session) : State :=
  { s with session := uxSessionOf σ fd ms }

/-- The state with the session after an agent's message. -/
def agentOn (s : State) (fd : Int) (ms : List Member) (σ : Session) : State :=
  { s with session := agentSessionOf σ fd ms }

/-- A mac that is looked up shows in the effects. -/
theorem effects_ux_looked {m : Bytes} (hf : IsInt32 s.session.fd) (hm : s.session.minerMac = .str m)
    (hfit : (selectFdText m).length + 1 ≤ QUERY_LEN) :
    ∃ l, effects (serveUx P ans) s =
      l ++ .query (selectFdText m) :: uxEffects P ans s.session.fd s.table s.trace := by
  by_cases h : 0 ≤ found P.db ans m (uxStored P ans s).table ∧ Forwardable ans s.session
  · obtain ⟨p, file, pi, conn, answer, -, -, -, he⟩ := effects_ux_sent hf hm hfit h.1 h.2
    exact ⟨[_], he⟩
  · exact ⟨[], effects_ux_unsent hf hm hfit h⟩

section

variable {m : Bytes} (hf : IsInt32 fd) (hm : macOf ms = some m)

include hf hm

theorem effects_uxOn_unsent (hfit : (selectFdText m).length + 1 ≤ QUERY_LEN) (σ : Session)
    (h : ¬ (0 ≤ found P.db ans m (insertTable P.db ans uxSession fd .reqUx s.table) ∧
      Forwardable ans (uxSessionOf σ fd ms))) :
    effects (serveUx P ans) (uxOn s fd ms σ) =
      .query (selectFdText m) :: uxEffects P ans fd s.table s.trace :=
  effects_ux_unsent (s := uxOn s fd ms σ) hf (uxSessionOf_minerMac hm σ) hfit h

theorem effects_uxOn_sent (hl : Located P ans fd s.table m) (σ : Session)
    (h : Forwardable ans (uxSessionOf σ fd ms)) :
    ∃ p file pi conn answer, (uxSessionOf σ fd ms).path = .str p ∧ ans.files p = some file ∧
      (uxSessionOf σ fd ms).pathInstall = .str pi ∧
      effects (serveUx P ans) (uxOn s fd ms σ) =
        .sent m (found P.db ans m (insertTable P.db ans uxSession fd .reqUx s.table)) conn
          (command P.json (uxSessionOf σ fd ms) p pi file) answer ::
        .query (selectFdText m) :: uxEffects P ans fd s.table s.trace :=
  effects_ux_sent (s := uxOn s fd ms σ) hf (uxSessionOf_minerMac hm σ) hl.1 hl.2 h

/-- A command that is sent for all sessions with the same pointers shows the
sequence number of the session. -/
theorem sequence_bound (hjson : P.json.ShowsSequence) (hl : Located P ans fd s.table m) {p : Bytes}
    (hp : ∀ i, Forwardable ans (uxSessionOf (completing p i) fd ms))
    (h : ∀ σ₁ σ₂, effects (serveUx P ans) (uxOn s fd ms σ₁) = effects (serveUx P ans) (uxOn s fd ms σ₂)) :
    lastString (ascii "sequence") ms ≠ none := by
  intro hnone
  have hseq : ∀ i, (uxSessionOf (completing p i) fd ms).sequence = i := fun i => by
    simp only [uxSessionOf, Session.cmdFields, hnone]
    rfl
  obtain ⟨p₀, file₀, pi₀, conn₀, answer₀, hp₀, hfile₀, hpi₀, h₀⟩ :=
    effects_uxOn_sent (P := P) (s := s) hf hm hl _ (hp 0)
  obtain ⟨p₁, file₁, pi₁, conn₁, answer₁, hp₁, hfile₁, hpi₁, h₁⟩ :=
    effects_uxOn_sent (P := P) (s := s) hf hm hl _ (hp 1)
  obtain rfl : p₀ = p₁ := CharPtr.str.inj (hp₀.symm.trans hp₁)
  obtain rfl : file₀ = file₁ := Option.some.inj (hfile₀.symm.trans hfile₁)
  obtain rfl : pi₀ = pi₁ := CharPtr.str.inj (hpi₀.symm.trans hpi₁)
  have hobs := (List.cons.inj ((h₀.symm.trans (h ..)).trans h₁)).1
  simp only [Obs.sent.injEq] at hobs
  have heq := hjson _ _ _ _ _ (by rw [hseq]; decide) (by rw [hseq]; decide) hobs.2.2.2.1
  rw [hseq, hseq] at heq
  exact absurd heq (by decide)

end

/-- UX messages are independent of the session if and only if they bring along
what is read. -/
theorem ux_independent_iff (hjson : P.json.ShowsSequence) (hf : IsInt32 fd) (ht : agentTypeOf ms = .reqUx) :
    (∀ σ₁ σ₂, effects (serveUx P ans) (uxOn s fd ms σ₁) = effects (serveUx P ans) (uxOn s fd ms σ₂)) ↔
      SelfContained P ans fd s.table ms := by
  constructor
  · intro h
    refine ⟨fun hmac => ?_, fun _ m hm hl hb key hk hnone => ?_⟩
    · -- without a mac, a blank session stops before the mac is looked up
      have hn : ∀ σ, (uxSessionOf σ fd ms).minerMac = σ.minerMac := fun σ => by
        simp only [uxSessionOf, Session.cmdFields, Option.map_eq_none_iff.mp hmac]
        rfl
      have h₁ : effects (serveUx P ans) (uxOn s fd ms blank) = uxEffects P ans fd s.table s.trace :=
        effects_ux_stopped (s := uxOn s fd ms blank) hf fun m hm => by cases (hn blank).symm.trans hm
      obtain ⟨l, h₂⟩ : ∃ l, effects (serveUx P ans) (uxOn s fd ms { blank with minerMac := .str [] }) =
          l ++ .query (selectFdText []) :: uxEffects P ans fd s.table s.trace :=
        effects_ux_looked (s := uxOn s fd ms { blank with minerMac := .str [] }) hf (hn _) (by decide)
      have hlen := congrArg List.length ((h₁.symm.trans (h ..)).trans h₂)
      rw [List.length_append, List.length_cons] at hlen
      omega
    · obtain ⟨p, hp⟩ : ∃ p, ∀ i, Forwardable ans (uxSessionOf (completing p i) fd ms) := hb.forwardable
      by_cases hs : key = ascii "sequence"
      · exact sequence_bound hf hm hjson hl hp h (hs ▸ hnone)
      · -- a blank session does not complete the command
        obtain ⟨p', file, pi, conn, answer, -, -, -, h₁⟩ := effects_uxOn_sent hf hm hl _ (hp 0)
        have hblank : ¬ Forwardable ans (uxSessionOf blank fd ms) := not_forwardable_blank hk hs hnone
        have h₂ := effects_uxOn_unsent (P := P) (s := s) hf hm hl.1 blank fun hx => hblank hx.2
        have hlen := congrArg List.length ((h₁.symm.trans (h ..)).trans h₂)
        simp only [List.length_cons] at hlen
        omega
  · rintro ⟨hmac, hcmd⟩ σ₁ σ₂
    obtain ⟨m, hm⟩ := Option.ne_none_iff_exists'.mp hmac
    by_cases hfit : (selectFdText m).length + 1 ≤ QUERY_LEN
    · by_cases hx : 0 ≤ found P.db ans m (insertTable P.db ans uxSession fd .reqUx s.table) ∧ Buildable ans ms
      · rw [uxOn, uxOn, uxSessionOf_eq hmac (hcmd ht m hm ⟨hfit, hx.1⟩ hx.2) σ₁ σ₂]
      · have hno : ∀ σ, ¬ (0 ≤ found P.db ans m (insertTable P.db ans uxSession fd .reqUx s.table) ∧
            Forwardable ans (uxSessionOf σ fd ms)) := fun σ hy => hx ⟨hy.1, .of_forwardable hy.2⟩
        rw [effects_uxOn_unsent hf hm hfit σ₁ (hno σ₁), effects_uxOn_unsent hf hm hfit σ₂ (hno σ₂)]
    · have hstop : ∀ σ, effects (serveUx P ans) (uxOn s fd ms σ) = uxEffects P ans fd s.table s.trace := fun σ =>
        effects_ux_stopped (s := uxOn s fd ms σ) hf fun m' hm' => by
          obtain rfl := CharPtr.str.inj ((uxSessionOf_minerMac hm σ).symm.trans hm')
          exact hfit
      rw [hstop, hstop]

theorem agent_independent_iff (hf : IsInt32 fd) (ht : agentTypeOf ms = .reqLinuxClaymore) :
    (∀ σ₁ σ₂, effects (serveAgent P ans) (agentOn s fd ms σ₁) = effects (serveAgent P ans) (agentOn s fd ms σ₂)) ↔
      SelfContained P ans fd s.table ms := by
  constructor
  · refine fun h => ⟨fun hmac => ?_, fun hux => by cases ht.symm.trans hux⟩
    have hn : ∀ σ, (agentSessionOf σ fd ms).minerMac = σ.minerMac := fun σ => by
      simp only [agentSessionOf, Session.agentFields, Option.map_eq_none_iff.mp hmac]
      rfl
    have h₁ : effects (serveAgent P ans) (agentOn s fd ms blank) = s.trace.filter Obs.isEffect :=
      effects_agent_stopped fun m hm => by cases (hn blank).symm.trans hm
    have h₂ : effects (serveAgent P ans) (agentOn s fd ms { blank with minerMac := .str [] }) =
        (insertObs P.db ans [] fd .reqLinuxClaymore s.table ++ s.trace).filter Obs.isEffect :=
      effects_agent (hn _) (fits_of_short (by decide) hf _)
    have heq := (h₁.symm.trans (h ..)).trans h₂
    rw [List.filter_append, List.self_eq_append_left] at heq
    exact filter_insertObs_ne_nil _ _ _ _ _ _ heq
  · rintro ⟨hmac, -⟩ σ₁ σ₂
    obtain ⟨m, hm⟩ := Option.ne_none_iff_exists'.mp hmac
    have hmac : ∀ σ, (agentSessionOf σ fd ms).minerMac = .str m := fun σ => minerMac_of_macOf σ fd hm
    by_cases hfit : Fits m fd .reqLinuxClaymore
    · have hrun : ∀ σ, effects (serveAgent P ans) (agentOn s fd ms σ) =
          (insertObs P.db ans m fd .reqLinuxClaymore s.table ++ s.trace).filter Obs.isEffect := fun σ =>
        effects_agent (s := agentOn s fd ms σ) (hmac σ) hfit
      rw [hrun, hrun]
    · have hstop : ∀ σ, effects (serveAgent P ans) (agentOn s fd ms σ) = s.trace.filter Obs.isEffect := fun σ =>
        effects_agent_stopped (s := agentOn s fd ms σ) fun m' hm' => by
          obtain rfl := CharPtr.str.inj ((hmac σ).symm.trans hm')
          exact hfit
      rw [hstop, hstop]

/-- What receiving a message does is what serving it does. -/
theorem effects_recv (hf : 0 ≤ fd ∧ fd < MAXFDS) {data : Bytes}
    (hr : (readEnds [] ans.recvs).map Prod.fst = some (.frame data))
    (hj : parseStringToJson P.json (cstr data) = .object ms) (s : State) :
    effects (onPeerReadyRecv P ans fd) s =
      effects (serve P ans fd (.object ms)) (handedOn s fd ans.recvs (cstr data)) := by
  unfold effects finish
  rw [onPeerReadyRecv_frame hf hr, hj]
  cases hx : serve P ans fd (.object ms) (handedOn s fd ans.recvs (cstr data)) with
  | ok a s' => rw [bind_run hx]; rfl
  | error e s' => rw [bind_stop hx]

/-- What a message does is the same for any two contents of the session if and
only if the message brings along what is read of it. -/
theorem independent_iff_selfContained (hjson : P.json.ShowsSequence) (hf : 0 ≤ fd ∧ fd < MAXFDS)
    {data : Bytes} {rest : List Recv} (hread : socketRead ans.recvs = some (.ok (some data, 0), rest))
    (hj : parseStringToJson P.json (cstr data) = .object ms)
    (ht : agentTypeOf ms = .reqUx ∨ agentTypeOf ms = .reqLinuxClaymore) :
    Independent P ans fd s ↔ SelfContained P ans fd s.table ms := by
  have hr := readEnds_of_socketRead hread
  let s₁ := handedOn s fd ans.recvs (cstr data)
  rcases ht with ht | ht
  · have hrecv : ∀ σ, effects (onPeerReadyRecv P ans fd) { s with session := σ } =
        effects (serveUx P ans) (uxOn s₁ fd ms σ) := fun σ => by
      rw [effects_recv hf hr hj, effects, finish, serve_ux ht]
      rfl
    rw [← show s₁.table = s.table from rfl, ← ux_independent_iff hjson (isInt32_of_lt_maxfds hf) ht]
    simp only [Independent, hrecv]
  · have hrecv : ∀ σ, effects (onPeerReadyRecv P ans fd) { s with session := σ } =
        effects (serveAgent P ans) (agentOn s₁ fd ms σ) := fun σ => by
      rw [effects_recv hf hr hj, effects, finish, serve_agent ht]
      rfl
    rw [← show s₁.table = s.table from rfl, ← agent_independent_iff (isInt32_of_lt_maxfds hf) ht]
    simp only [Independent, hrecv]

/-! ## Sample messages -/

/-- The members of a command can be read off its text. -/
theorem showsSequence_spaced : Flat.spaced.ShowsSequence := by
  intro σ₁ σ₂ p pi file _ _ h
  have hform : ∀ σ : Session, command Flat.spaced σ p pi file =
      JsonText.print [(ascii "commend_type", .str (ascii "file-download")), (ascii "path", .str p),
        (ascii "sequence", .int σ.sequence), (ascii "content", .str (cstr (file.contents.take file.size.toNat))),
        (ascii "path_install", .str pi)] := fun σ => by
    rw [← cstr_of_nul_free (JsonText.nul_not_mem_print _), ← Flat.toText_spaced]
    rfl
  rw [hform, hform] at h
  have hread := congrArg JsonText.read h
  simp only [JsonText.read_print] at hread
  simpa using hread

/-- A download names all members of the command; its mac is in the table. -/
theorem independent_download :
    Independent Flat.params (Flat.answers (Flat.download "m") 8 9 (.sent 1)) 6
      (Flat.start (KeyedTable.empty.put ⟨ascii "m", 7, 2⟩)) :=
  (independent_iff_selfContained showsSequence_spaced (by decide)
    (show socketRead _ = some (.ok (some (Flat.download "m" ++ [0]), 0), []) by decide +kernel)
    (Flat.parse_text _ []) (.inl (by decide +kernel))).mpr ⟨by decide +kernel, fun _ _ _ _ _ => by decide +kernel⟩

/-- The message of an agent that leaves out its mac. -/
def Flat.nameless : Bytes := Flat.text [("agent_type", "linux-claymore-nvidia")]

/-- An agent's message without a mac registers whatever mac the session holds
from the message of another agent. -/
theorem independent_nameless :
    ¬ ∀ (P : Params) (ans : Answers) (fd : Int) (s : State) (data : Bytes) (rest : List Recv)
      (ms : List Member), P.json.ShowsSequence → 0 ≤ fd ∧ fd < MAXFDS →
      socketRead ans.recvs = some (.ok (some data, 0), rest) →
      parseStringToJson P.json (cstr data) = .object ms →
      agentTypeOf ms = .reqUx ∨ agentTypeOf ms = .reqLinuxClaymore → Independent P ans fd s := by
  intro h
  have hi := h Flat.params { recvs := Flat.arrives Flat.nameless } 6 (Flat.start .empty)
    (Flat.nameless ++ [0]) [] _ showsSequence_spaced (by decide) (by decide +kernel) (Flat.parse_text _ [])
    (.inr (by decide +kernel))
  have heq := hi { Flat.garbage with minerMac := .str (ascii "m") }
    { Flat.garbage with minerMac := .str (ascii "n") }
  exact absurd heq (by decide +kernel)

end CmdAgent
