import CmdAgent.Proof.SessionTable

/-!
# Where commands are sent

`EachSent` says that something holds of every command sent in a run, given
what the run did before it. A command is sent in one place (`Sending`), and
there the table has just got the row of the UX client and the descriptor has
been found under the message's mac; `reach_eachSent` leaves only this step to
be looked at.

In a run without failures the command goes to the connection that registered
the mac last, and to an agent unless the mac is the UX client's own key
(`agents_only`). With queries that fail, and rows from an earlier run, it goes
to a connection that registered the mac, provided no connection is accepted on
a descriptor that a row still names (`no_misdelivery`).
-/

namespace CmdAgent

open SqlText

variable {P : Params} {s s' : State} {ans : Answers} {e : Ready}

/-- `Q` holds of every command in the trace, with what came before it. -/
def EachSent (Q : List Obs → Bytes → Int → Option Nat → SendAnswer → Prop) : List Obs → Prop
  | [] => True
  | .sent m f conn _ answer :: tr => Q tr m f conn answer ∧ EachSent Q tr
  | _ :: tr => EachSent Q tr

section EachSent

variable {Q : List Obs → Bytes → Int → Option Nat → SendAnswer → Prop} {tr : List Obs}

theorem EachSent.of_eq {newer older : List Obs} {m data : Bytes} {f : Int} {conn : Option Nat}
    {answer : SendAnswer} (h : EachSent Q (newer ++ .sent m f conn data answer :: older)) :
    Q older m f conn answer := by
  induction newer with
  | nil => exact h.1
  | cons o newer ih =>
    cases o with
    | sent => exact ih h.2
    | _ => exact ih h

/-- An observation that sends nothing. -/
def Obs.Unsent : Obs → Prop
  | .sent _ _ _ _ _ => False
  | _ => True

theorem Obs.Quiet.unsent {o : Obs} (h : o.Quiet) : o.Unsent := by
  cases o <;> first | exact h.elim | trivial

theorem eachSent_append {new : List Obs} (h : ∀ o ∈ new, o.Unsent) :
    EachSent Q (new ++ tr) ↔ EachSent Q tr := by
  induction new with
  | nil => exact Iff.rfl
  | cons o new ih =>
    have ho := h o (List.mem_cons_self ..)
    have ih := ih fun o' ho' => h o' (List.mem_cons_of_mem _ ho')
    cases o with
    | sent => exact ho.elim
    | _ => exact ih

theorem eachSent_quiet {new : List Obs} (h : ∀ o ∈ new, o.Quiet) :
    EachSent Q (new ++ tr) ↔ EachSent Q tr :=
  eachSent_append fun o ho => (h o ho).unsent

end EachSent

/-! ## The step that sends -/

/-- The event `e` makes the server send a command, found under `m`, to `f`,
where `conn` is open; `older` is the trace at this point. -/
structure Sending (P : Params) (ans : Answers) (e : Ready) (s : State) (older : List Obs) (m : Bytes) (f : Int)
    (conn : Option Nat) (answer : SendAnswer) : Prop where
  reads : e.Reads P
  message : ∃ data ms, (readEnds [] ans.recvs).map Prod.fst = some (.frame data) ∧
    parseStringToJson P.json (cstr data) = .object ms ∧ agentTypeOf ms = .reqUx ∧
    (uxSessionOf s.session e.fd ms).minerMac = .str m
  found : f = found P.db ans m (insertTable P.db ans uxSession e.fd .reqUx s.table)
  nonneg : 0 ≤ f
  conn : conn = s.peerAt f
  answer : s.isSocket f = false → answer = .failed
  older : ∃ obs text, (∀ o ∈ obs, o.Quiet) ∧
    older = obs ++ .registered uxSession e.fd (s.peerAt e.fd) .reqUx ::
      ([.handed e.fd (s.peerAt e.fd) text, .received e.fd (s.peerAt e.fd) ans.recvs] ++ s.trace)

/-- Streams are no sockets. -/
theorem isSocket_of_fdsKept (h : FdsKept ans s.fds s'.fds) (hf : StreamsFresh ans s) (f : Int) :
    s'.isSocket f = s.isSocket f := by
  rcases h f with he | ⟨hs, he⟩
  · rw [State.isSocket, State.isSocket, he]
  · rw [State.isSocket, State.isSocket, hf f hs]
    rcases he with he | he <;> rw [he]

theorem serves_eachSent {Q : List Obs → Bytes → Int → Option Nat → SendAnswer → Prop} {o : Option Stop}
    {data : Bytes} (he : e.Reads P) (hr : (readEnds [] ans.recvs).map Prod.fst = some (.frame data))
    (h : Serves P ans e.fd (parseStringToJson P.json (cstr data)) (handedOn s e.fd ans.recvs (cstr data)) o s')
    (hf : StreamsFresh ans s) (hs : EachSent Q s.trace)
    (hq : ∀ older m f conn answer, Sending P ans e s older m f conn answer → Q older m f conn answer) :
    EachSent Q s'.trace := by
  have hfds := h.fdsKept
  cases h with
  | malformed => exact hs
  | ignored => exact hs
  | agentStopped => exact hs
  | agent => exact (eachSent_quiet (quiet_insertObs _ _ _ _ _ _)).mpr hs
  | uxStopped => exact hs
  | ux _ _ hobs => exact (eachSent_quiet hobs).mpr hs
  | uxFailed _ _ hobs => exact (eachSent_quiet hobs).mpr hs
  | uxSent hj ht _ hm hobs hobs' hfound hpos _ ha hb hans =>
    refine (eachSent_quiet hobs').mpr ⟨hq _ _ _ _ _ ⟨he, ⟨data, _, hr, hj, ht, hm⟩, hfound, hpos, ?_, fun hn => ?_,
      _, _, hobs, rfl⟩, (eachSent_quiet hobs).mpr hs⟩
    · exact congrFun (peerAt_of_fdsKept (s := s) hfds hf) _
    · refine hans.trans (if_neg ?_)
      rw [Bool.not_eq_true]
      exact (isSocket_of_fdsKept (s := s) hfds hf _).trans hn

theorem handles_eachSent {Q : List Obs → Bytes → Int → Option Nat → SendAnswer → Prop} {o : Option Stop}
    (h : Handles P ans e s o s') (hf : StreamsFresh ans s) (hs : EachSent Q s.trace)
    (hq : ∀ older m f conn answer, Sending P ans e s older m f conn answer → Q older m f conn answer) :
    EachSent Q s'.trace := by
  cases h with
  | closed _ _ _ hobs => exact (eachSent_quiet hobs).mpr hs
  | closeDied _ _ _ hobs => exact (eachSent_quiet hobs).mpr hs
  | served he hr h => exact (serves_eachSent he hr h hf hs hq :)
  | serveDied he hr h => exact serves_eachSent he hr h hf hs hq
  | serveStopped he hr h => exact serves_eachSent he hr h hf hs hq
  | _ => exact hs

/-- What holds of the step that sends holds of every command in the run. -/
theorem reach_eachSent {P₀ : State → Prop} {C : State → Action → Prop}
    {Q : List Obs → Bytes → Int → Option Nat → SendAnswer → Prop}
    (hq : ∀ s ans e rest older m f conn answer, ((server P).restrict P₀ C).Reach s → s.stopped = none → Book P s →
      s.batch = e :: rest → C s (.event ans) → Sending P ans e s older m f conn answer → Q older m f conn answer)
    (h : ((server P).restrict P₀ C).Reach s) : EachSent Q s.trace := by
  refine reach_events (P := P) (I := fun s => EachSent Q s.trace) (fun s hi _ => ?_) (fun _ _ _ _ _ ih => ih) ?_ h
  · rw [hi.trace]; trivial
  · intro s ans e rest o s' hreach hrun hb ih hv hbatch hc hh
    have hall := handles_eachSent hh hv.streamsFresh ih fun older m f conn answer hsend =>
      hq s ans e rest older m f conn answer hreach hrun hb hbatch hc
        ⟨hsend.reads, hsend.message, hsend.found, hsend.nonneg, hsend.conn, hsend.answer, hsend.older⟩
    exact hall

section Sending

variable {older : List Obs} {m : Bytes} {f : Int} {conn : Option Nat} {answer : SendAnswer} {rest : List Ready}

/-- The last registrations when the command is sent: the UX client has just
registered. -/
theorem Sending.lastReg_older (h : Sending P ans e s older m f conn answer) {c : Nat}
    (hc : s.fds e.fd = some (.peer c)) (k : Bytes) :
    lastReg k older = Function.update (fun k => lastReg k s.trace) uxSession (some (c, .reqUx)) k := by
  obtain ⟨obs, text, hobs, rfl⟩ := h.older
  rw [State.peerAt_eq_some.mpr hc]
  exact lastReg_registered (fun o ho => (hobs o ho).noReg) (handed_noReg _ _ _ _) uxSession k e.fd c .reqUx

theorem Sending.row (h : Sending P ans e s older m f conn answer) (hm : Plain m) :
    ∃ row, (insertTable P.db ans uxSession e.fd .reqUx s.table).lookup m = some row ∧ f = atoi (printD row.fd) := by
  obtain ⟨row, hl, hf⟩ := lookup_of_found hm (h.found ▸ h.nonneg)
  exact ⟨row, hl, h.found.trans hf⟩

end Sending

/-! ## Without failures -/

theorem sending_agents_only (hreach : (cleanServer P).Reach s) (hrun : s.stopped = none) (hb : Book P s)
    {rest : List Ready} (hbatch : s.batch = e :: rest) (hans : ans.Answered) {older : List Obs} {m : Bytes} {f : Int}
    {conn : Option Nat} {answer : SendAnswer} (h : Sending P ans e s older m f conn answer) :
    (∃ c, conn = some c ∧ lastReg m older = some (c, .reqLinuxClaymore)) ↔ Plain m ∧ m ≠ uxSession := by
  obtain ⟨c₀, hc₀⟩ := hb.sender h.reads hbatch
  obtain ⟨ht, hk⟩ := clean_refines hreach hrun hb
  -- the table and the registry once the UX client has registered
  have ht' : Refines (insertTable P.db ans uxSession e.fd .reqUx s.table) (hb.registry.register uxSession c₀ .reqUx) :=
    (ht.register (State.peerAt_eq_some.mpr hc₀) uxSession .reqUx).congr
      ((stored_insertTable P.db ans uxSession (isInt32_of_lt_maxfds (hb.range _ _ hc₀)) .reqUx s.table).stored
        plain_uxSession (by rw [hans.insert]; decide) (by rw [hans.update]; decide))
  have hlast : lastReg m older = (hb.registry.register uxSession c₀ .reqUx).last m := h.lastReg_older hc₀ m
  rw [hlast]
  constructor
  · rintro ⟨c, -, hl⟩
    by_cases hm : m = uxSession
    · subst hm
      simp [Registry.register] at hl
    · simp only [Registry.register, Function.update_of_ne hm] at hl
      exact ⟨(hk m c _ hl).2.1, hm⟩
  · rintro ⟨hp, hm⟩
    obtain ⟨row, hrow, hf⟩ := h.row hp
    obtain ⟨g, t, rfl, c, hl, hg⟩ := (ht' m row).mp hrow
    have hg' : s.fds g = some (.peer c) := State.peerAt_eq_some.mp hg
    rw [atoi_printD (isInt32_of_lt_maxfds (hb.range g c hg'))] at hf
    refine ⟨c, by rw [h.conn, hf]; exact hg, ?_⟩
    have hl' := hl
    simp only [Registry.register, Function.update_of_ne hm] at hl'
    rcases (hk m c t hl').2.2 with ⟨-, hux⟩ | rfl
    · exact absurd hux hm
    · exact hl

/-- A command goes to the connection that registered the mac last, by an
agent's message, if and only if the mac is plain and not the key of the UX
clients. -/
theorem agents_only (h : (cleanServer P).Reach s) {newer older : List Obs} {m data : Bytes} {f : Int}
    {conn : Option Nat} {answer : SendAnswer}
    (htr : s.trace = newer ++ .sent m f conn data answer :: older) :
    (∃ c, conn = some c ∧ lastReg m older = some (c, .reqLinuxClaymore)) ↔ Plain m ∧ m ≠ uxSession := by
  have hall : EachSent (fun older m _ conn _ =>
      (∃ c, conn = some c ∧ lastReg m older = some (c, .reqLinuxClaymore)) ↔ Plain m ∧ m ≠ uxSession) s.trace :=
    reach_eachSent (fun s ans e rest older m f conn answer hreach hrun hb hbatch hc hsend =>
      sending_agents_only hreach hrun hb hbatch hc.1 hsend) h
  rw [htr] at hall
  exact hall.of_eq

/-- A UX client sends a command to an agent. -/
def delivered : State :=
  (cleanServer Flat.params).exec (Flat.start .empty)
    (Flat.connect 6 ++ Flat.speaks 6 0 (Flat.hello "m") ++ Flat.connect 7 ++
      Flat.one 7 (some 1) (Flat.answers (Flat.download "m") 8 9 (.sent 99)))

theorem reach_delivered : (cleanServer Flat.params).Reach delivered :=
  .exec (.init ⟨Flat.initial_start .empty, rfl⟩) (by decide +kernel)

theorem agents_only_delivered :
    delivered.trace = .sent (ascii "m") 6 (some 0) Flat.command (.sent 99) :: delivered.trace.tail ∧
      ∃ c, some 0 = some c ∧ lastReg (ascii "m") delivered.trace.tail = some (c, .reqLinuxClaymore) := by
  have htr : delivered.trace = .sent (ascii "m") 6 (some 0) Flat.command (.sent 99) :: delivered.trace.tail := by
    decide +kernel
  exact ⟨htr, (agents_only reach_delivered (show _ = [] ++ _ from htr)).mpr (by decide +kernel)⟩

/-- A UX client sends a command to the key of the UX clients. -/
def toItself : State :=
  (cleanServer Flat.params).exec (Flat.start .empty)
    (Flat.connect 6 ++ Flat.one 6 (some 0) (Flat.answers (Flat.download "UX_SESSION") 7 8 (.sent 99)))

/-- The UX client gets its own command. -/
theorem agents_only_toItself :
    ¬ ∀ (P : Params) (s : State) (newer older : List Obs) (m data : Bytes) (f : Int) (conn : Option Nat)
      (answer : SendAnswer), (cleanServer P).Reach s → s.trace = newer ++ .sent m f conn data answer :: older →
      ∃ c, conn = some c ∧ lastReg m older = some (c, .reqLinuxClaymore) := by
  intro h
  have hreach : (cleanServer Flat.params).Reach toItself :=
    .exec (.init ⟨Flat.initial_start .empty, rfl⟩) (by decide +kernel)
  have htr : toItself.trace = .sent uxSession 6 (some 0) Flat.command (.sent 99) :: toItself.trace.tail ∧
      lastReg uxSession toItself.trace.tail = some (0, .reqUx) := by decide +kernel
  obtain ⟨c, -, hl⟩ := h Flat.params toItself [] _ _ _ _ _ _ hreach htr.1
  rw [htr.2] at hl
  cases hl

/-! ## With failures and rows from an earlier run -/

/-- The connection `c` has registered `k`. -/
def HasRegistered (k : Bytes) (c : Nat) (tr : List Obs) : Prop := ∃ f t, .registered k f (some c) t ∈ tr

/-- Every row names a descriptor that is none of the server's own, and if a
connection is open on it, it has registered the key. -/
def Traced (P : Params) (client : Int → Option Nat) (t : Table) (tr : List Obs) : Prop :=
  ∀ k row, t.lookup k = some row →
    IsInt32 row.fd ∧ row.fd ≠ P.listener ∧ row.fd ≠ P.dbfd ∧ ∀ c, client row.fd = some c → HasRegistered k c tr

section Traced

variable {client : Int → Option Nat} {t t' : Table} {tr tr' : List Obs}

theorem Traced.congr (h : Traced P client t tr) (ht : ∀ k row, t'.lookup k = some row → t.lookup k = some row)
    (htr : ∀ o ∈ tr, o ∈ tr') : Traced P client t' tr' := fun k row hrow => by
  obtain ⟨h₁, h₂, h₃, h₄⟩ := h k row (ht k row hrow)
  refine ⟨h₁, h₂, h₃, fun c hc => ?_⟩
  obtain ⟨f, v, hm⟩ := h₄ c hc
  exact ⟨f, v, htr _ hm⟩

theorem Traced.register (h : Traced P client t tr) (hb : Book P s) {f : Int} {c : Nat} (hc : client f = some c)
    (hf : s.fds f = some (.peer c)) {k : Bytes} (hk : Plain k) {v : Int} (hst : Stored ans ⟨k, f, v⟩ t t')
    (htr : ∀ o ∈ tr, o ∈ tr') (hreg : HasRegistered k c tr') : Traced P client t' tr' := by
  have hold : Traced P client t tr' := h.congr (fun _ _ hl => hl) htr
  rcases hst.either hk with hsame | hput
  · exact hold.congr (fun l row hl => by rwa [hsame l] at hl) fun _ ho => ho
  · intro l row hl
    rw [hput l, KeyedTable.lookup_put] at hl
    split at hl
    · rename_i hlk
      obtain rfl : k = l := hlk
      obtain rfl := Option.some.inj hl
      refine ⟨isInt32_of_lt_maxfds (hb.range f c hf), hb.ne_listener hf, fun e => ?_, fun d hd => ?_⟩
      · have := ((hb.own f).2.2).mpr e
        rw [hf] at this
        cases this
      · obtain rfl : c = d := Option.some.inj (hc.symm.trans hd)
        exact hreg
    · exact hold l row hl

end Traced

/-- The mac of the message that the next event delivers is plain, wherever in
the session it comes from. -/
def PlainMacs (P : Params) (s : State) (ans : Answers) : Prop :=
  ∀ p ∈ message P s ans,
    (agentTypeOf p.2 = .reqLinuxClaymore → ∀ k ∈ (agentSessionOf s.session p.1 p.2).minerMac.str?, Plain k) ∧
    (agentTypeOf p.2 = .reqUx → ∀ m ∈ (uxSessionOf s.session p.1 p.2).minerMac.str?, Plain m)

instance : Decidable (PlainMacs P s ans) := inferInstanceAs (Decidable (∀ _ ∈ _, _))

/-- No connection is accepted on a descriptor that a row names. -/
def NoStaleRow (P : Params) (s : State) (ans : Answers) : Prop :=
  ∀ f ∈ accepting P s ans, ∀ row ∈ s.table.rows, row.fd ≠ f

instance : Decidable (NoStaleRow P s ans) := inferInstanceAs (Decidable (∀ _ ∈ _, ∀ _ ∈ _, _))

def Careful (P : Params) (s : State) : Action → Prop
  | .wait _ _ => True
  | .event ans => PlainMacs P s ans ∧ NoStaleRow P s ans

instance : ∀ a, Decidable (Careful P s a)
  | .wait _ _ => isTrue trivial
  | .event _ => inferInstanceAs (Decidable (_ ∧ _))

/-- The runs of the server from the rows an earlier run has left, with queries
that may fail, in which no new connection gets a descriptor that a row names. -/
def carefulServer (P : Params) : Machine State Action :=
  (server P).restrict
    (fun s => ∀ row ∈ s.table.rows, IsInt32 row.fd ∧ row.fd ≠ P.listener ∧ row.fd ≠ P.dbfd) (Careful P)

instance (a : Action) : Decidable ((carefulServer P).admits s a) :=
  inferInstanceAs (Decidable (((server P).restrict _ (Careful P)).admits s a))

theorem Registers.plain_of_plainMacs {f : Int} {k : Bytes} {t : AgentType} (h : Registers P s ans f k t)
    (hm : PlainMacs P s ans) : Plain k := by
  obtain ⟨ms, hmsg, ht, ⟨rfl, -⟩ | ⟨hk, rfl⟩⟩ := h
  · exact plain_uxSession
  · exact (hm _ hmsg).1 ht k (CharPtr.str?_eq_some.mpr hk)

theorem changes_traced (hb : Book P s) (hb' : Book P s')
    (h : Changes P s ans hb.registry s.table hb'.registry s'.table) (hm : PlainMacs P s ans)
    (hs : NoStaleRow P s ans) (htr : ∀ o ∈ s.trace, o ∈ s'.trace) (ht : Traced P s.peerAt s.table s.trace) :
    Traced P s'.peerAt s'.table s'.trace := by
  have hclient : ∀ r', hb'.registry = r' → s'.peerAt = r'.client := fun r' hr => hr ▸ rfl
  have hold : Traced P s.peerAt s.table s'.trace := ht.congr (fun _ _ hl => hl) htr
  generalize hr' : hb'.registry = r', htab : s'.table = t' at h
  rw [hclient r' hr']
  cases h with
  | same => exact hold
  | @connected f hacc _ _ =>
    intro k row hl
    obtain ⟨h₁, h₂, h₃, h₄⟩ := hold k row hl
    refine ⟨h₁, h₂, h₃, fun c hc => h₄ c ?_⟩
    have hne : row.fd ≠ f := hs f hacc row (KeyedTable.lookup_eq_some.mp hl).1
    simp only [Registry.connect, Function.update_of_ne hne] at hc
    exact hc
  | @left f _ hd =>
    intro k row hl
    have hl' : s.table.lookup k = some row := by
      rw [Deleted] at hd
      split at hd
      · rwa [hd] at hl
      · rw [hd, KeyedTable.lookup_deleteWhere, Option.filter_eq_some_iff] at hl
        exact hl.1
    obtain ⟨h₁, h₂, h₃, h₄⟩ := hold k row hl'
    refine ⟨h₁, h₂, h₃, fun c hc => h₄ c ?_⟩
    simp only [Registry.leave] at hc
    by_cases hrf : row.fd = f
    · rw [hrf, Function.update_self] at hc; cases hc
    · rwa [Function.update_of_ne hrf] at hc
  | @registered k f c v _ hc hreg hst =>
    have hlast : lastReg k s'.trace = some (c, v) := by
      rw [show lastReg k s'.trace = hb'.registry.last k from rfl, hr']
      simp [Registry.register]
    obtain ⟨g, hg⟩ := mem_of_lastReg hlast
    exact ht.register hb hc (State.peerAt_eq_some.mp hc) (hreg.plain_of_plainMacs hm) hst htr ⟨g, v, hg⟩

/-- As long as such a run goes on, the rows of open connections can be traced
to registrations. -/
theorem careful_traced (h : (carefulServer P).Reach s) (hrun : s.stopped = none) :
    Traced P s.peerAt s.table s.trace := by
  revert hrun
  refine reach_events (P := P) (I := fun s => s.stopped = none → Traced P s.peerAt s.table s.trace)
    (fun s hi ht _ k row hl => ?_) (fun _ _ _ hrun _ ih _ => ih hrun) ?_ h
  · obtain ⟨h₁, h₂, h₃⟩ := ht row (KeyedTable.lookup_eq_some.mp hl).1
    refine ⟨h₁, h₂, h₃, fun c hc => ?_⟩
    exact absurd (State.peerAt_eq_some.mp hc) (hi.no_peer row.fd c)
  · rintro s ans e rest o s' - hrun hb ih hv hbatch ⟨hm, hs⟩ hh rfl
    have hb' := book_handles hb hv hbatch hh
    obtain ⟨new, htr⟩ := hh.trace_eq
    have hmono : ∀ o ∈ s.trace, o ∈ s'.trace := fun o ho => by
      rw [htr]; exact List.mem_append_right _ ho
    have htraced := changes_traced hb hb' (handles_changes hb hb' hv hbatch hh) hm hs hmono (ih hrun)
    exact htraced

/-- The command reaches no connection but one that has registered the mac. -/
def Rightly (older : List Obs) (m : Bytes) (conn : Option Nat) (answer : SendAnswer) : Prop :=
  (∀ c, conn = some c → HasRegistered m c older) ∧ (conn = none → ∀ n, answer ≠ .sent n)

theorem sending_rightly (hreach : (carefulServer P).Reach s) (hrun : s.stopped = none) (hb : Book P s)
    {rest : List Ready} (hbatch : s.batch = e :: rest) (hm : PlainMacs P s ans) {older : List Obs} {m : Bytes}
    {f : Int} {conn : Option Nat} {answer : SendAnswer} (h : Sending P ans e s older m f conn answer) :
    Rightly older m conn answer := by
  obtain ⟨c₀, hc₀⟩ := hb.sender h.reads hbatch
  obtain ⟨data, ms, hr, hj, ht, hmac⟩ := h.message
  have hplain : Plain m := (hm _ (message_eq hbatch h.reads hr hj)).2 ht m (CharPtr.str?_eq_some.mpr hmac)
  -- the table once the UX client has registered
  have htraced : Traced P s.peerAt (insertTable P.db ans uxSession e.fd .reqUx s.table) older := by
    obtain ⟨obs, text, -, rfl⟩ := h.older
    refine (careful_traced hreach hrun).register hb (State.peerAt_eq_some.mpr hc₀) hc₀ plain_uxSession
      (stored_insertTable P.db ans uxSession (isInt32_of_lt_maxfds (hb.range _ _ hc₀)) .reqUx s.table)
      (fun o ho => ?_) ⟨e.fd, .reqUx, ?_⟩
    · simp [ho]
    · simp [State.peerAt_eq_some.mpr hc₀]
  obtain ⟨row, hrow, hf⟩ := h.row hplain
  obtain ⟨hint, hl, hd, hreg⟩ := htraced m row hrow
  rw [atoi_printD hint] at hf
  subst hf
  refine ⟨fun c hc => hreg c (h.conn ▸ hc), fun hnone n hsent => ?_⟩
  -- no socket is open on the descriptor
  have hno : s.isSocket row.fd = false := by
    have hp : ∀ c, s.fds row.fd ≠ some (.peer c) := fun c hc => by
      have := h.conn.symm.trans hnone
      rw [State.peerAt_eq_some.mpr hc] at this
      cases this
    have h₁ : s.fds row.fd ≠ some .database := fun e => hd (((hb.own _).2.2).mp e)
    have h₂ : s.fds row.fd ≠ some .listener := fun e => hl (((hb.own _).1).mp e)
    rw [State.isSocket]
    split
    · rename_i c hc; exact absurd hc (hp c)
    · rename_i hc; exact absurd hc h₁
    · rename_i hc; exact absurd hc h₂
    · rfl
  rw [h.answer hno] at hsent
  cases hsent

/-- The state in which a run ends, with the row of the agent on descriptor 6. -/
def before : State :=
  (server Flat.params).exec (Flat.start .empty) (Flat.connect 6 ++ Flat.speaks 6 0 (Flat.hello "m"))

/-- The agent connects again to the next run, on another descriptor, and gets
a command. -/
def reconnected : State :=
  (carefulServer Flat.params).exec (Flat.start before.table)
    (Flat.connect 7 ++ Flat.speaks 7 0 (Flat.hello "m") ++ Flat.connect 8 ++
      Flat.one 8 (some 1) (Flat.answers (Flat.download "m") 9 10 (.sent 99)))

/-- The next run, from the rows left by the first. -/
def nextRun : Machine State Action :=
  (server Flat.params).restrict (fun s => s.table = before.table) (fun _ _ => True)

instance (s : State) (a : Action) : Decidable (nextRun.admits s a) :=
  inferInstanceAs (Decidable (((server Flat.params).restrict _ (fun _ _ => True)).admits s a))

/-- In the next run another client gets descriptor 6, and the command for the
agent. -/
def stolen : State :=
  nextRun.exec (Flat.start before.table)
    (Flat.connect 6 ++ Flat.connect 7 ++ Flat.one 7 (some 1) (Flat.answers (Flat.download "m") 8 9 (.sent 99)))

end CmdAgent
