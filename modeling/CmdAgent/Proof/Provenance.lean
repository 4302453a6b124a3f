import CmdAgent.Proof.Record
import CmdAgent.Proof.Framing
import CmdAgent.Proof.Leakage

/-!
# Where everything comes from

Every entry of the trace has its cause right before it. A string handed to the
parser is what the same call of `socket_read` received; a registration, a
lookup and a command come from a message handed over just before, of the type
and for the mac that it says, if it says one; every query is one of four texts,
each at its place; and a connection is closed at the end of its stream, after
its rows have been deleted (`provenance`).

The commands are C strings. No NUL is ever sent, so a peer that takes the
stream apart as this server does never gets a message out of it
(`commands_unframed`).
-/

namespace CmdAgent

variable {P : Params} {s : State} {ans : Answers} {e : Ready}

/-- The last thing before the queries and debug output was the message `ms`, of
the connection `conn` on `f`, registering under `k`. -/
def AfterMessage (P : Params) (past : List Obs) (f : Int) (conn : Option Nat) (ms : List Member) (k : Bytes)
    (t : AgentType) : Prop :=
  ∃ quiet text older, past = quiet ++ .registered k f conn t :: .handed f conn text :: older ∧
    (∀ o ∈ quiet, o.Quiet) ∧ parseStringToJson P.json text = .object ms ∧ agentTypeOf ms = t

/-- What causes a query. -/
inductive QueryCause (P : Params) (past : List Obs) : Bytes → Prop where
  | insert {k : Bytes} {f : Int} {conn : Option Nat} {t : AgentType} {older : List Obs} :
    past = .registered k f conn t :: older → QueryCause P past (insertText k f t)
  | update {k : Bytes} {f : Int} {conn : Option Nat} {t : AgentType} {older : List Obs} :
    past = .query (insertText k f t) :: .registered k f conn t :: older → QueryCause P past (updateText k f t)
  | select {m : Bytes} {f : Int} {conn : Option Nat} {ms : List Member} :
    AfterMessage P past f conn ms uxSession .reqUx → (∀ m' ∈ macOf ms, m = m') → QueryCause P past (selectFdText m)
  | delete {f : Int} {conn : Option Nat} {recvs : List Recv} {older : List Obs} :
    past = .received f conn recvs :: older → (readEnds [] recvs).map Prod.fst = some .eof →
    QueryCause P past (deleteFdText f)

/-- What is right before an entry of the trace. -/
def Caused (P : Params) (past : List Obs) : Obs → Prop
  | .handed f conn text =>
    ∃ recvs older data, past = .received f conn recvs :: older ∧
      (readEnds [] recvs).map Prod.fst = some (.frame data) ∧ text = cstr data
  | .registered k f conn t =>
    ∃ text older ms, past = .handed f conn text :: older ∧ parseStringToJson P.json text = .object ms ∧
      agentTypeOf ms = t ∧ (k = uxSession ∧ t = .reqUx ∨ t = .reqLinuxClaymore ∧ ∀ m ∈ macOf ms, k = m)
  | .query text => QueryCause P past text
  | .sent m _ _ _ _ =>
    ∃ older f₀ conn₀ ms, past = .query (selectFdText m) :: older ∧
      AfterMessage P older f₀ conn₀ ms uxSession .reqUx ∧ ∀ m' ∈ macOf ms, m = m'
  | .closed f conn =>
    ∃ quiet recvs older, past = quiet ++ .query (deleteFdText f) :: .received f conn recvs :: older ∧
      (∀ o ∈ quiet, o.Quiet) ∧ (readEnds [] recvs).map Prod.fst = some .eof
  | .readySend _ | .offered _ _ _ => False
  | .accepted _ _ | .received _ _ _ | .debug _ => True

theorem LooksUp.mac_eq {text : Bytes} {ms : List Member} {m : Bytes} (h : LooksUp P s ans e text ms m) :
    ∀ m' ∈ macOf ms, m = m' := fun _ hm' =>
  CharPtr.str.inj (h.mac.symm.trans (uxSessionOf_minerMac hm' s.session))

theorem LooksUp.afterMessage {text : Bytes} {ms : List Member} {m : Bytes} (h : LooksUp P s ans e text ms m) :
    AfterMessage P (lookupTrace P s ans e text) e.fd (s.peerAt e.fd) ms uxSession .reqUx :=
  ⟨_, text, _, rfl, quiet_insertObs _ _ _ _ _ _, h.registering.parses, h.registering.type⟩

/-- Wherever a step records something, its cause is right before it. -/
theorem Emits.caused {past : List Obs} {o : Obs} (h : Emits P s ans e past o) : Caused P past o := by
  cases h with
  | deleteFd he hr => exact .delete rfl hr
  | closed he hr hobs => exact ⟨_, _, _, rfl, hobs, hr⟩
  | handed he hr => exact ⟨_, _, _, rfl, hr, rfl⟩
  | registered h =>
    refine ⟨_, _, _, rfl, h.parses, h.type, h.key.imp id fun hk => ⟨hk.2, fun m hm => ?_⟩⟩
    exact CharPtr.str.inj (hk.1.symm.trans (minerMac_of_macOf s.session e.fd hm))
  | insert => exact .insert rfl
  | update => exact .update rfl
  | select h => exact .select h.afterMessage h.mac_eq
  | sent h => exact ⟨_, _, _, _, rfl, h.looksUp.afterMessage, h.looksUp.mac_eq⟩
  | _ => trivial

/-- Every entry of the trace of a run has its cause right before it. -/
theorem provenance (h : (server P).Reach s) {newer past : List Obs} {o : Obs} (htr : s.trace = newer ++ o :: past) :
    Caused P past o := by
  have hall : Each (Caused P) s.trace :=
    reach_each (P := P) (fun _ _ _ _ _ _ _ _ _ _ _ _ hem => hem.caused) h.to_restrict
  rw [htr] at hall
  exact hall.of_eq

/-- The command of `delivered` comes from the message of the UX client. -/
theorem provenance_delivered :
    ∃ older f₀ conn₀ ms, delivered.trace.tail = .query (selectFdText (ascii "m")) :: older ∧
      AfterMessage Flat.params older f₀ conn₀ ms uxSession .reqUx ∧ ∀ m' ∈ macOf ms, ascii "m" = m' := by
  have htr : delivered.trace = [] ++ .sent (ascii "m") 6 (some 0) Flat.command (.sent 99) :: delivered.trace.tail := by
    decide +kernel
  exact provenance reach_delivered.of_restrict htr

/-! ## The stream of an agent -/

/-- The bytes that `send` has taken for a connection, oldest first. -/
def takenBy (c : Nat) : List Obs → Bytes
  | [] => []
  | .sent _ _ (some c') data (.sent n) :: tr => if c = c' then takenBy c tr ++ data.take n else takenBy c tr
  | _ :: tr => takenBy c tr

/-- No command has a NUL in it. -/
def NulFree (_past : List Obs) : Obs → Prop
  | .sent _ _ _ data _ => (0 : Byte) ∉ data
  | _ => True

theorem reach_nulFree (h : (server P).Reach s) : Each NulFree s.trace := by
  refine reach_each (P := P) (fun s ans e rest past o _ _ _ _ _ _ hem => ?_) h.to_restrict
  cases hem with
  | sent h =>
    obtain ⟨p, file, pi, -, -, -, rfl⟩ := h.command
    exact nul_not_mem_cstr _
  | _ => trivial

theorem nul_not_mem_takenBy {tr : List Obs} (h : Each NulFree tr) (c : Nat) : (0 : Byte) ∉ takenBy c tr := by
  fun_induction takenBy c tr with
  | case1 => exact List.not_mem_nil
  | case2 m f data n tr ih =>
    rw [List.mem_append, not_or]
    exact ⟨ih h.2, fun hm => h.1 (List.mem_of_mem_take hm)⟩
  | case3 _ _ _ _ _ _ _ ih => exact ih h.2
  | case4 o tr _ ih => exact ih h.2

/-- Nothing is handed over of a stream without NULs, unless a stray NUL follows
the buffer. -/
theorem handoffs_of_nul_free {acc : Bytes} {rs : List Recv} (hacc : (0 : Byte) ∉ acc)
    (hrs : (0 : Byte) ∉ streamOf rs) (hstray : ∀ chunk stray, .data chunk stray ∈ rs → stray ≠ 0) :
    handoffs acc rs = [] := by
  have hrest : ∀ {r : Recv} {rest}, (∀ chunk stray, .data chunk stray ∈ r :: rest → stray ≠ 0) →
      ∀ chunk stray, .data chunk stray ∈ rest → stray ≠ 0 := fun h chunk stray hm =>
    h chunk stray (List.mem_cons_of_mem _ hm)
  induction rs generalizing acc with
  | nil => rfl
  | cons r rest ih =>
    cases r with
    | data chunk stray =>
      rw [streamOf, List.mem_append, not_or] at hrs
      have hnul : (0 : Byte) ∉ acc ++ chunk := by
        rw [List.mem_append, not_or]; exact ⟨hacc, hrs.1⟩
      rw [handoffs]
      split
      · rfl
      · rw [if_neg, ih hnul hrs.2 (hrest hstray)]
        rintro (hlast | hzero)
        · exact hnul (List.mem_of_getLast? hlast)
        · exact hstray chunk stray (List.mem_cons_self ..) hzero
    | eof => exact ih List.not_mem_nil hrs (hrest hstray)
    | wouldBlock => exact ih List.not_mem_nil hrs (hrest hstray)
    | failed => exact ih List.not_mem_nil hrs (hrest hstray)

/-- No NUL is ever sent to a connection. A peer that takes the stream apart as
`socket_read` does gets no message out of it, however the stream is cut into
pieces, unless it finds a NUL past its own buffer. -/
theorem commands_unframed (h : (server P).Reach s) (c : Nat) (rs : List Recv)
    (hrs : streamOf rs <+: takenBy c s.trace) (hstray : ∀ chunk stray, .data chunk stray ∈ rs → stray ≠ 0) :
    (0 : Byte) ∉ takenBy c s.trace ∧ handoffs [] rs = [] := by
  have hnul := nul_not_mem_takenBy (reach_nulFree h) c
  exact ⟨hnul, handoffs_of_nul_free List.not_mem_nil (fun hm => hnul (hrs.subset hm)) hstray⟩

/-- The agent of `delivered` reads its command. -/
theorem commands_unframed_delivered :
    takenBy 0 delivered.trace = Flat.command.take 99 ∧ handoffs [] [.data (Flat.command.take 99) 1] = [] := by
  have htaken : takenBy 0 delivered.trace = Flat.command.take 99 := by decide +kernel
  refine ⟨htaken, (commands_unframed reach_delivered.of_restrict 0 [.data (Flat.command.take 99) 1] ?_ ?_).2⟩
  · rw [htaken, streamOf, streamOf, List.append_nil]
  · simp

end CmdAgent
