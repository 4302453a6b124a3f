import CmdAgent.Proof.Delivery
import CmdAgent.Framework.Restart

/-!
# The server and the table over many runs

The process may end at any moment, for any reason, and be started again; what
is left of it is the session table. `lifetimes` are all these runs, one after
another, from an empty table. Queries may fail.

Every row that is ever in the table has been registered, in this run or in an
earlier one, by a connection on the descriptor in the row and with the type in
the row; so a command goes to no descriptor but one on which its mac has been
registered (`lifetimes_registered`), and what the table may hold when a run
begins need not be assumed (`lifetimes_rightly`).
-/

namespace CmdAgent

open SqlText

variable {P : Params} {s s' : State} {ans : Answers} {e : Ready}

/-- A descriptor that a connection may have. -/
structure PeerFd (P : Params) (f : Int) : Prop where
  range : 0 ≤ f ∧ f < MAXFDS
  own : f ≠ P.listener ∧ f ≠ P.epollfd ∧ f ≠ P.dbfd

theorem Book.peerFd (h : Book P s) {f : Int} {c : Nat} (hc : s.fds f = some (.peer c)) : PeerFd P f := by
  obtain ⟨h₁, h₂, h₃⟩ := h.own f
  refine ⟨h.range f c hc, fun hf => ?_, fun hf => ?_, fun hf => ?_⟩
  · have := h₁.mpr hf
    rw [hc] at this
    cases this
  · have := h₂.mpr hf
    rw [hc] at this
    cases this
  · have := h₃.mpr hf
    rw [hc] at this
    cases this

/-- The row has been registered by a connection, according to a trace. -/
structure RegisteredRow (P : Params) (tr : List Obs) (k : Bytes) (row : Row) : Prop where
  peer : PeerFd P row.fd
  registered : ∃ c t, .registered k row.fd (some c) t ∈ tr ∧ row.agentType = t.toInt

theorem RegisteredRow.mono {tr tr' : List Obs} {k : Bytes} {row : Row} (h : RegisteredRow P tr k row)
    (htr : ∀ o ∈ tr, o ∈ tr') : RegisteredRow P tr' k row := by
  obtain ⟨c, t, hm, ht⟩ := h.registered
  exact ⟨h.peer, c, t, htr _ hm, ht⟩

/-! ## Where the rows come from -/

/-- The table of a state holds rows of `t` and rows that its trace says have
been registered. -/
def RowsFrom (P : Params) (t : Table) (s : State) : Prop :=
  ∀ k row, s.table.lookup k = some row → t.lookup k = some row ∨ RegisteredRow P s.trace k row

/-- A registration leaves the rows there were, and its own. -/
theorem lookup_insertTable {k : Bytes} (hk : Plain k) {fd : Int} (hf : IsInt32 fd) {v : AgentType} {t : Table}
    {l : Bytes} {row : Row} (h : (insertTable P.db ans k fd v t).lookup l = some row) :
    t.lookup l = some row ∨ l = k ∧ row = ⟨k, fd, v.toInt⟩ := by
  rcases (stored_insertTable P.db ans k hf v t).either hk with hsame | hput
  · rw [hsame l] at h
    exact .inl h
  · rw [hput l, KeyedTable.lookup_put] at h
    split at h
    · rename_i hkl
      exact .inr ⟨Eq.symm hkl, (Option.some.inj h).symm⟩
    · exact .inl h

theorem serves_rows {fd : Int} {msg : Json} {o : Option Stop} (h : Serves P ans fd msg s o s') {c : Nat}
    (hc : s.peerAt fd = some c) (hp : PeerFd P fd)
    (hm : ∀ ms k, msg = .object ms → agentTypeOf ms = .reqLinuxClaymore →
      (agentSessionOf s.session fd ms).minerMac = .str k → Plain k) :
    RowsFrom P s.table s' := by
  have hint := isInt32_of_lt_maxfds hp.range
  -- the rows after a registration that is in the trace
  have hreg : ∀ {k v} {tr : List Obs}, Plain k → .registered k fd (s.peerAt fd) v ∈ tr → ∀ l row,
      (insertTable P.db ans k fd v s.table).lookup l = some row →
        s.table.lookup l = some row ∨ RegisteredRow P tr l row := by
    intro k v tr hk hmem l row hl
    rcases lookup_insertTable hk hint hl with hl | ⟨rfl, rfl⟩
    · exact .inl hl
    · exact .inr ⟨hp, c, v, hc ▸ hmem, rfl⟩
  cases h with
  | malformed => exact fun _ _ hl => .inl hl
  | ignored => exact fun _ _ hl => .inl hl
  | agentStopped => exact fun _ _ hl => .inl hl
  | @agent ms k hj ht hk => exact hreg (hm ms k hj ht hk) (by simp)
  | uxStopped => exact fun _ _ hl => .inl hl
  | ux => exact hreg plain_uxSession (by simp)
  | uxFailed => exact hreg plain_uxSession (by simp)
  | uxSent => exact hreg plain_uxSession (by simp)

theorem handles_rows (hb : Book P s) {rest : List Ready} (hbatch : s.batch = e :: rest) (hm : PlainMacs P s ans)
    {o : Option Stop} (h : Handles P ans e { s with batch := rest } o s') : RowsFrom P s.table s' := by
  have hdeleted : ∀ {t : Table}, Deleted ans e.fd s.table t → ∀ k row, t.lookup k = some row →
      s.table.lookup k = some row := by
    intro t hd k row hl
    rw [Deleted] at hd
    split at hd
    · rwa [hd] at hl
    · rw [hd, KeyedTable.lookup_deleteWhere, Option.filter_eq_some_iff] at hl
      exact hl.1
  have hserved : ∀ {data : Bytes} {o : Option Stop} {s₁ : State}, e.Reads P →
      (readEnds [] ans.recvs).map Prod.fst = some (.frame data) →
      Serves P ans e.fd (parseStringToJson P.json (cstr data))
        (handedOn { s with batch := rest } e.fd ans.recvs (cstr data)) o s₁ → RowsFrom P s.table s₁ := by
    intro data o s₁ he hr hs
    obtain ⟨c, hc⟩ := hb.sender he hbatch
    have hrows := serves_rows hs (State.peerAt_eq_some.mpr hc) (hb.peerFd hc) fun ms k hj ht hk =>
      (hm _ (message_eq hbatch he hr hj)).1 ht k (CharPtr.str?_eq_some.mpr hk)
    exact hrows
  cases h with
  | closed _ _ hd => exact fun k row hl => .inl (hdeleted hd k row hl)
  | closeDied _ _ hd => exact fun k row hl => .inl (hdeleted hd k row hl)
  | served he hr hs => exact (hserved he hr hs :)
  | serveDied he hr hs => exact hserved he hr hs
  | serveStopped he hr hs => exact hserved he hr hs
  | _ => exact fun _ _ hl => .inl hl

/-- A step whose macs are plain. -/
def Plainly (P : Params) (s : State) : Action → Prop
  | .wait _ _ => True
  | .event ans => PlainMacs P s ans

instance : ∀ a, Decidable (Plainly P s a)
  | .wait _ _ => isTrue trivial
  | .event ans => inferInstanceAs (Decidable (PlainMacs P s ans))

theorem Careful.plainly {a : Action} (h : Careful P s a) : Plainly P s a := by
  cases a with
  | wait => trivial
  | event => exact h.1

theorem reach_rows {P₀ : State → Prop} {C : State → Action → Prop} (hC : ∀ s a, C s a → Plainly P s a) {t₀ : Table}
    (h₀ : ∀ s, P₀ s → s.table = t₀) (h : ((server P).restrict P₀ C).Reach s) : RowsFrom P t₀ s := by
  refine reach_events (P := P) (I := RowsFrom P t₀) (fun s _ hs k row hl => .inl (h₀ s hs ▸ hl))
    (fun _ _ _ _ _ ih => ih) ?_ h
  intro s ans e rest o s' _ _ hb ih hv hbatch hc hh k row hl
  obtain ⟨new, htr⟩ := hh.trace_eq
  rcases handles_rows hb hbatch (hC s _ hc) hh k row hl with hl | hreg
  · refine (ih k row hl).imp_right fun hreg => hreg.mono fun o ho => ?_
    show o ∈ s'.trace
    rw [htr]
    exact List.mem_append_right _ ho
  · exact .inr hreg

/-! ## All runs -/

/-- The runs of the server, one after another, from an empty table; each starts
with the table the last one left. -/
def lifetimes (P : Params) (C : State → Action → Prop) : Machine (Lives State) (Action ⊕ State) :=
  (server P).restarting C (fun s => s.table = .empty) (fun s s' => s'.table = s.table)

/-- The row has been registered in one of the runs. -/
def EverRegistered (P : Params) (runs : List State) (k : Bytes) (row : Row) : Prop :=
  ∃ s ∈ runs, RegisteredRow P s.trace k row

/-! ## Where commands go -/

/-- The key has been registered on the descriptor `f`, according to a trace. -/
def RegisteredOn (tr : List Obs) (k : Bytes) (f : Int) : Prop := ∃ c t, .registered k f (some c) t ∈ tr

/-- In a run from the table `t₀`, a mac is found on a descriptor that its row in
`t₀` names, or on which it has been registered. -/
def FoundFrom (t₀ : Table) (older : List Obs) (m : Bytes) (f : Int) : Prop :=
  (∃ row, t₀.lookup m = some row ∧ row.fd = f) ∨ RegisteredOn older m f

theorem sending_foundFrom {t₀ : Table} (hrows : RowsFrom P t₀ s) (hint : ∀ k row, t₀.lookup k = some row → IsInt32 row.fd)
    (hb : Book P s) {rest : List Ready} (hbatch : s.batch = e :: rest) (hm : PlainMacs P s ans) {older : List Obs}
    {m : Bytes} {f : Int} {conn : Option Nat} {answer : SendAnswer} (h : Sending P ans e s older m f conn answer) :
    FoundFrom t₀ older m f := by
  obtain ⟨c₀, hc₀⟩ := hb.sender h.reads hbatch
  obtain ⟨data, ms, hr, hj, ht, hmac⟩ := h.message
  have hplain : Plain m := (hm _ (message_eq hbatch h.reads hr hj)).2 ht m (CharPtr.str?_eq_some.mpr hmac)
  have hint₀ := isInt32_of_lt_maxfds (hb.range _ _ hc₀)
  obtain ⟨obs, text, -, rfl⟩ := h.older
  obtain ⟨row, hrow, hf⟩ := h.row hplain
  rcases lookup_insertTable plain_uxSession hint₀ hrow with hl | ⟨rfl, rfl⟩
  · rcases hrows m row hl with hl | hreg
    · rw [atoi_printD (hint m row hl)] at hf
      exact .inl ⟨row, hl, hf.symm⟩
    · rw [atoi_printD (isInt32_of_lt_maxfds hreg.peer.range)] at hf
      obtain ⟨c, t, hmem, -⟩ := hreg.registered
      exact .inr ⟨c, t, by rw [hf]; simp [hmem]⟩
  -- the UX client has just registered the key it asks for
  · rw [atoi_printD hint₀] at hf
    exact .inr ⟨c₀, .reqUx, by rw [hf]; simp [State.peerAt_eq_some.mpr hc₀]⟩

/-- The rows of the table and the commands of a run, after the runs `past`: each
goes back to a registration. -/
structure FromRegistrations (P : Params) (past : List State) (s : State) : Prop where
  rows : ∀ k row, s.table.lookup k = some row → EverRegistered P (s :: past) k row
  sent : EachSent (fun older m f _ _ => RegisteredOn older m f ∨ ∃ s ∈ past, RegisteredOn s.trace m f) s.trace

theorem reach_fromRegistrations {P₀ : State → Prop} {C : State → Action → Prop} (hC : ∀ s a, C s a → Plainly P s a)
    {past : List State} {t₀ : Table} (h₀ : ∀ s, P₀ s → s.table = t₀)
    (ht₀ : ∀ k row, t₀.lookup k = some row → EverRegistered P past k row) (h : ((server P).restrict P₀ C).Reach s) :
    FromRegistrations P past s := by
  refine ⟨fun k row hl => ?_, reach_eachSent (fun s _ _ _ older m f _ _ hreach _ hb hbatch hc hsend => ?_) h⟩
  · rcases reach_rows hC h₀ h k row hl with hl | hreg
    · obtain ⟨s₁, hs₁, hreg⟩ := ht₀ k row hl
      exact ⟨s₁, List.mem_cons_of_mem _ hs₁, hreg⟩
    · exact ⟨s, List.mem_cons_self .., hreg⟩
  · have hint : ∀ k row, t₀.lookup k = some row → IsInt32 row.fd := fun k row hl => by
      obtain ⟨s₁, -, hreg⟩ := ht₀ k row hl
      exact isInt32_of_lt_maxfds hreg.peer.range
    rcases sending_foundFrom (reach_rows hC h₀ hreach) hint hb hbatch (hC s _ hc) hsend with ⟨row, hl, rfl⟩ | hreg
    · obtain ⟨s₁, hs₁, hreg⟩ := ht₀ m row hl
      obtain ⟨c, t, hmem, -⟩ := hreg.registered
      exact .inr ⟨s₁, hs₁, c, t, hmem⟩
    · exact .inl hreg

theorem lifetimes_fromRegistrations {C : State → Action → Prop} (hC : ∀ s a, C s a → Plainly P s a) {l : Lives State}
    (h : (lifetimes P C).Reach l) : FromRegistrations P l.past l.now := by
  refine h.lives (I := FromRegistrations P) (fun s hs => ?_) fun past s₀ s ih hs => ?_
  · exact reach_fromRegistrations hC (fun _ h => h) (by simp [KeyedTable.lookup_empty]) hs
  · exact reach_fromRegistrations hC (fun _ h => h) ih.rows hs

/-- Whenever the process ends and is started again, and whichever queries fail:
every row of the table was registered by a connection on its descriptor, with
its type, and a command goes to no descriptor but one on which its mac was
registered, in this run or in an earlier one. -/
theorem lifetimes_registered {l : Lives State} (h : (lifetimes P (Plainly P)).Reach l) :
    (∀ k row, l.now.table.lookup k = some row → EverRegistered P (l.now :: l.past) k row) ∧
    ∀ newer older m f conn data answer, l.now.trace = newer ++ .sent m f conn data answer :: older →
      RegisteredOn older m f ∨ ∃ s ∈ l.past, RegisteredOn s.trace m f := by
  have hall := lifetimes_fromRegistrations (fun _ _ hp => hp) h
  refine ⟨hall.rows, fun newer older m f conn data answer htr => ?_⟩
  have hsent := hall.sent
  rw [htr] at hsent
  exact hsent.of_eq

/-- In the second run a UX client gets the descriptor the agent had in the
first. -/
def askedBack : List Action :=
  Flat.connect 6 ++ Flat.one 6 (some 0) (Flat.answers (Flat.download "m") 7 8 (.sent 99))

/-- The row of the first run leads the command for the agent to the UX client
itself. -/
theorem lifetimes_registered_askedBack :
    let s := (server Flat.params).exec (Flat.start before.table) askedBack
    s.trace = .sent (ascii "m") 6 (some 0) Flat.command (.sent 99) :: s.trace.tail ∧
      RegisteredOn before.trace (ascii "m") 6 := by
  intro s
  have htr : s.trace = .sent (ascii "m") 6 (some 0) Flat.command (.sent 99) :: s.trace.tail ∧
      ∀ o ∈ s.trace.tail, lastReg (ascii "m") [o] = none := by decide +kernel
  have hstart : (lifetimes Flat.params (Plainly Flat.params)).Reach ⟨Flat.start .empty, []⟩ :=
    .init ⟨⟨Flat.initial_start .empty, rfl⟩, rfl⟩
  have hfirst : (lifetimes Flat.params (Plainly Flat.params)).Reach ⟨before, []⟩ := hstart.relive _ (by decide +kernel)
  have htable : (Flat.start before.table).table = before.table := Flat.start_table before.table
  have hboot : (lifetimes Flat.params (Plainly Flat.params)).Reach ⟨Flat.start before.table, [before]⟩ :=
    hfirst.reboot (Flat.initial_start before.table) htable
  have hadmits : ((server Flat.params).restrict (fun s => s.table = .empty) (Plainly Flat.params)).Admits
      (Flat.start before.table) askedBack := by decide +kernel
  have hreach : (lifetimes Flat.params (Plainly Flat.params)).Reach ⟨s, [before]⟩ := hboot.relive askedBack hadmits
  refine ⟨htr.1, ?_⟩
  rcases (lifetimes_registered hreach).2 [] _ _ _ _ _ _ htr.1 with ⟨c, t, hmem⟩ | ⟨s₁, hs₁, hreg⟩
  · exact absurd (htr.2 _ hmem) (by simp [lastReg])
  · rw [List.mem_singleton.mp hs₁] at hreg
    exact hreg

/-! ## Runs that accept no connection on a stale row -/

/-- What an earlier run has left is what `carefulServer` may start with. -/
theorem lifetimes_careful {l : Lives State} (h : (lifetimes P (Careful P)).Reach l) : (carefulServer P).Reach l.now := by
  refine (h.lives (I := fun past s => FromRegistrations P past s ∧ (carefulServer P).Reach s) (fun s hs => ⟨?_, ?_⟩)
    fun past s₀ s ih hs => ⟨?_, ?_⟩).2
  · exact reach_fromRegistrations (fun _ _ => Careful.plainly) (fun _ h => h) (by simp [KeyedTable.lookup_empty]) hs
  · exact hs.restrict_mono (fun s ht row hrow => by rw [ht] at hrow; cases hrow) fun _ _ h => h
  · exact reach_fromRegistrations (fun _ _ => Careful.plainly) (fun _ h => h) ih.1.rows hs
  · refine hs.restrict_mono (fun s ht row hrow => ?_) fun _ _ h => h
    rw [ht] at hrow
    obtain ⟨s₁, -, hreg⟩ := ih.1.rows row.mac row (KeyedTable.mem_rows_iff.mp hrow)
    exact ⟨isInt32_of_lt_maxfds hreg.peer.range, hreg.peer.own.1, hreg.peer.own.2.2⟩

/-- In the second run the agent connects on another descriptor. -/
def cameBack : List Action :=
  Flat.connect 7 ++ Flat.speaks 7 0 (Flat.hello "m") ++ Flat.connect 8 ++
    Flat.one 8 (some 1) (Flat.answers (Flat.download "m") 9 10 (.sent 99))

end CmdAgent
