import CmdAgent.Proof.Registrations

/-!
# What the session table says

In a run without failures the table holds, for each key, the row of the
connection that registered it last, if this connection is still open, and no
other row (`session_table`): looking a key up finds the connection.

Looking a descriptor up is another matter: its connection may have lost all
its keys to others, or hold keys it registered with another type. What
`mysql_select_session` needs is in `session_type`.
-/

namespace CmdAgent

open SqlText

variable {P : Params} {s s' : State}

theorem Book.finds_iff (hb : Book P s) {k : Bytes} {f : Int} {t : AgentType} :
    hb.registry.Finds k f t ↔ ∃ c, lastReg k s.trace = some (c, t) ∧ s.fds f = some (.peer c) := by
  simp only [Registry.Finds, Book.registry, State.peerAt_eq_some]

/-! ## By key -/

/-- What looking a key up gives, in a state whose table agrees with the
registrations. -/
theorem found_eq (hb : Book P s) (ht : Refines s.table hb.registry) {k : Bytes} (hk : Plain k) {ans : Answers}
    (ha : ans.select = .answered) (f : Int) :
    found P.db ans k s.table = f ∧ 0 ≤ f ↔
      ∃ c t, lastReg k s.trace = some (c, t) ∧ s.fds f = some (.peer c) := by
  have hfound := (firstRow_selectFd P.db hk.verbatim ans.select s.table).1 ha
  rw [found, hfound]
  constructor
  · rintro ⟨hf, h₀⟩
    rcases hl : s.table.lookup k with _ | row
    · rw [hl] at hf; subst hf; exact absurd h₀ (by decide)
    · obtain ⟨g, t, rfl, hfind⟩ := (ht k row).mp hl
      obtain ⟨c, hlast, hc⟩ := hb.finds_iff.mp hfind
      rw [hl] at hf
      dsimp only at hf
      rw [atoi_printD (isInt32_of_lt_maxfds (hb.range g c hc))] at hf
      exact ⟨c, t, hlast, hf ▸ hc⟩
  · rintro ⟨c, t, hlast, hc⟩
    rw [(ht k ⟨k, f, t.toInt⟩).mpr ⟨f, t, rfl, hb.finds_iff.mpr ⟨c, hlast, hc⟩⟩]
    exact ⟨atoi_printD (isInt32_of_lt_maxfds (hb.range f c hc)), (hb.range f c hc).1⟩

/-- The table holds exactly one row for a key if the connection whose message
registered it last is open, with its descriptor and the type of the message,
and none otherwise; so `mysql_select_fd` finds the descriptor of this
connection. -/
theorem session_table (h : (cleanServer P).Reach s) (hrun : s.stopped = none) (k : Bytes) :
    (∀ c t f, lastRegistrant P.json k s.trace = some (c, t) → s.fds f = some (.peer c) →
      s.table.rowsFor k = [⟨k, f, t.toInt⟩]) ∧
    ((∀ c t f, lastRegistrant P.json k s.trace = some (c, t) → s.fds f ≠ some (.peer c)) →
      s.table.rowsFor k = []) ∧
    (Plain k → (selectFdText k).length + 1 ≤ QUERY_LEN → ∀ ans : Answers, ans.select = .answered →
      ∃ ret, returned (mysqlSelectFd P.db ans (.str k)) s = some ret ∧
        ∀ f, ret = f ∧ 0 ≤ f ↔ ∃ c t, lastRegistrant P.json k s.trace = some (c, t) ∧ s.fds f = some (.peer c)) := by
  have hb := reach_book h.of_restrict hrun
  obtain ⟨ht, -⟩ := clean_refines h hrun hb
  rw [← (clean_told h hrun).lastReg_eq k]
  refine ⟨fun c t f hlast hc => ?_, fun hno => ?_, fun hk hfit ans ha => ?_⟩
  · rw [KeyedTable.rowsFor_eq, (ht k ⟨k, f, t.toInt⟩).mpr ⟨f, t, rfl, hb.finds_iff.mpr ⟨c, hlast, hc⟩⟩]
    rfl
  · rw [KeyedTable.rowsFor_eq, Option.toList_eq_nil_iff, Option.eq_none_iff_forall_ne_some]
    intro row hl
    obtain ⟨f, t, -, hfind⟩ := (ht k row).mp hl
    obtain ⟨c, hlast, hc⟩ := hb.finds_iff.mp hfind
    exact hno c t f hlast hc
  · exact ⟨_, returned_of_run (mysqlSelectFd_run P.db ans s hfit), found_eq hb ht hk ha⟩

/-- An agent registers its mac and is replaced, on the same descriptor, by
another one, while a UX client is connected. -/
def replaced : List Action :=
  Flat.connect 6 ++ Flat.speaks 6 0 (Flat.hello "m") ++ Flat.connect 7 ++ Flat.speaks 7 1 (Flat.download "n") ++
    Flat.leaves 6 0 ++ Flat.connect 6 ++ Flat.speaks 6 2 (Flat.hello "n")

/-- The rows of the second agent and of the UX client after `replaced`. -/
theorem session_table_replaced :
    let s := (cleanServer Flat.params).exec (Flat.start .empty) replaced
    s.stopped = none ∧ lastRegistrant Flat.params.json (ascii "n") s.trace = some (2, .reqLinuxClaymore) ∧
      s.table.rowsFor (ascii "n") = [⟨ascii "n", 6, 2⟩] ∧
      lastRegistrant Flat.params.json uxSession s.trace = some (1, .reqUx) ∧
      s.table.rowsFor uxSession = [⟨uxSession, 7, 1⟩] := by
  intro s
  have hs : s.stopped = none ∧
      lastRegistrant Flat.params.json (ascii "n") s.trace = some (2, .reqLinuxClaymore) ∧
      lastRegistrant Flat.params.json uxSession s.trace = some (1, .reqUx) ∧
      s.fds 6 = some (.peer 2) ∧ s.fds 7 = some (.peer 1) := by decide +kernel
  obtain ⟨hrun, hn, hux, h₆, h₇⟩ := hs
  have hreach : (cleanServer Flat.params).Reach s :=
    .exec (.init ⟨Flat.initial_start .empty, rfl⟩) (by decide +kernel)
  exact ⟨hrun, hn, (session_table hreach hrun (ascii "n")).1 2 .reqLinuxClaymore 6 hn h₆, hux,
    (session_table hreach hrun uxSession).1 1 .reqUx 7 hux h₇⟩

/-! ## By descriptor -/

/-- The rows of a descriptor are the keys its connection registered last. -/
theorem mem_rows_fd_iff (hb : Book P s) (ht : Refines s.table hb.registry) {f : Int} {c : Nat}
    (hc : s.fds f = some (.peer c)) (row : Row) :
    row ∈ s.table.rows ∧ row.fd = f ↔ ∃ t, lastReg row.mac s.trace = some (c, t) ∧ row = ⟨row.mac, f, t.toInt⟩ := by
  rw [KeyedTable.mem_rows_iff, ht]
  constructor
  · rintro ⟨⟨g, t, hrow, hfind⟩, hf⟩
    obtain ⟨d, hlast, hd⟩ := hb.finds_iff.mp hfind
    obtain rfl : g = f := by rw [← hf, hrow]
    rw [hc, Option.some.injEq, Resource.peer.injEq] at hd
    exact ⟨t, hd ▸ hlast, hrow⟩
  · rintro ⟨t, hlast, hrow⟩
    exact ⟨⟨f, t, hrow, hb.finds_iff.mpr ⟨c, hlast, hc⟩⟩, by rw [hrow]⟩

/-- What `mysql_select_session` returns: the type in the first of the rows. -/
theorem returned_selectSession (db : Database) {ans : Answers} (ha : ans.select = .answered) {f : Int}
    (hf : IsInt32 f) (s : State) :
    returned (mysqlSelectSession db ans f) s =
      some (firstRow (.done (some ((db.arrange (s.table.rows.filter (·.fd = f))).map (printD ·.agentType))))) := by
  have hfit : (selectSessionText f).length + 1 ≤ QUERY_LEN := by
    have := length_printD_le hf
    have h₁ : (ascii "select agent_type from cmd_agent_session where fd = '").length = 53 := rfl
    have h₂ : (ascii "'").length = 1 := rfl
    simp only [selectSessionText, List.length_append, h₁, h₂, QUERY_LEN]
    omega
  rw [mysqlSelectSession, returned, bind_run (sprintf_run hfit s), bind_run (mysqlQuery_run ..), ha,
    query_selectSession db hf]
  rfl

/-- The database that returns the rows with `p` first. -/
def Database.firstWith (db : Database) (p : Row → Bool) : Database :=
  { db with
    arrange := fun rows => rows.filter p ++ rows.filter fun row => !p row
    arrange_perm := fun rows => List.filter_append_perm p rows }

/-- If a type is returned in whatever order the rows come, there are rows, and
they all have this type. -/
theorem rows_of_selectSession {f : Int} (hf : IsInt32 f) {t : AgentType} (db : Database)
    (hint : ∀ row ∈ s.table.rows, row.fd = f → IsInt32 row.agentType)
    (h : returned (mysqlSelectSession (db.firstWith (·.agentType ≠ t.toInt)) {} f) s = some t.toInt) :
    (∃ row ∈ s.table.rows, row.fd = f) ∧ ∀ row ∈ s.table.rows, row.fd = f → row.agentType = t.toInt := by
  rw [returned_selectSession _ rfl hf, Option.some.injEq] at h
  simp only [Database.firstWith] at h
  rcases hother : (s.table.rows.filter (·.fd = f)).filter (·.agentType ≠ t.toInt) with _ | ⟨row, rest⟩
  · have hall : ∀ row ∈ s.table.rows, row.fd = f → row.agentType = t.toInt := fun row hr hrf => by
      simpa [hr, hrf] using List.filter_eq_nil_iff.mp hother row (List.mem_filter.mpr ⟨hr, by simpa using hrf⟩)
    refine ⟨?_, hall⟩
    by_contra hno
    have hnil : s.table.rows.filter (·.fd = f) = [] :=
      List.filter_eq_nil_iff.mpr fun row hr hrf => hno ⟨row, hr, by simpa using hrf⟩
    rw [hnil] at h
    exact absurd h (show ¬ (-5 : Int) = t.toInt by cases t <;> decide)
  · -- the first row has another type
    have hrow : row ∈ (s.table.rows.filter (·.fd = f)).filter (·.agentType ≠ t.toInt) := by
      rw [hother]; exact List.mem_cons_self ..
    simp only [List.mem_filter, decide_eq_true_eq] at hrow
    rw [hother, List.cons_append, List.map_cons, firstRow, atoi_printD (hint row hrow.1.1 hrow.1.2)] at h
    exact absurd h hrow.2

/-- `mysql_select_session` gives a type, in whatever order the database returns
the rows, if and only if the connection is still the last one to have
registered some key, and registered every such key with this type. -/
theorem selectSession_iff (h : (cleanServer P).Reach s) (hrun : s.stopped = none) {f : Int} {c : Nat}
    (hc : s.fds f = some (.peer c)) (t : AgentType) :
    (∀ (db : Database) (ans : Answers), ans.select = .answered →
      returned (mysqlSelectSession db ans f) s = some t.toInt) ↔
    (∃ k t', lastReg k s.trace = some (c, t')) ∧ ∀ k t', lastReg k s.trace = some (c, t') → t' = t := by
  have hb := reach_book h.of_restrict hrun
  obtain ⟨href, -⟩ := clean_refines h hrun hb
  have hint := isInt32_of_lt_maxfds (hb.range f c hc)
  have hrows := mem_rows_fd_iff hb href hc
  constructor
  · intro hsel
    have hint' : ∀ row ∈ s.table.rows, row.fd = f → IsInt32 row.agentType := fun row hr hrf => by
      obtain ⟨t', -, he⟩ := (hrows row).mp ⟨hr, hrf⟩
      rw [he]; exact t'.isInt32_toInt
    obtain ⟨⟨row, hr, hrf⟩, hall⟩ := rows_of_selectSession hint P.db hint' (hsel _ {} rfl)
    refine ⟨?_, fun k t' hlast => ?_⟩
    · obtain ⟨t', hlast, -⟩ := (hrows row).mp ⟨hr, hrf⟩
      exact ⟨row.mac, t', hlast⟩
    · obtain ⟨hr', hrf'⟩ := (hrows ⟨k, f, t'.toInt⟩).mpr ⟨t', hlast, rfl⟩
      exact AgentType.toInt_inj.mp (hall _ hr' hrf')
  · rintro ⟨⟨k, t', hlast⟩, hall⟩ db ans ha
    rw [returned_selectSession db ha hint, Option.some.injEq]
    have hmem : ∀ row, row ∈ db.arrange (s.table.rows.filter (·.fd = f)) ↔ row ∈ s.table.rows ∧ row.fd = f :=
      fun row => by rw [(db.arrange_perm _).mem_iff, List.mem_filter, decide_eq_true_iff]
    have hk := (hmem ⟨k, f, t'.toInt⟩).mpr ((hrows _).mpr ⟨t', hlast, rfl⟩)
    obtain ⟨row, rest, hcons⟩ := List.exists_cons_of_ne_nil (List.ne_nil_of_mem hk)
    obtain ⟨t'', hlast', he⟩ := (hrows row).mp ((hmem row).mp (by rw [hcons]; exact List.mem_cons_self ..))
    have hagent : row.agentType = t.toInt := by rw [he, hall _ _ hlast']
    rw [hcons, List.map_cons, firstRow, hagent, atoi_printD t.isInt32_toInt]

/-- `mysql_select_session` tells the type of an open connection's last message,
in whatever order the database returns the rows, if and only if the connection
is still the last one to have registered some key, and registered every such
key with this type. -/
theorem session_type (h : (cleanServer P).Reach s) (hrun : s.stopped = none) {f : Int} {c : Nat}
    (hc : s.fds f = some (.peer c)) :
    (∀ t, lastMessage P.json c s.trace = some t → ∀ (db : Database) (ans : Answers), ans.select = .answered →
      returned (mysqlSelectSession db ans f) s = some t.toInt) ↔
    ∀ t, lastMessage P.json c s.trace = some t →
      (∃ k t', lastRegistrant P.json k s.trace = some (c, t')) ∧
        ∀ k t', lastRegistrant P.json k s.trace = some (c, t') → t' = t := by
  have htold := clean_told h hrun
  simp only [← htold.lastReg_eq]
  exact forall_congr' fun t => imp_congr_right fun _ => selectSession_iff h hrun hc t

/-- Two UX clients are connected, and each has sent a message. -/
def twoUx : State :=
  (cleanServer Flat.params).exec (Flat.start .empty)
    (Flat.connect 6 ++ Flat.speaks 6 0 (Flat.download "m") ++ Flat.connect 7 ++
      Flat.speaks 7 1 (Flat.download "m"))

theorem reach_twoUx : (cleanServer Flat.params).Reach twoUx :=
  .exec (.init ⟨Flat.initial_start .empty, rfl⟩) (by decide +kernel)

theorem twoUx_state :
    twoUx.stopped = none ∧ (twoUx.fds 6 = some (.peer 0) ∧ twoUx.fds 7 = some (.peer 1)) ∧
      registrations Flat.params.json twoUx.trace = [(uxSession, 1, .reqUx), (uxSession, 0, .reqUx)] ∧
      returned (mysqlSelectSession Flat.db {} 6) twoUx = some (-5) := by decide +kernel

/-- The last of two UX clients is found by its descriptor. -/
theorem session_type_twoUx :
    lastMessage Flat.params.json 1 twoUx.trace = some .reqUx ∧
      ∀ (db : Database) (ans : Answers), ans.select = .answered →
        returned (mysqlSelectSession db ans 7) twoUx = some AgentType.reqUx.toInt := by
  obtain ⟨hrun, ⟨-, hc⟩, hreg, -⟩ := twoUx_state
  have ht : lastMessage Flat.params.json 1 twoUx.trace = some .reqUx := by
    rw [lastMessage, hreg]
    decide
  have hlast : lastRegistrant Flat.params.json uxSession twoUx.trace = some (1, .reqUx) := by
    rw [lastRegistrant, hreg]
    decide
  refine ⟨ht, (session_type reach_twoUx hrun hc).mpr (fun t ht' => ⟨⟨uxSession, .reqUx, hlast⟩, fun k t' hl => ?_⟩)
    .reqUx ht⟩
  obtain rfl := Option.some.inj (ht.symm.trans ht')
  obtain ⟨r, hr, heq⟩ := Option.map_eq_some_iff.mp hl
  have hmem := List.mem_of_find?_eq_some hr
  rw [hreg] at hmem
  simp only [List.mem_cons, List.not_mem_nil, or_false] at hmem
  rcases hmem with rfl | rfl <;> cases heq
  rfl

/-- The first of two UX clients is no longer found by its descriptor. -/
theorem session_type_lost :
    ¬ ∀ (P : Params) (s : State) (f : Int) (c : Nat) (t : AgentType), (cleanServer P).Reach s →
      s.stopped = none → s.fds f = some (.peer c) → lastMessage P.json c s.trace = some t →
      ∀ (db : Database) (ans : Answers), ans.select = .answered →
        returned (mysqlSelectSession db ans f) s = some t.toInt := by
  intro h
  obtain ⟨hrun, ⟨hc, -⟩, hreg, hsel⟩ := twoUx_state
  have ht : lastMessage Flat.params.json 0 twoUx.trace = some .reqUx := by
    rw [lastMessage, hreg]
    decide
  have hret := h Flat.params twoUx 6 0 .reqUx reach_twoUx hrun hc ht Flat.db {} rfl
  rw [hsel] at hret
  exact absurd hret (by decide)

end CmdAgent
