import CmdAgent.Proof.Lifecycle

/-!
# The rows of an earlier run

The session table outlives the process, and the next run starts with the rows
it finds. In a run without failures the table is at every moment what the
trace makes of these rows: a registration puts its row, a close deletes the
rows of its descriptor, and nothing else counts (`reach_tableOf`).

So a key that has been registered in this run is found where its last
registrant is connected, as if the run had begun with an empty table; a key
that has not keeps the row it had, for as long as no connection is closed on
the descriptor in that row (`inherited_rows`). A stale row is never corrected
by a connection that is merely accepted there.
-/

namespace CmdAgent

open SqlText

variable {P : Params} {s s' : State} {ans : Answers} {e : Ready}

/-- What a trace makes of a table. -/
def tableOf (t₀ : Table) : List Obs → Table
  | [] => t₀
  | .registered k f _ t :: tr => (tableOf t₀ tr).put ⟨k, f, t.toInt⟩
  | .closed f _ :: tr => (tableOf t₀ tr).deleteWhere (·.fd = f)
  | _ :: tr => tableOf t₀ tr

theorem tableOf_quiet {t₀ : Table} {obs : List Obs} (h : ∀ o ∈ obs, o.Quiet) (tr : List Obs) :
    tableOf t₀ (obs ++ tr) = tableOf t₀ tr := by
  induction obs with
  | nil => rfl
  | cons o obs ih =>
    have ho := h o (List.mem_cons_self ..)
    have ih := ih fun o' ho' => h o' (List.mem_cons_of_mem _ ho')
    cases o with
    | query => exact ih
    | debug => exact ih
    | _ => exact ho.elim

/-! ## The table of a run is the table of its trace -/

theorem SameRows.trans {t t' t'' : Table} (h : SameRows t t') (h' : SameRows t' t'') : SameRows t t'' := fun k =>
  (h' k).trans (h k)

theorem SameRows.put {t t' : Table} (h : SameRows t t') (row : Row) : SameRows (t.put row) (t'.put row) := fun k => by
  rw [KeyedTable.lookup_put, KeyedTable.lookup_put, h k]

theorem SameRows.deleteWhere {t t' : Table} (h : SameRows t t') (p : Row → Bool) :
    SameRows (t.deleteWhere p) (t'.deleteWhere p) := fun k => by
  rw [KeyedTable.lookup_deleteWhere, KeyedTable.lookup_deleteWhere, h k]

/-- A registration in a step without failures puts its row. -/
theorem sameRows_insertTable (hans : ans.Answered) {t t₁ : Table} (h : SameRows t t₁) {k : Bytes} (hk : Plain k) {fd : Int}
    (hf : IsInt32 fd) (v : AgentType) : SameRows (t.put ⟨k, fd, v.toInt⟩) (insertTable P.db ans k fd v t₁) :=
  (h.put _).trans ((stored_insertTable P.db ans k hf v t₁).stored hk (by rw [hans.insert]; decide)
    (by rw [hans.update]; decide))

theorem serves_tableOf {t₀ : Table} {fd : Int} {msg : Json} {o : Option Stop} (h : Serves P ans fd msg s o s')
    (hans : ans.Answered) (hf : IsInt32 fd)
    (hm : ∀ ms, msg = .object ms → agentTypeOf ms = .reqLinuxClaymore → ∃ k ∈ macOf ms, Plain k)
    (ht : SameRows (tableOf t₀ s.trace) s.table) : SameRows (tableOf t₀ s'.trace) s'.table := by
  have hux : ∀ {obs : List Obs} {conn : Option Nat}, (∀ o ∈ obs, o.Quiet) →
      SameRows (tableOf t₀ (obs ++ .registered uxSession fd conn .reqUx :: s.trace))
        (insertTable P.db ans uxSession fd .reqUx s.table) := fun hobs => by
    rw [tableOf_quiet hobs]
    exact sameRows_insertTable hans ht plain_uxSession hf .reqUx
  cases h with
  | malformed => exact ht
  | ignored => exact ht
  | agentStopped => exact ht
  | @agent ms k hj hty hk =>
    obtain ⟨k', hk', hp⟩ := hm ms hj hty
    rw [minerMac_of_macOf _ _ hk', CharPtr.str.injEq] at hk
    subst hk
    rw [tableOf_quiet (quiet_insertObs _ _ _ _ _ _)]
    exact sameRows_insertTable hans ht hp hf .reqLinuxClaymore
  | uxStopped => exact ht
  | ux _ _ hobs => exact hux hobs
  | uxFailed _ _ hobs => exact hux hobs
  | uxSent _ _ _ _ hobs hobs' =>
    rw [tableOf_quiet hobs']
    exact hux hobs

theorem handles_tableOf {t₀ : Table} (hb : Book P s) {rest : List Ready} (hbatch : s.batch = e :: rest)
    (hans : ans.Answered) (hm : AgentMacs P s ans) (ht : SameRows (tableOf t₀ s.trace) s.table)
    (hh : Handles P ans e { s with batch := rest } none s') : SameRows (tableOf t₀ s'.trace) s'.table := by
  cases hh with
  | idle => exact ht
  | accepted => exact ht
  | again => exact ht
  | @closed t obs he hr hd hobs =>
    rw [Deleted, if_neg (by rw [hans.delete]; decide)] at hd
    subst hd
    rw [tableOf, tableOf_quiet hobs]
    exact ht.deleteWhere _
  | @served data s₁ he hr hs hc =>
    obtain ⟨c, hconn⟩ := hb.sender he hbatch
    have htable := serves_tableOf hs hans (isInt32_of_lt_maxfds (hb.range _ _ hconn))
      (fun ms hj => hm _ (message_eq hbatch he hr hj)) ht
    exact htable

/-- The runs without failures from the table `t₀`. -/
def cleanFrom (P : Params) (t₀ : Table) : Machine State Action :=
  (server P).restrict (fun s => s.table = t₀) (Clean P)

instance (t₀ : Table) (a : Action) : Decidable ((cleanFrom P t₀).admits s a) :=
  inferInstanceAs (Decidable (((server P).restrict _ (Clean P)).admits s a))

theorem reach_tableOf {t₀ : Table} (h : (cleanFrom P t₀).Reach s) (hrun : s.stopped = none) :
    SameRows (tableOf t₀ s.trace) s.table := by
  revert hrun
  refine reach_events (P := P) (I := fun s => s.stopped = none → SameRows (tableOf t₀ s.trace) s.table)
    (fun s hi ht _ k => ?_) (fun _ _ _ hrun _ ih _ => ih hrun) ?_ h
  · rw [hi.trace, ht]; rfl
  · rintro s ans e rest o s' - hrun hb ih hv hbatch ⟨hans, hm⟩ hh rfl
    have htable := handles_tableOf hb hbatch hans hm (ih hrun) hh
    exact htable

/-! ## What a trace makes of a table -/

/-- The row of the key `k` after a trace: that of its last registrant, if it is
still connected; or, if nobody has registered the key, the row it had at
first, unless a connection has been closed on its descriptor. -/
def RowAfter (t₀ : Table) (tr : List Obs) (k : Bytes) (row : Row) : Prop :=
  (∃ c t f, lastReg k tr = some (c, t) ∧ openOn f tr = some c ∧ row = ⟨k, f, t.toInt⟩) ∨
    (lastReg k tr = none ∧ t₀.lookup k = some row ∧ ∀ conn, .closed row.fd conn ∉ tr)

/-- An observation that neither opens nor closes a connection, nor registers a
key, changes no row. -/
theorem rowAfter_cons {t₀ : Table} {o : Obs} (hs : o.Still) (hr : o.NoReg) (tr : List Obs) (k : Bytes) (row : Row) :
    RowAfter t₀ (o :: tr) k row ↔ RowAfter t₀ tr k row := by
  have hclosed : ∀ conn, .closed row.fd conn ∈ o :: tr ↔ .closed row.fd conn ∈ tr := fun conn => by
    refine ⟨fun h => ?_, List.mem_cons_of_mem _⟩
    rcases List.mem_cons.mp h with rfl | h
    · exact hs.elim
    · exact h
  simp only [RowAfter, openOn_cons hs, hr k tr, hclosed]

section

variable {t₀ : Table} {tr : List Obs} {k : Bytes} {row : Row}

theorem rowAfter_accepted {f : Int} {c : Nat} (h : New tr (.accepted f c)) :
    RowAfter t₀ (.accepted f c :: tr) k row ↔ RowAfter t₀ tr k row := by
  have hlast : lastReg k (.accepted f c :: tr) = lastReg k tr := rfl
  have hopen : ∀ d t g, lastReg k tr = some (d, t) →
      (openOn g (.accepted f c :: tr) = some d ↔ openOn g tr = some d) := fun d t g hl => by
    obtain ⟨a, ha⟩ := mem_of_lastReg hl
    have hne : d ≠ c := fun heq => h.2 _ ha (congrArg some heq)
    rw [openOn]
    split
    · rename_i hg
      rw [hg, h.1]
      simp [hne.symm]
    · exact Iff.rfl
  have hclosed : ∀ conn, .closed row.fd conn ∈ (.accepted f c :: tr : List Obs) ↔ .closed row.fd conn ∈ tr := by simp
  simp only [RowAfter, hlast, hclosed]
  refine or_congr_left ⟨?_, ?_⟩
  · rintro ⟨d, t, g, hl, ho, hrow⟩
    exact ⟨d, t, g, hl, (hopen d t g hl).mp ho, hrow⟩
  · rintro ⟨d, t, g, hl, ho, hrow⟩
    exact ⟨d, t, g, hl, (hopen d t g hl).mpr ho, hrow⟩

theorem rowAfter_closed {f : Int} {conn : Option Nat} :
    RowAfter t₀ (.closed f conn :: tr) k row ↔ row.fd ≠ f ∧ RowAfter t₀ tr k row := by
  have hlast : lastReg k (.closed f conn :: tr) = lastReg k tr := rfl
  have hopen : ∀ g, openOn g (.closed f conn :: tr) = if g = f then none else openOn g tr := fun _ => rfl
  simp only [RowAfter, hlast, hopen]
  constructor
  · rintro (⟨c, t, g, hl, ho, rfl⟩ | ⟨hl, ht, hno⟩)
    · split at ho
      · cases ho
      · rename_i hg
        exact ⟨hg, .inl ⟨c, t, g, hl, ho, rfl⟩⟩
    · refine ⟨fun hf => hno conn (by rw [hf]; exact List.mem_cons_self ..), .inr ⟨hl, ht, fun d hd => ?_⟩⟩
      exact hno d (List.mem_cons_of_mem _ hd)
  · rintro ⟨hne, ⟨c, t, g, hl, ho, rfl⟩ | ⟨hl, ht, hno⟩⟩
    · exact .inl ⟨c, t, g, hl, by rw [if_neg hne]; exact ho, rfl⟩
    · refine .inr ⟨hl, ht, fun d hd => ?_⟩
      rcases List.mem_cons.mp hd with heq | hd
      · exact hne (Obs.closed.inj heq).1
      · exact hno d hd

theorem rowAfter_registered (ha : Each Attached tr) (hn : Each New tr) {k' : Bytes} {f : Int} {conn : Option Nat}
    {t : AgentType} (h : Attached tr (.registered k' f conn t)) :
    RowAfter t₀ (.registered k' f conn t :: tr) k row ↔
      if k' = k then row = ⟨k, f, t.toInt⟩ else RowAfter t₀ tr k row := by
  obtain ⟨hopen, hne⟩ := h
  obtain ⟨c, rfl⟩ := Option.ne_none_iff_exists'.mp hne
  have hlast : lastReg k (.registered k' f (some c) t :: tr) = if k = k' then some (c, t) else lastReg k tr := rfl
  have hopen' : ∀ g, openOn g (.registered k' f (some c) t :: tr) = openOn g tr := fun _ => rfl
  by_cases hk : k' = k
  · subst hk
    simp only [RowAfter, hlast, hopen', if_true]
    constructor
    · rintro (⟨d, v, g, hl, ho, rfl⟩ | ⟨hl, -⟩)
      · obtain ⟨rfl, rfl⟩ := Prod.mk.inj (Option.some.inj hl)
        rw [openOn_inj ha hn ho hopen]
      · cases hl
    · rintro rfl
      exact .inl ⟨c, t, f, rfl, hopen, rfl⟩
  · have hclosed : ∀ d, .closed row.fd d ∈ (.registered k' f (some c) t :: tr : List Obs) ↔ .closed row.fd d ∈ tr := by
      simp
    simp only [RowAfter, hlast, hopen', if_neg hk, if_neg (Ne.symm hk), hclosed]

/-- The rows of the table that a trace makes, for the traces of runs. -/
theorem lookup_tableOf (ha : Each Attached tr) (hn : Each New tr) (k : Bytes) (row : Row) :
    (tableOf t₀ tr).lookup k = some row ↔ RowAfter t₀ tr k row := by
  induction tr generalizing row with
  | nil => simp [tableOf, RowAfter, lastReg]
  | cons o tr ih =>
    have ih := ih ha.2 hn.2
    cases o with
    | accepted f c => rw [rowAfter_accepted hn.1]; exact ih row
    | closed f conn =>
      rw [rowAfter_closed, tableOf, KeyedTable.lookup_deleteWhere, Option.filter_eq_some_iff, ih row, and_comm]
      simp
    | registered k' f conn t =>
      rw [rowAfter_registered ha.2 hn.2 ha.1, tableOf, KeyedTable.lookup_put]
      split
      · rename_i hk
        obtain rfl : k' = k := hk
        rw [Option.some.injEq, eq_comm]
      · exact ih row
    | _ =>
      refine (ih row).trans (rowAfter_cons ?_ (fun _ _ => rfl) tr k row).symm
      trivial

end

/-- In a run without failures from the table `t₀`, a key is found where the
connection is open whose message registered it last; a key that no message of
the run has registered has the row it had in `t₀`, until a connection is closed
on the descriptor in it. -/
theorem inherited_rows {t₀ : Table} (h : (cleanFrom P t₀).Reach s) (hrun : s.stopped = none) (k : Bytes) (row : Row) :
    s.table.lookup k = some row ↔
      (∃ c t f, lastRegistrant P.json k s.trace = some (c, t) ∧ s.fds f = some (.peer c) ∧ row = ⟨k, f, t.toInt⟩) ∨
      (lastRegistrant P.json k s.trace = none ∧ t₀.lookup k = some row ∧
        ∀ conn, .closed row.fd conn ∉ s.trace) := by
  have hreach := h.of_restrict
  rw [← (clean_told h hrun).lastReg_eq k, reach_tableOf h hrun k,
    lookup_tableOf (reach_attached hreach) (reach_new hreach)]
  simp only [RowAfter, ← (reach_open hreach hrun).peers, State.peerAt_eq_some]

/-- In the next run another client is accepted on the descriptor in the row of
an agent, and leaves. -/
def cameAndWent : List Action := Flat.connect 6 ++ Flat.connect 7 ++ Flat.leaves 6 0

theorem inherited_rows_cameAndWent :
    let s := (cleanFrom Flat.params before.table).exec (Flat.start before.table) cameAndWent
    before.table.lookup (ascii "m") = some ⟨ascii "m", 6, 2⟩ ∧ s.table.lookup (ascii "m") = none := by
  intro s
  have hs : before.table.lookup (ascii "m") = some ⟨ascii "m", 6, 2⟩ ∧ s.stopped = none ∧
      lastRegistrant Flat.params.json (ascii "m") s.trace = none ∧ .closed 6 (some 0) ∈ s.trace := by decide +kernel
  have hreach : (cleanFrom Flat.params before.table).Reach s :=
    .exec (.init ⟨Flat.initial_start before.table, Flat.start_table _⟩) (by decide +kernel)
  refine ⟨hs.1, Option.eq_none_iff_forall_ne_some.mpr fun row hrow => ?_⟩
  rcases (inherited_rows hreach hs.2.1 (ascii "m") row).mp hrow with ⟨c, t, f, hl, -⟩ | ⟨-, hrow', hno⟩
  · rw [hs.2.2.1] at hl; cases hl
  · obtain rfl := Option.some.inj (hs.1.symm.trans hrow')
    exact hno (some 0) hs.2.2.2

end CmdAgent
