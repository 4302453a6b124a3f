import CmdAgent.Proof.EventLoop
import CmdAgent.Framework.Registry

/-!
# Registrations and the session table

The calls of `mysql_insert_fd` in a trace say which connection registered a
key last (`lastReg`) and, with the open descriptors, make a `Registry`.
`Changes` lists what a step does to it and, side by side, to the session table:
a connection is accepted, closed or registers a key, or nothing happens. As
long as no query fails and the macs of agents are plain, the two stay in
agreement (`Refines`): the table finds a key where the registry does.

The calls are also those that the messages ask for (`clean_told`): a UX message
registers `UX_SESSION`, and one of an agent its mac. So the last registration
can be read off the messages handed over (`lastRegistrant`).
-/

namespace CmdAgent

open SqlText

/-- The last registration under `k` in a trace: the connection that made it
and the type it gave. -/
def lastReg (k : Bytes) : List Obs → Option (Nat × AgentType)
  | [] => none
  | .registered k' _ (some c) t :: tr => if k = k' then some (c, t) else lastReg k tr
  | _ :: tr => lastReg k tr

/-- An observation that registers nothing. -/
def Obs.NoReg (o : Obs) : Prop := ∀ k tr, lastReg k (o :: tr) = lastReg k tr

theorem Obs.Quiet.noReg {o : Obs} (h : o.Quiet) : o.NoReg := by
  cases o <;> first | exact h.elim | exact fun _ _ => rfl

theorem lastReg_append {new : List Obs} (h : ∀ o ∈ new, o.NoReg) (k : Bytes) (tr : List Obs) :
    lastReg k (new ++ tr) = lastReg k tr := by
  induction new with
  | nil => rfl
  | cons o new ih =>
    rw [List.cons_append, h o (List.mem_cons_self ..) k, ih fun o' ho' => h o' (List.mem_cons_of_mem _ ho')]

theorem lastReg_quiet {new : List Obs} (h : ∀ o ∈ new, o.Quiet) (k : Bytes) (tr : List Obs) :
    lastReg k (new ++ tr) = lastReg k tr :=
  lastReg_append (fun o ho => (h o ho).noReg) k tr

/-- Whoever registered last is in the trace. -/
theorem mem_of_lastReg {k : Bytes} {tr : List Obs} {c : Nat} {t : AgentType} (h : lastReg k tr = some (c, t)) :
    ∃ f, .registered k f (some c) t ∈ tr := by
  fun_induction lastReg k tr with
  | case1 => cases h
  | case2 f c' t' tr =>
    obtain ⟨rfl, rfl⟩ := Prod.mk.inj (Option.some.inj h)
    exact ⟨f, List.mem_cons_self ..⟩
  | case3 k' f c' t' tr hk ih =>
    obtain ⟨g, hg⟩ := ih h
    exact ⟨g, List.mem_cons_of_mem _ hg⟩
  | case4 o tr ho ih =>
    obtain ⟨g, hg⟩ := ih h
    exact ⟨g, List.mem_cons_of_mem _ hg⟩

/-! ## What a step changes -/

variable {P : Params} {s s' : State}

/-- The connections and the registrations of a state. -/
def Book.registry (h : Book P s) : Registry Bytes Int Nat AgentType where
  client := s.peerAt
  last k := lastReg k s.trace
  inj f g c hf hg := h.inj f g c (State.peerAt_eq_some.mp hf) (State.peerAt_eq_some.mp hg)

instance (e : Ready) : Decidable (e.Reads P) :=
  decidable_of_iff (e.events.epollerr = false ∧ e.fd ≠ P.listener ∧ e.events.epollin = true)
    ⟨fun ⟨h₁, h₂, h₃⟩ => ⟨h₁, h₂, h₃⟩, fun h => ⟨h.noError, h.peer, h.epollin⟩⟩

/-- The connection whose event it is. -/
theorem Book.sender {e : Ready} {rest : List Ready} (hb : Book P s) (he : e.Reads P) (hbatch : s.batch = e :: rest) :
    ∃ c, s.fds e.fd = some (.peer c) := by
  obtain ⟨c, -, hc⟩ := (hb.batch e (by rw [hbatch]; exact List.mem_cons_self ..)).2.resolve_left he.peer
  exact ⟨c, hc⟩

/-- The frame that the next event of the batch delivers, with its descriptor. -/
def incoming (P : Params) (s : State) (ans : Answers) : Option (Int × Bytes) :=
  match s.batch, (readEnds [] ans.recvs).map Prod.fst with
  | e :: _, some (.frame data) => if e.Reads P then some (e.fd, data) else none
  | _, _ => none

/-- The members of the object that the next event delivers. -/
def message (P : Params) (s : State) (ans : Answers) : Option (Int × List Member) :=
  (incoming P s ans).bind fun p =>
    match parseStringToJson P.json (cstr p.2) with
    | .object ms => some (p.1, ms)
    | _ => none

theorem incoming_eq {ans : Answers} {e : Ready} {rest : List Ready} (hb : s.batch = e :: rest)
    (he : e.Reads P) {data : Bytes} (hr : (readEnds [] ans.recvs).map Prod.fst = some (.frame data)) :
    incoming P s ans = some (e.fd, data) := by
  simp only [incoming, hb, hr, if_pos he]

theorem message_eq {ans : Answers} {e : Ready} {rest : List Ready} (hb : s.batch = e :: rest)
    (he : e.Reads P) {data : Bytes} (hr : (readEnds [] ans.recvs).map Prod.fst = some (.frame data))
    {ms : List Member} (hj : parseStringToJson P.json (cstr data) = .object ms) :
    message P s ans = some (e.fd, ms) := by
  rw [message, incoming_eq hb he hr, Option.bind_some, hj]

theorem message_eq_some {ans : Answers} {e : Ready} {rest : List Ready} (hb : s.batch = e :: rest) {f : Int}
    {ms : List Member} :
    message P s ans = some (f, ms) ↔ e.Reads P ∧ e.fd = f ∧
      ∃ data, (readEnds [] ans.recvs).map Prod.fst = some (.frame data) ∧
        parseStringToJson P.json (cstr data) = .object ms := by
  constructor
  · intro hp
    obtain ⟨q, hq, hp⟩ := Option.bind_eq_some_iff.mp hp
    unfold incoming at hq
    rw [hb] at hq
    split at hq
    · rename_i data he hr
      obtain ⟨rfl, -⟩ := List.cons.inj he
      split at hq
      · rename_i hreads
        obtain rfl := Option.some.inj hq
        dsimp only at hp
        split at hp
        · rename_i hj
          obtain ⟨rfl, rfl⟩ := Prod.mk.inj (Option.some.inj hp)
          exact ⟨hreads, rfl, data, hr, hj⟩
        · cases hp
      · cases hq
    · cases hq
  · rintro ⟨he, rfl, data, hr, hj⟩
    exact message_eq hb he hr hj

/-- The descriptor of the connection that the next event accepts. -/
def accepting (P : Params) (s : State) (ans : Answers) : Option Int :=
  match s.batch with
  | e :: _ => if e.events.epollerr = false ∧ e.fd = P.listener then ans.accept.fd? else none
  | [] => none

/-- The key a message registers and the type it gives. -/
def Registers (P : Params) (s : State) (ans : Answers) (f : Int) (k : Bytes) (t : AgentType) : Prop :=
  ∃ ms, message P s ans = some (f, ms) ∧ agentTypeOf ms = t ∧
    (k = uxSession ∧ t = .reqUx ∨
      (agentSessionOf s.session f ms).minerMac = .str k ∧ t = .reqLinuxClaymore)

/-- What a step does to the registry and to the session table. -/
inductive Changes (P : Params) (s : State) (ans : Answers) (r : Registry Bytes Int Nat AgentType) (t : Table) :
    Registry Bytes Int Nat AgentType → Table → Prop where
  | same : Changes P s ans r t r t
  | connected {f : Int} (hacc : accepting P s ans = some f) (hf : r.client f = none)
    (h : ∀ g, r.client g ≠ some s.nextConn) : Changes P s ans r t (r.connect f s.nextConn h) t
  | left {f : Int} {t' : Table} (hd : Deleted ans f t t') : Changes P s ans r t (r.leave f) t'
  | registered {k : Bytes} {f : Int} {c : Nat} {type : AgentType} {t' : Table} (hc : r.client f = some c)
    (hk : Registers P s ans f k type) (hst : Stored ans ⟨k, f, type.toInt⟩ t t') :
    Changes P s ans r t (r.register k c type) t'

theorem peerAt_update {f : Int} {r : Option Resource} (h : s'.fds = Function.update s.fds f r) {c : Option Nat}
    (hc : r = c.map .peer) : s'.peerAt = Function.update s.peerAt f c := by
  funext g
  by_cases hg : g = f
  · subst hg
    rw [State.peerAt, h, Function.update_self, Function.update_self, hc]
    cases c <;> rfl
  · rw [State.peerAt, h, Function.update_of_ne hg, Function.update_of_ne hg]
    rfl

/-- Streams are no connections. -/
theorem peerAt_of_fdsKept {ans : Answers} (h : FdsKept ans s.fds s'.fds) (hf : StreamsFresh ans s) :
    s'.peerAt = s.peerAt := by
  funext f
  refine Option.ext fun c => ?_
  rw [State.peerAt_eq_some, State.peerAt_eq_some]
  exact h.fds_iff hf (by simp)

/-- A registration under `k`, between observations that register nothing. -/
theorem lastReg_registered {new old tr : List Obs} (hnew : ∀ o ∈ new, o.NoReg) (hold : ∀ o ∈ old, o.NoReg)
    (k l : Bytes) (f : Int) (c : Nat) (t : AgentType) :
    lastReg l (new ++ .registered k f (some c) t :: (old ++ tr)) =
      Function.update (fun l => lastReg l tr) k (some (c, t)) l := by
  rw [lastReg_append hnew, lastReg, lastReg_append hold]
  by_cases hl : l = k
  · rw [if_pos hl, hl, Function.update_self]
  · rw [if_neg hl, Function.update_of_ne hl]

theorem handed_noReg (f : Int) (c : Option Nat) (text : Bytes) (recvs : List Recv) :
    ∀ o ∈ [Obs.handed f c text, .received f c recvs], o.NoReg := by
  intro o ho
  simp only [List.mem_cons, List.not_mem_nil, or_false] at ho
  rcases ho with rfl | rfl <;> exact fun _ _ => rfl

theorem serves_changes (h : Book P s) (h' : Book P s') {ans : Answers} (ha : ans.Valid s) {e : Ready}
    {rest : List Ready} (hb : s.batch = e :: rest) (he : e.Reads P) {data : Bytes}
    (hr : (readEnds [] ans.recvs).map Prod.fst = some (.frame data)) {s₁ : State}
    (hs : Serves P ans e.fd (parseStringToJson P.json (cstr data))
      (handedOn { s with batch := rest } e.fd ans.recvs (cstr data)) none s₁)
    (hfds : s'.fds = s₁.fds) (htr : s'.trace = s₁.trace) (htb : s'.table = s₁.table) :
    Changes P s ans h.registry s.table h'.registry s'.table := by
  obtain ⟨c, hc⟩ := h.sender he hb
  have hpeer : s.peerAt e.fd = some c := State.peerAt_eq_some.mpr hc
  have hclient : s'.peerAt = s.peerAt := peerAt_of_fdsKept (hfds ▸ hs.fdsKept) ha.streamsFresh
  have hint := isInt32_of_lt_maxfds (h.range _ _ hc)
  have hold := handed_noReg e.fd (s.peerAt e.fd) (cstr data) ans.recvs
  -- the registry and the table after a registration
  have hreg : ∀ {k t} new, Registers P s ans e.fd k t → (∀ o ∈ new, o.NoReg) →
      s'.trace = new ++ .registered k e.fd (s.peerAt e.fd) t ::
        ([.handed e.fd (s.peerAt e.fd) (cstr data), .received e.fd (s.peerAt e.fd) ans.recvs] ++ s.trace) →
      s'.table = insertTable P.db ans k e.fd t s.table →
      Changes P s ans h.registry s.table h'.registry s'.table := by
    intro k t new hk hnew htrace htable
    have hreg : h'.registry = h.registry.register k c t := by
      refine Registry.ext hclient (funext fun l => ?_)
      simp only [Book.registry, Registry.register, htrace, hpeer]
      exact lastReg_registered hnew (hpeer ▸ hold) k l e.fd c t
    rw [hreg, htable]
    exact .registered hpeer hk (stored_insertTable P.db ans k hint t s.table)
  cases hs with
  | ignored =>
    have hreg : h'.registry = h.registry := by
      refine Registry.ext hclient (funext fun l => ?_)
      simp only [Book.registry, htr]
      exact lastReg_append hold l s.trace
    rw [hreg, htb]
    exact .same
  | agent hj ht hk =>
    exact hreg _ ⟨_, message_eq hb he hr hj, ht, .inr ⟨hk, rfl⟩⟩
      (fun o ho => (quiet_insertObs _ _ _ _ _ _ o ho).noReg) htr htb
  | ux hj ht hobs =>
    exact hreg _ ⟨_, message_eq hb he hr hj, ht, .inl ⟨rfl, rfl⟩⟩ (fun o ho => (hobs o ho).noReg) htr htb
  | @uxSent ms _ obs obs' m d f a b answer hj ht _ _ hobs hobs' =>
    refine hreg (obs' ++ .sent m f _ d answer :: obs) ⟨_, message_eq hb he hr hj, ht, .inl ⟨rfl, rfl⟩⟩
      (fun o ho => ?_) (htr.trans (by simp only [List.append_assoc, List.cons_append]; rfl)) htb
    rcases List.mem_append.mp ho with ho | ho
    · exact (hobs' o ho).noReg
    rcases List.mem_cons.mp ho with rfl | ho
    · exact fun _ _ => rfl
    · exact (hobs o ho).noReg

/-- Every step that does not end the process changes the registry and the
table in one of the ways `Changes` lists. -/
theorem handles_changes (h : Book P s) (h' : Book P s') {ans : Answers} (ha : ans.Valid s) {e : Ready}
    {rest : List Ready} (hb : s.batch = e :: rest) (hh : Handles P ans e { s with batch := rest } none s') :
    Changes P s ans h.registry s.table h'.registry s'.table := by
  cases hh with
  | idle => exact .same
  | @accepted f he hl hacc hlt =>
    have haccepting : accepting P s ans = some f := by
      rw [accepting, hb]
      simp only [he, hl, and_self, if_true, AcceptAnswer.fd?_eq_some.mpr hacc]
    obtain ⟨-, hnone⟩ := ha.accept f hacc
    have hfree : h.registry.client f = none := by simp [Book.registry, State.peerAt, hnone]
    have hnew : ∀ g, h.registry.client g ≠ some s.nextConn := fun g hg =>
      absurd (h.numbered g _ (State.peerAt_eq_some.mp hg)) (lt_irrefl _)
    have hreg : h'.registry = h.registry.connect f s.nextConn hnew :=
      Registry.ext (peerAt_update (s := s) (r := some (.peer s.nextConn)) rfl (c := some s.nextConn) rfl) rfl
    rw [hreg]
    exact .connected haccepting hfree hnew
  | again => exact .same
  | @closed t obs he hr hd hobs =>
    have hreg : h'.registry = h.registry.leave e.fd := by
      refine Registry.ext (peerAt_update (s := s) (r := none) rfl (c := none) rfl) (funext fun l => ?_)
      exact lastReg_quiet hobs l (.received e.fd (s.peerAt e.fd) ans.recvs :: s.trace)
    rw [hreg]
    exact .left hd
  | served he hr hs => exact serves_changes h h' ha hb he hr hs rfl rfl rfl

/-! ## The table agrees with the registry -/

/-- The table holds a row for a key if and only if the registry finds the key,
and the row says where and with which type. -/
def Refines (t : Table) (r : Registry Bytes Int Nat AgentType) : Prop :=
  ∀ k row, t.lookup k = some row ↔ ∃ f v, row = ⟨k, f, v.toInt⟩ ∧ r.Finds k f v

section Refines

variable {t t' : Table} {r : Registry Bytes Int Nat AgentType} {f : Int} {c : Nat}

theorem Refines.congr (h : Refines t r) (ht : SameRows t t') : Refines t' r := fun k row => by
  rw [ht k]; exact h k row

theorem refines_empty (h : ∀ k, r.last k = none) : Refines .empty r := fun k row => by
  simp [Registry.Finds, h]

theorem Refines.connect (h : Refines t r) (hc : ∀ g, r.client g ≠ some c) (hn : ∀ k v, r.last k ≠ some (c, v))
    (hf : r.client f = none) : Refines t (r.connect f c hc) := fun k row => by
  simp only [Registry.finds_connect hc hn hf]
  exact h k row

theorem Refines.leave (h : Refines t r) : Refines (t.deleteWhere (·.fd = f)) (r.leave f) := fun k row => by
  rw [KeyedTable.lookup_deleteWhere, Option.filter_eq_some_iff, h k row]
  simp only [Registry.finds_leave]
  constructor
  · rintro ⟨⟨g, v, rfl, hg⟩, hne⟩
    exact ⟨g, v, rfl, by simpa using hne, hg⟩
  · rintro ⟨g, v, rfl, hne, hg⟩
    exact ⟨⟨g, v, rfl, hg⟩, by simpa using hne⟩

theorem Refines.register (h : Refines t r) (hc : r.client f = some c) (k : Bytes) (v : AgentType) :
    Refines (t.put ⟨k, f, v.toInt⟩) (r.register k c v) := fun l row => by
  rw [KeyedTable.lookup_put]
  simp only [Registry.finds_register hc]
  by_cases hl : l = k
  · subst hl
    rw [if_pos rfl, Option.some.injEq]
    simp only [if_true]
    constructor
    · rintro rfl
      exact ⟨f, v, rfl, rfl, rfl⟩
    · rintro ⟨g, w, rfl, rfl, rfl⟩
      rfl
  · rw [if_neg (Ne.symm hl)]
    simp only [if_neg hl]
    exact h l row

end Refines

/-! ## Runs without failures -/

/-- Every query is answered, so that an insertion fails on a duplicate only. -/
structure Answers.Answered (ans : Answers) : Prop where
  insert : ans.insert = .answered
  update : ans.update = .answered
  select : ans.select = .answered
  delete : ans.delete = .answered

instance (ans : Answers) : Decidable ans.Answered :=
  decidable_of_iff
    (ans.insert = .answered ∧ ans.update = .answered ∧ ans.select = .answered ∧ ans.delete = .answered)
    ⟨fun ⟨h₁, h₂, h₃, h₄⟩ => ⟨h₁, h₂, h₃, h₄⟩, fun h => ⟨h.insert, h.update, h.select, h.delete⟩⟩

/-- An agent's message carries a mac without quotes and backslashes. -/
def AgentMacs (P : Params) (s : State) (ans : Answers) : Prop :=
  ∀ p ∈ message P s ans, agentTypeOf p.2 = .reqLinuxClaymore → ∃ k ∈ macOf p.2, Plain k

instance (ans : Answers) : Decidable (AgentMacs P s ans) := inferInstanceAs (Decidable (∀ _ ∈ _, _ → _))

/-- A step without failures. -/
def Clean (P : Params) (s : State) : Action → Prop
  | .wait _ _ => True
  | .event ans => ans.Answered ∧ AgentMacs P s ans

instance : ∀ a, Decidable (Clean P s a)
  | .wait _ _ => isTrue trivial
  | .event _ => inferInstanceAs (Decidable (_ ∧ _))

/-- The runs of the server that start with an empty table and see no failure. -/
def cleanServer (P : Params) : Machine State Action :=
  (server P).restrict (fun s => s.table.rows = []) (Clean P)

instance (a : Action) : Decidable ((cleanServer P).admits s a) :=
  inferInstanceAs (Decidable (((server P).restrict _ (Clean P)).admits s a))

theorem minerMac_of_macOf (σ : Session) (f : Int) {ms : List Member} {k : Bytes} (h : macOf ms = some k) :
    (agentSessionOf σ f ms).minerMac = .str k := by
  obtain ⟨b, hb, rfl⟩ := Option.map_eq_some_iff.mp h
  simp only [agentSessionOf, Session.agentFields, hb]
  rfl

/-- UX messages register the one key `UX_SESSION`, and the others are
registered by agents. -/
theorem Registers.type {ans : Answers} {f : Int} {k : Bytes} {t : AgentType} (h : Registers P s ans f k t) :
    t = .reqUx ∧ k = uxSession ∨ t = .reqLinuxClaymore := by
  obtain ⟨ms, -, -, ⟨hk, ht⟩ | ⟨-, ht⟩⟩ := h
  · exact .inl ⟨ht, hk⟩
  · exact .inr ht

theorem plain_uxSession : Plain uxSession := by decide +kernel

/-- The keys registered in a run without failures are plain. -/
theorem Registers.plain {ans : Answers} {f : Int} {k : Bytes} {t : AgentType} (h : Registers P s ans f k t)
    (hm : AgentMacs P s ans) : Plain k := by
  obtain ⟨ms, hmsg, ht, ⟨rfl, -⟩ | ⟨hk, rfl⟩⟩ := h
  · exact plain_uxSession
  · obtain ⟨k', hk', hp⟩ := hm _ hmsg ht
    rw [minerMac_of_macOf _ _ hk', CharPtr.str.injEq] at hk
    exact hk ▸ hp

/-- The registrations are by connections that have been accepted, under plain
keys, and UX messages register `UX_SESSION` only. -/
def KeysOk (r : Registry Bytes Int Nat AgentType) (n : Nat) : Prop :=
  ∀ k c t, r.last k = some (c, t) → c < n ∧ Plain k ∧ (t = .reqUx ∧ k = uxSession ∨ t = .reqLinuxClaymore)

theorem changes_refines {ans : Answers} (hans : ans.Answered) (hm : AgentMacs P s ans) {n : Nat}
    {r r' : Registry Bytes Int Nat AgentType} {t t' : Table} (h : Changes P s ans r t r' t')
    (hn : s.nextConn ≤ n) (hclient : ∀ f c, r.client f = some c → c < n) (ht : Refines t r)
    (hk : KeysOk r s.nextConn) : Refines t' r' ∧ KeysOk r' n := by
  have hle : KeysOk r n := fun k c v hl => ⟨lt_of_lt_of_le (hk k c v hl).1 hn, (hk k c v hl).2⟩
  cases h with
  | same => exact ⟨ht, hle⟩
  | connected _ hf h =>
    exact ⟨ht.connect h (fun k v hl => absurd (hk k _ v hl).1 (lt_irrefl _)) hf, hle⟩
  | left hd =>
    rw [Deleted, if_neg (by rw [hans.delete]; decide)] at hd
    subst hd
    exact ⟨ht.leave, hle⟩
  | @registered k f c v t' hc hreg hst =>
    have hp := hreg.plain hm
    refine ⟨(ht.register hc _ _).congr (hst.stored hp (by rw [hans.insert]; decide) (by rw [hans.update]; decide)),
      fun l d w hl => ?_⟩
    simp only [Registry.register] at hl
    by_cases hlk : l = k
    · subst hlk
      rw [Function.update_self, Option.some.injEq, Prod.mk.injEq] at hl
      exact ⟨hl.1 ▸ hclient _ _ hc, hp, hl.2 ▸ hreg.type⟩
    · rw [Function.update_of_ne hlk] at hl
      exact hle l d w hl

theorem Handles.nextConn_le {ans : Answers} {e : Ready} {o : Option Stop} (h : Handles P ans e s o s') :
    s.nextConn ≤ s'.nextConn := by
  cases h with
  | accepted => exact Nat.le_succ _
  | acceptDied => exact Nat.le_succ _
  | served _ _ hs => exact hs.nextConn.ge
  | serveDied _ _ hs => exact hs.nextConn.ge
  | serveStopped _ _ hs => exact hs.nextConn.ge
  | _ => exact le_rfl

/-- As long as a run without failures goes on, the table agrees with the
registrations. -/
theorem clean_refines (h : (cleanServer P).Reach s) (hrun : s.stopped = none) (hb : Book P s) :
    Refines s.table hb.registry ∧ KeysOk hb.registry s.nextConn := by
  revert hrun hb
  refine reach_events (P := P) (I := fun s => s.stopped = none → ∀ hb : Book P s,
    Refines s.table hb.registry ∧ KeysOk hb.registry s.nextConn) ?_
    (fun _ _ _ hrun hb ih _ _ => ih hrun hb) ?_ h
  · intro s hi ht _ hb
    have hlast : ∀ k, hb.registry.last k = none := fun k => by simp [Book.registry, hi.trace, lastReg]
    refine ⟨(refines_empty hlast).congr fun k => ?_, fun k c t hl => ?_⟩
    · rw [KeyedTable.lookup, ht]; rfl
    · rw [hlast k] at hl; cases hl
  · rintro s ans e rest o s' - hrun hb ih hv hbatch ⟨hans, hm⟩ hh rfl hb'
    obtain ⟨ht, hk⟩ := ih hrun hb
    have hle := hh.nextConn_le
    exact changes_refines hans hm (handles_changes hb (book_handles hb hv hbatch hh) hv hbatch hh) hle
      (fun f c hf => lt_of_lt_of_le (hb.numbered f c (State.peerAt_eq_some.mp hf)) hle) ht hk

/-! ## What the messages say -/

/-- The key that a message registers and the type it gives: `UX_SESSION` for a
UX client, and its mac for an agent. -/
def registration (json : JsonC) (text : Bytes) : Option (Bytes × AgentType) :=
  match parseStringToJson json text with
  | .object ms =>
    match agentTypeOf ms with
    | .reqUx => some (uxSession, .reqUx)
    | .reqLinuxClaymore => (macOf ms).map (·, .reqLinuxClaymore)
    | _ => none
  | _ => none

/-- What the messages handed over in a trace register, each with the connection
it came on, newest first. -/
def registrations (json : JsonC) : List Obs → List (Bytes × Nat × AgentType)
  | [] => []
  | .handed _ (some c) text :: tr =>
    match registration json text with
    | some (k, t) => (k, c, t) :: registrations json tr
    | none => registrations json tr
  | _ :: tr => registrations json tr

/-- The connection whose message was the last to register `k`, and the type of
the message. -/
def lastRegistrant (json : JsonC) (k : Bytes) (tr : List Obs) : Option (Nat × AgentType) :=
  ((registrations json tr).find? (·.1 = k)).map Prod.snd

/-- The type of the last message of a connection that registers anything. -/
def lastMessage (json : JsonC) (c : Nat) (tr : List Obs) : Option AgentType :=
  ((registrations json tr).find? (·.2.1 = c)).map (·.2.2)

/-- The calls of `mysql_insert_fd` in a trace, newest first. -/
def calls : List Obs → List (Bytes × Nat × AgentType)
  | [] => []
  | .registered k _ (some c) t :: tr => (k, c, t) :: calls tr
  | _ :: tr => calls tr

theorem lastReg_eq_find (k : Bytes) (tr : List Obs) : lastReg k tr = ((calls tr).find? (·.1 = k)).map Prod.snd := by
  fun_induction lastReg k tr with
  | case1 => rfl
  | case2 f c t tr => simp [calls]
  | case3 k' f c t tr hk ih => simp [calls, ih, Ne.symm hk]
  | case4 o tr ho ih =>
    rw [calls, ih]
    exact ho

/-- The calls of `mysql_insert_fd` are those the messages ask for. -/
def Told (json : JsonC) (tr : List Obs) : Prop := calls tr = registrations json tr

/-- An observation that is neither a message nor a call of `mysql_insert_fd`. -/
def Obs.Aside : Obs → Prop
  | .handed _ _ _ | .registered _ _ _ _ => False
  | _ => True

theorem Obs.Quiet.aside {o : Obs} (h : o.Quiet) : o.Aside := by
  cases o <;> first | exact h.elim | trivial

section Told

variable {json : JsonC} {tr : List Obs} {f : Int} {conn : Option Nat} {c : Nat} {text : Bytes}

theorem Told.cons (h : Told json tr) {o : Obs} (ho : o.Aside) : Told json (o :: tr) := by
  cases o <;> first | exact ho.elim | exact h

theorem Told.append (h : Told json tr) {new : List Obs} (hnew : ∀ o ∈ new, o.Quiet) : Told json (new ++ tr) := by
  induction new with
  | nil => exact h
  | cons o new ih =>
    exact (ih fun o' ho' => hnew o' (List.mem_cons_of_mem _ ho')).cons (hnew o (List.mem_cons_self ..)).aside

/-- A message that registers nothing. -/
theorem Told.handed (h : Told json tr) (hno : registration json text = none) :
    Told json (.handed f conn text :: tr) := by
  cases conn with
  | none => exact h
  | some c => simpa only [Told, calls, registrations, hno] using h

/-- A message and the call it leads to. -/
theorem Told.registered (h : Told json tr) {k : Bytes} {t : AgentType} (hreg : registration json text = some (k, t))
    (hc : conn = some c) : Told json (.registered k f conn t :: .handed f conn text :: tr) := by
  subst hc
  have h : calls tr = registrations json tr := h
  simp only [Told, calls, registrations, hreg, h]

end Told

theorem serves_told {ans : Answers} {fd : Int} {c : Nat} (hc : s.peerAt fd = some c) {text : Bytes}
    (hm : ∀ ms, parseStringToJson P.json text = .object ms → agentTypeOf ms = .reqLinuxClaymore →
      ∃ k ∈ macOf ms, Plain k)
    (hs : Serves P ans fd (parseStringToJson P.json text) (handedOn s fd ans.recvs text) none s')
    (h : Told P.json s.trace) : Told P.json s'.trace := by
  have hrecv : Told P.json (.received fd (s.peerAt fd) ans.recvs :: s.trace) := h.cons trivial
  have hux : ∀ {ms}, parseStringToJson P.json text = .object ms → agentTypeOf ms = .reqUx →
      registration P.json text = some (uxSession, .reqUx) := fun hj ht => by simp only [registration, hj, ht]
  cases hs with
  | ignored hj ht =>
    refine hrecv.handed ?_
    simp only [registration, hj, ht]
  | @agent ms k hj ht hk =>
    obtain ⟨k', hk', -⟩ := hm ms hj ht
    rw [minerMac_of_macOf _ _ hk', CharPtr.str.injEq] at hk
    subst hk
    have hreg : registration P.json text = some (k', .reqLinuxClaymore) := by
      simp only [registration, hj, ht, Option.mem_def.mp hk', Option.map_some]
    exact (hrecv.registered hreg hc).append (quiet_insertObs _ _ _ _ _ _)
  | ux hj ht hobs => exact (hrecv.registered (hux hj ht) hc).append hobs
  | uxSent hj ht _ _ hobs hobs' =>
    have hbefore := (hrecv.registered (f := fd) (hux hj ht) hc).append hobs
    exact Told.append (hbefore.cons (o := .sent ..) trivial) hobs'

/-- As long as a run without failures goes on, `mysql_insert_fd` has been called
as its messages ask for. -/
theorem clean_told {P₀ : State → Prop} (h : ((server P).restrict P₀ (Clean P)).Reach s) (hrun : s.stopped = none) :
    Told P.json s.trace := by
  revert hrun
  refine reach_events (P := P) (I := fun s => s.stopped = none → Told P.json s.trace)
    (fun s hi _ _ => by rw [hi.trace]; rfl) (fun _ _ _ hrun _ ih _ => ih hrun) ?_ h
  rintro s ans e rest o s' - hrun hb ih hv hbatch ⟨-, hm⟩ hh rfl
  have htold := ih hrun
  cases hh with
  | idle => exact htold
  | accepted => exact htold.cons trivial
  | again => exact htold.cons trivial
  | closed _ _ _ hobs =>
    have hrecv : Told P.json (.received e.fd (s.peerAt e.fd) ans.recvs :: s.trace) := htold.cons trivial
    exact (hrecv.append hobs).cons trivial
  | @served data s₁ he hr hs hc =>
    obtain ⟨c, hconn⟩ := hb.sender he hbatch
    have htold₁ : Told P.json s₁.trace := serves_told (s := { s with batch := rest }) (State.peerAt_eq_some.mpr hconn)
      (fun ms hj => hm _ (message_eq hbatch he hr hj)) hs htold
    exact htold₁

theorem Told.lastReg_eq {json : JsonC} {tr : List Obs} (h : Told json tr) (k : Bytes) :
    lastReg k tr = lastRegistrant json k tr := by
  have h : calls tr = registrations json tr := h
  rw [lastReg_eq_find, h, lastRegistrant]

end CmdAgent
