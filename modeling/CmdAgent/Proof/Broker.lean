import CmdAgent.Proof.Delivery
import CmdAgent.Proof.Leakage
import CmdAgent.Framework.Broker

/-!
# The server is a broker

Seen from its clients, a server without failures is a broker whose clients are
its connections: a message of an agent registers its mac, and a message of a
UX client registers the key of the UX clients and gives a command for a mac.
`brokerOf` is the broker after what a run has received, in the order in which
it did; it knows of no descriptor, no query and no table.

At every moment of such a run the commands passed to `send`, with the
connections they went to, are the deliveries of this broker, the open
connections are its clients, and the table says of each key who would get a
command for it (`refines_broker`).
-/

namespace CmdAgent

open SqlText

variable {P : Params} {s s' : State} {ans : Answers} {e : Ready}

/-- What the message `text` of the client `c` asks of a broker. -/
def requests (json : JsonC) (c : Nat) (text : Bytes) : List (Broker.Op Bytes Nat) :=
  match parseStringToJson json text with
  | .object ms =>
    match agentTypeOf ms, macOf ms with
    | .reqUx, some m => [.register uxSession c, .command m]
    | .reqLinuxClaymore, some k => [.register k c]
    | _, _ => []
  | _ => []

def requestsOf (json : JsonC) : Obs → List (Broker.Op Bytes Nat)
  | .accepted _ c => [.connect c]
  | .closed _ (some c) => [.leave c]
  | .handed _ (some c) text => requests json c text
  | _ => []

/-- The broker after what is in a trace. -/
def brokerOf (json : JsonC) : List Obs → Broker Bytes Nat
  | [] => .empty
  | o :: tr => (requestsOf json o).foldl .step (brokerOf json tr)

/-- The commands passed to `send`, with the connection on the descriptor, newest
first. -/
def addressed : List Obs → List (Bytes × Option Nat)
  | [] => []
  | .sent m _ conn _ _ :: tr => (m, conn) :: addressed tr
  | _ :: tr => addressed tr

/-! ## Observations that are no requests -/

/-- An observation that asks nothing of the broker and sends nothing. -/
def Obs.Inner : Obs → Prop
  | .query _ | .debug _ | .registered _ _ _ _ | .received _ _ _ => True
  | _ => False

theorem Obs.Quiet.inner {o : Obs} (h : o.Quiet) : o.Inner := by
  cases o <;> first | exact h.elim | trivial

theorem brokerOf_append {json : JsonC} {new : List Obs} (h : ∀ o ∈ new, o.Inner) (tr : List Obs) :
    brokerOf json (new ++ tr) = brokerOf json tr := by
  induction new with
  | nil => rfl
  | cons o new ih =>
    have ho := h o (List.mem_cons_self ..)
    have ih := ih fun o' ho' => h o' (List.mem_cons_of_mem _ ho')
    cases o <;> first | exact ho.elim | exact ih

theorem addressed_append {new : List Obs} (h : ∀ o ∈ new, o.Inner) (tr : List Obs) :
    addressed (new ++ tr) = addressed tr := by
  induction new with
  | nil => rfl
  | cons o new ih =>
    have ho := h o (List.mem_cons_self ..)
    have ih := ih fun o' ho' => h o' (List.mem_cons_of_mem _ ho')
    cases o <;> first | exact ho.elim | exact ih

/-! ## The state and its broker -/

/-- The connections and the last registrations of a state are those of a
broker. -/
structure Agrees (s : State) (b : Broker Bytes Nat) : Prop where
  online : ∀ c, c ∈ b.online ↔ ∃ f, s.peerAt f = some c
  owner : ∀ k, b.owner k = (lastReg k s.trace).map Prod.fst

/-- The table of such a state says who gets a command. -/
theorem Agrees.recipient_eq {b : Broker Bytes Nat} (h : Agrees s b) (hb : Book P s) (ht : Refines s.table hb.registry)
    (k : Bytes) : b.recipient k = (s.table.lookup k).bind fun row => s.peerAt row.fd := by
  refine Option.ext fun c => ?_
  rw [Broker.recipient_eq_some, h.owner, h.online, Option.bind_eq_some_iff]
  constructor
  · rintro ⟨hlast, f, hf⟩
    obtain ⟨⟨c', t⟩, hl, rfl⟩ := Option.map_eq_some_iff.mp hlast
    exact ⟨⟨k, f, t.toInt⟩, (ht k _).mpr ⟨f, t, rfl, c', hl, hf⟩, hf⟩
  · rintro ⟨row, hrow, hf⟩
    obtain ⟨f, t, rfl, c', hlast, hc'⟩ := (ht k row).mp hrow
    obtain rfl : c' = c := Option.some.inj (Eq.trans (Eq.symm hc') hf)
    have hlast' : lastReg k s.trace = some (c', t) := hlast
    exact ⟨by rw [hlast']; rfl, f, hf⟩

/-- A command goes to the connection on the descriptor that is found. -/
theorem Agrees.recipient_found {b : Broker Bytes Nat} (h : Agrees s b) (hb : Book P s)
    (ht : Refines s.table hb.registry) {m : Bytes} (hm : Plain m) (ha : ans.select = .answered) :
    b.recipient m = s.peerAt (found P.db ans m s.table) := by
  refine Option.ext fun c => ?_
  rw [Broker.recipient_eq_some, h.owner, h.online, State.peerAt_eq_some]
  have hfound := found_eq hb ht hm ha
  constructor
  · rintro ⟨hlast, f, hf⟩
    obtain ⟨⟨c', t⟩, hl, rfl⟩ := Option.map_eq_some_iff.mp hlast
    have hf' : s.fds f = some (.peer c') := State.peerAt_eq_some.mp hf
    rw [((hfound f).mpr ⟨c', t, hl, hf'⟩).1]
    exact hf'
  · intro hf
    obtain ⟨c', t, hlast, hc'⟩ := (hfound _).mp ⟨rfl, (hb.range _ c hf).1⟩
    obtain rfl : c' = c := by
      rw [hf] at hc'
      cases hc'
      rfl
    exact ⟨by rw [hlast]; rfl, _, State.peerAt_eq_some.mpr hf⟩

/-- So far the server has done what its broker does. -/
structure Brokers (P : Params) (s : State) : Prop where
  agrees : Agrees s (brokerOf P.json s.trace)
  delivered : addressed s.trace = (brokerOf P.json s.trace).delivered.map fun p => (p.1, some p.2)

/-! ## A message -/

section

variable {b : Broker Bytes Nat}

/-- The registry and the broker after a registration. -/
theorem Agrees.register (h : Agrees s b) (hclient : s'.peerAt = s.peerAt) {new old : List Obs}
    (hnew : ∀ o ∈ new, o.NoReg) (hold : ∀ o ∈ old, o.NoReg) {k : Bytes} {fd : Int} {conn : Option Nat} {t : AgentType}
    (htr : s'.trace = new ++ .registered k fd conn t :: (old ++ s.trace)) {c : Nat} (hc : conn = some c) :
    Agrees s' (b.step (.register k c)) := by
  subst hc
  refine ⟨fun d => ?_, fun l => ?_⟩
  · rw [hclient]
    exact h.online d
  · show Function.update b.owner k (some c) l = _
    rw [htr, lastReg_registered hnew hold]
    by_cases hlk : l = k
    · subst hlk
      simp
    · rw [Function.update_of_ne hlk, Function.update_of_ne hlk, h.owner]

end

/-- The macs of the message that the next event delivers are its own, and plain. -/
def OwnMacs (P : Params) (s : State) (ans : Answers) : Prop :=
  ∀ p ∈ message P s ans, agentTypeOf p.2 = .reqLinuxClaymore ∨ agentTypeOf p.2 = .reqUx → ∃ m ∈ macOf p.2, Plain m

instance : Decidable (OwnMacs P s ans) := inferInstanceAs (Decidable (∀ _ ∈ _, _ → _))

section

variable {fd : Int} {c : Nat} {text : Bytes} {obs : List Obs}

/-- The broker once a message has been handed on and its key registered. -/
theorem brokerOf_handed (json : JsonC) (hc : s.peerAt fd = some c) (hobs : ∀ o ∈ obs, o.Quiet) (k : Bytes)
    (t : AgentType) (recvs : List Recv) :
    brokerOf json (obs ++ .registered k fd (s.peerAt fd) t :: (handedOn s fd recvs text).trace) =
      (requests json c text).foldl .step (brokerOf json s.trace) := by
  rw [brokerOf_append fun o ho => (hobs o ho).inner, handedOn, hc]
  rfl

theorem addressed_handed (hobs : ∀ o ∈ obs, o.Quiet) (k : Bytes) (t : AgentType) (recvs : List Recv) :
    addressed (obs ++ .registered k fd (s.peerAt fd) t :: (handedOn s fd recvs text).trace) = addressed s.trace :=
  addressed_append (fun o ho => (hobs o ho).inner) _

theorem requests_ux {json : JsonC} {ms : List Member} (hj : parseStringToJson json text = .object ms)
    (ht : agentTypeOf ms = .reqUx) (hm : ∃ m ∈ macOf ms, Plain m) {m : Bytes} {σ : Session}
    (hmac : (uxSessionOf σ fd ms).minerMac = .str m) :
    requests json c text = [.register uxSession c, .command m] ∧ Plain m := by
  obtain ⟨m', hm', hp⟩ := hm
  rw [uxSessionOf_minerMac hm', CharPtr.str.injEq] at hmac
  subst hmac
  exact ⟨by simp only [requests, hj, ht, Option.mem_def.mp hm'], hp⟩

end

theorem serves_brokers {s₁ : State} (hb' : Book P s') (ht' : Refines s'.table hb'.registry) (hans : ans.Answered)
    {fd : Int} {c : Nat} (hc : s.peerAt fd = some c) {text : Bytes}
    (hm : ∀ ms, parseStringToJson P.json text = .object ms →
      agentTypeOf ms = .reqLinuxClaymore ∨ agentTypeOf ms = .reqUx → ∃ m ∈ macOf ms, Plain m)
    (hs : Serves P ans fd (parseStringToJson P.json text) (handedOn s fd ans.recvs text) none s₁)
    (hclient : s'.peerAt = s.peerAt) (hfds : s'.fds = s₁.fds) (htr : s'.trace = s₁.trace) (htb : s'.table = s₁.table)
    (h : Brokers P s) : Brokers P s' := by
  have hold := handed_noReg fd (s.peerAt fd) text ans.recvs
  cases hs with
  | @ignored ms hj ht =>
    have hnone : requests P.json c text = [] := by simp only [requests, hj, ht]
    have hb₀ : brokerOf P.json s'.trace = brokerOf P.json s.trace := by
      rw [htr]
      show (requestsOf P.json (.handed fd (s.peerAt fd) text)).foldl .step (brokerOf P.json s.trace) = _
      rw [hc, requestsOf, hnone]
      rfl
    refine ⟨?_, ?_⟩
    · rw [hb₀]
      refine ⟨fun d => by rw [hclient]; exact h.agrees.online d, fun l => ?_⟩
      rw [htr, h.agrees.owner l]
      exact congrArg _ (lastReg_append hold l s.trace).symm
    · rw [hb₀, htr]
      exact h.delivered
  | @agent ms k hj ht hk =>
    obtain ⟨k', hk', -⟩ := hm ms hj (.inl ht)
    rw [minerMac_of_macOf _ _ hk', CharPtr.str.injEq] at hk
    subst hk
    have hreq : requests P.json c text = [.register k' c] := by
      simp only [requests, hj, ht, Option.mem_def.mp hk']
    have hquiet := quiet_insertObs P.db ans k' fd .reqLinuxClaymore s.table
    have hb₀ : brokerOf P.json s'.trace = (brokerOf P.json s.trace).step (.register k' c) := by
      rw [htr]
      exact (brokerOf_handed _ hc hquiet ..).trans (by rw [hreq]; rfl)
    refine ⟨?_, ?_⟩
    · rw [hb₀]
      exact h.agrees.register hclient (fun o ho => (hquiet o ho).noReg) hold htr hc
    · rw [hb₀, htr]
      exact (addressed_handed hquiet ..).trans h.delivered
  | @ux ms _ obs hj ht hobs ho =>
    obtain ⟨-, m, hmac, hneg⟩ := ho.resolve_left (by simp)
    obtain ⟨hreq, hp⟩ := requests_ux (c := c) hj ht (hm ms hj (.inr ht)) hmac
    have hagrees : Agrees s' ((brokerOf P.json s.trace).step (.register uxSession c)) :=
      h.agrees.register hclient (fun o ho => (hobs o ho).noReg) hold htr hc
    -- no connection has a descriptor that is an error code
    have hnobody : ((brokerOf P.json s.trace).step (.register uxSession c)).recipient m = none := by
      rw [hagrees.recipient_found hb' ht' hp hans.select, htb, Option.eq_none_iff_forall_ne_some]
      intro d hd
      exact absurd (hb'.range _ d (State.peerAt_eq_some.mp hd)).1 (not_le.mpr hneg)
    have hb₀ : brokerOf P.json s'.trace = (brokerOf P.json s.trace).step (.register uxSession c) := by
      rw [htr]
      refine (brokerOf_handed _ hc hobs ..).trans ?_
      rw [hreq]
      exact Broker.step_command_none hnobody
    refine ⟨by rw [hb₀]; exact hagrees, ?_⟩
    rw [hb₀, htr]
    exact (addressed_handed hobs ..).trans h.delivered
  | @uxSent ms _ obs obs' m d f a b answer hj ht ho hmac hobs hobs' hf hf₀ hfw ha hb hsend =>
    obtain ⟨hreq, hp⟩ := requests_ux (c := c) hj ht (hm ms hj (.inr ht)) hmac
    have hnew : ∀ o ∈ obs' ++ .sent m f (s'.peerAt f) d answer :: obs, o.NoReg := fun o ho => by
      rcases List.mem_append.mp ho with ho | ho
      · exact (hobs' o ho).noReg
      rcases List.mem_cons.mp ho with rfl | ho
      · exact fun _ _ => rfl
      · exact (hobs o ho).noReg
    have hpeer : ({ handedOn s fd ans.recvs text with fds := afterStreams s.fds a b } : State).peerAt = s'.peerAt := by
      funext g
      rw [State.peerAt, State.peerAt, hfds]
      rfl
    have htr' : s'.trace = obs' ++ .sent m f (s'.peerAt f) d answer ::
        (obs ++ .registered uxSession fd (s.peerAt fd) .reqUx :: (handedOn s fd ans.recvs text).trace) := by
      rw [htr, ← hpeer]
      rfl
    have hagrees : Agrees s' ((brokerOf P.json s.trace).step (.register uxSession c)) :=
      h.agrees.register hclient hnew hold
        (htr'.trans (by simp only [List.append_assoc, List.cons_append]; rfl)) hc
    -- the connection on the descriptor that was found
    obtain ⟨c', t, -, hc'⟩ := (found_eq hb' ht' hp hans.select f).mp ⟨by rw [htb]; exact hf.symm, hf₀⟩
    have hconn : s'.peerAt f = some c' := State.peerAt_eq_some.mpr hc'
    have hrec : ((brokerOf P.json s.trace).step (.register uxSession c)).recipient m = some c' := by
      rw [hagrees.recipient_found hb' ht' hp hans.select, htb]
      exact (congrArg _ hf.symm).trans hconn
    have hb₀ : brokerOf P.json s'.trace =
        { (brokerOf P.json s.trace).step (.register uxSession c) with
          delivered := (m, c') :: (brokerOf P.json s.trace).delivered } := by
      rw [htr', brokerOf_append fun o ho => (hobs' o ho).inner]
      refine (brokerOf_handed _ hc hobs ..).trans ?_
      rw [hreq]
      exact Broker.step_command_some hrec
    refine ⟨by rw [hb₀]; exact ⟨hagrees.online, hagrees.owner⟩, ?_⟩
    rw [hb₀, htr', addressed_append fun o ho => (hobs' o ho).inner, addressed, addressed_handed hobs,
      h.delivered, hconn]
    rfl

/-! ## Whole runs -/

theorem Brokers.connect (h : Brokers P s) (hb : Book P s) {f : Int} (hf : s.peerAt f = none)
    (hpeer : s'.peerAt = Function.update s.peerAt f (some s.nextConn))
    (htr : s'.trace = .accepted f s.nextConn :: s.trace) : Brokers P s' := by
  have hnew : ∀ g, hb.registry.client g ≠ some s.nextConn := fun g hg =>
    absurd (hb.numbered g _ (State.peerAt_eq_some.mp hg)) (lt_irrefl _)
  have hb₀ : brokerOf P.json s'.trace = (brokerOf P.json s.trace).step (.connect s.nextConn) := by
    rw [htr]
    rfl
  refine ⟨⟨fun c => ?_, fun k => ?_⟩, ?_⟩
  · rw [hb₀, Broker.step, Finset.mem_insert, hpeer, h.agrees.online]
    exact (Registry.connected_connect (r := hb.registry) hnew hf).symm
  · rw [hb₀, htr]
    exact h.agrees.owner k
  · rw [hb₀, htr]
    exact h.delivered

theorem Brokers.leave (h : Brokers P s) (hb : Book P s) {f : Int} {c : Nat} (hc : s.peerAt f = some c)
    (hpeer : s'.peerAt = Function.update s.peerAt f none) {obs : List Obs} (hobs : ∀ o ∈ obs, o.Quiet) {recvs : List Recv}
    (htr : s'.trace = .closed f (s.peerAt f) :: (obs ++ .received f (s.peerAt f) recvs :: s.trace)) : Brokers P s' := by
  have hb₀ : brokerOf P.json s'.trace = (brokerOf P.json s.trace).step (.leave c) := by
    rw [htr, brokerOf, brokerOf_append fun o ho => (hobs o ho).inner, hc]
    rfl
  refine ⟨⟨fun d => ?_, fun k => ?_⟩, ?_⟩
  · rw [hb₀, Broker.step, Finset.mem_erase, hpeer, h.agrees.online]
    exact (Registry.connected_leave (r := hb.registry) hc).symm
  · rw [hb₀, htr]
    refine (h.agrees.owner k).trans (congrArg _ ?_)
    exact (lastReg_quiet hobs k (.received f (s.peerAt f) recvs :: s.trace)).symm
  · rw [hb₀, htr]
    exact (addressed_append (fun o ho => (hobs o ho).inner) _).trans h.delivered

theorem handles_brokers (hb : Book P s) (hb' : Book P s') (ht' : Refines s'.table hb'.registry) (hans : ans.Answered)
    (hv : ans.Valid s) {rest : List Ready} (hbatch : s.batch = e :: rest) (hm : OwnMacs P s ans) (h : Brokers P s)
    (hh : Handles P ans e { s with batch := rest } none s') : Brokers P s' := by
  cases hh with
  | idle => exact ⟨⟨h.agrees.online, h.agrees.owner⟩, h.delivered⟩
  | again => exact ⟨⟨h.agrees.online, h.agrees.owner⟩, h.delivered⟩
  | @accepted f he hl hacc hlt =>
    have hfree : s.peerAt f = none := by simp [State.peerAt, (hv.accept f hacc).2]
    exact h.connect hb hfree (peerAt_update (r := some (.peer s.nextConn)) rfl rfl) rfl
  | @closed t obs he hr hd hobs =>
    obtain ⟨c, hc⟩ := hb.sender he hbatch
    exact h.leave hb (State.peerAt_eq_some.mpr hc) (peerAt_update (r := none) rfl rfl) hobs rfl
  | @served data s₁ he hr hs hc =>
    obtain ⟨c, hconn⟩ := hb.sender he hbatch
    have hclient : s₁.peerAt = s.peerAt := peerAt_of_fdsKept hs.fdsKept hv.streamsFresh
    have h₀ : Brokers P { s with batch := rest } := ⟨⟨h.agrees.online, h.agrees.owner⟩, h.delivered⟩
    exact serves_brokers (s := { s with batch := rest }) hb' ht' hans (State.peerAt_eq_some.mpr hconn)
      (fun ms hj => hm _ (message_eq hbatch he hr hj)) hs hclient rfl rfl rfl h₀

/-- A step without failures, of a message with its own mac. -/
def Brokered (P : Params) (s : State) : Action → Prop
  | .wait _ _ => True
  | .event ans => ans.Answered ∧ OwnMacs P s ans

instance : ∀ a, Decidable (Brokered P s a)
  | .wait _ _ => isTrue trivial
  | .event _ => inferInstanceAs (Decidable (_ ∧ _))

theorem Brokered.clean {a : Action} (h : Brokered P s a) : Clean P s a := by
  cases a with
  | wait => trivial
  | event ans => exact ⟨h.1, fun p hp ht => h.2 p hp (.inl ht)⟩

/-- The runs from an empty table in which no query fails and every message
carries its mac. -/
def brokeredServer (P : Params) : Machine State Action :=
  (server P).restrict (fun s => s.table.rows = []) (Brokered P)

instance (a : Action) : Decidable ((brokeredServer P).admits s a) :=
  inferInstanceAs (Decidable (((server P).restrict _ (Brokered P)).admits s a))

theorem reach_brokers (h : (brokeredServer P).Reach s) (hrun : s.stopped = none) : Brokers P s := by
  revert hrun
  refine reach_events (P := P) (I := fun s => s.stopped = none → Brokers P s) (fun s hi _ _ => ?_)
    (fun _ _ _ hrun _ ih _ => ⟨⟨(ih hrun).agrees.online, (ih hrun).agrees.owner⟩, (ih hrun).delivered⟩) ?_ h
  · refine ⟨⟨fun c => ?_, fun k => ?_⟩, ?_⟩
    · simp only [hi.trace, brokerOf, Broker.empty, Finset.notMem_empty, false_iff, not_exists]
      exact fun f hf => hi.no_peer f c (State.peerAt_eq_some.mp hf)
    · simp [hi.trace, brokerOf, Broker.empty, lastReg]
    · simp [hi.trace, brokerOf, Broker.empty, addressed]
  · rintro s ans e rest o s' hreach hrun hb ih hv hbatch hc hh rfl
    have hb' := book_handles hb hv hbatch hh
    have hclean : (cleanServer P).Reach s := hreach.restrict_mono (fun _ h => h) fun _ _ => Brokered.clean
    have hm : AgentMacs P s ans := (Brokered.clean (a := .event ans) hc).2
    obtain ⟨ht, hk⟩ := clean_refines hclean hrun hb
    have hle := hh.nextConn_le
    have ht' := (changes_refines hc.1 hm (handles_changes hb hb' hv hbatch hh) hle
      (fun f c hf => lt_of_lt_of_le (hb.numbered f c (State.peerAt_eq_some.mp hf)) hle) ht hk).1
    have hbrokers := handles_brokers hb hb' ht' hc.1 hv hbatch hc.2 (ih hrun) hh
    exact ⟨⟨hbrokers.agrees.online, hbrokers.agrees.owner⟩, hbrokers.delivered⟩

/-- A running server without failures is a broker: it has passed to `send` the
commands that the broker delivers, each for the connection it delivers it to;
its open connections are the clients of the broker; and the row of a key has
the descriptor of the client that would get a command for it. -/
theorem refines_broker (h : (brokeredServer P).Reach s) (hrun : s.stopped = none) :
    addressed s.trace = (brokerOf P.json s.trace).delivered.map (fun p => (p.1, some p.2)) ∧
    (∀ c, c ∈ (brokerOf P.json s.trace).online ↔ ∃ f, s.fds f = some (.peer c)) ∧
    ∀ k, (brokerOf P.json s.trace).recipient k = (s.table.lookup k).bind fun row => s.peerAt row.fd := by
  have hbrokers := reach_brokers h hrun
  have hb := reach_book h.of_restrict hrun
  have hclean : (cleanServer P).Reach s := h.restrict_mono (fun _ h => h) fun _ _ => Brokered.clean
  refine ⟨hbrokers.delivered, fun c => ?_, hbrokers.agrees.recipient_eq hb (clean_refines hclean hrun hb).1⟩
  rw [hbrokers.agrees.online c]
  exact exists_congr fun f => State.peerAt_eq_some

/-- Two agents register one mac, the second one leaves, and a UX client gives a
command before and after. -/
def twoAgents : List Action :=
  Flat.connect 6 ++ Flat.speaks 6 0 (Flat.hello "m") ++ Flat.connect 7 ++ Flat.speaks 7 1 (Flat.hello "m") ++
    Flat.connect 8 ++ Flat.one 8 (some 2) (Flat.answers (Flat.download "m") 9 10 (.sent 99)) ++ Flat.leaves 7 1 ++
    Flat.one 8 (some 2) (Flat.answers (Flat.download "m") 11 12 (.sent 99))

theorem refines_broker_twoAgents :
    let s := (brokeredServer Flat.params).exec (Flat.start .empty) twoAgents
    addressed s.trace = [(ascii "m", some 1)] ∧
      (brokerOf Flat.params.json s.trace).delivered.map (fun p => (p.1, some p.2)) = [(ascii "m", some 1)] ∧
      (brokerOf Flat.params.json s.trace).recipient (ascii "m") = none := by
  intro s
  have hs : addressed s.trace = [(ascii "m", some 1)] ∧ s.table.lookup (ascii "m") = none ∧ s.stopped = none := by
    decide +kernel
  have hreach : (brokeredServer Flat.params).Reach s :=
    .exec (.init ⟨Flat.initial_start .empty, rfl⟩) (by decide +kernel)
  obtain ⟨hsent, -, hrec⟩ := refines_broker hreach hs.2.2
  refine ⟨hs.1, hsent ▸ hs.1, ?_⟩
  rw [hrec, hs.2.1]
  rfl

end CmdAgent
