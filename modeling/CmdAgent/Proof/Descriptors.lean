import CmdAgent.Proof.Delivery

/-!
# The descriptors of the process

The descriptors that should be open are the listener, the epoll set, the
database and one for each connection that the trace has accepted and not
closed (`accounted`). Accepting and closing keep to it. Building a command
does not: `msg_client_info` opens the file twice and closes it once, so every
command that is sent leaves a stream open, and `descriptor_accounting` says
that nothing else does.
-/

namespace CmdAgent

variable {P : Params} {s s' : State} {ans : Answers} {e : Ready}

/-- The connection that the trace has accepted on `f` and not closed. -/
def openOn (f : Int) : List Obs → Option Nat
  | [] => none
  | .accepted g c :: tr => if f = g then some c else openOn f tr
  | .closed g _ :: tr => if f = g then none else openOn f tr
  | _ :: tr => openOn f tr

/-- The descriptors that should be open after a trace. -/
def accounted (P : Params) (tr : List Obs) (f : Int) : Option Resource :=
  if f = P.listener then some .listener
  else if f = P.epollfd then some .epoll
  else if f = P.dbfd then some .database
  else (openOn f tr).map .peer

/-- An observation that opens and closes no connection. -/
def Obs.Still : Obs → Prop
  | .accepted _ _ | .closed _ _ => False
  | _ => True

theorem Obs.Quiet.still {o : Obs} (h : o.Quiet) : o.Still := by
  cases o <;> first | exact h.elim | trivial

theorem accounted_append {new : List Obs} (h : ∀ o ∈ new, o.Still) (tr : List Obs) :
    accounted P (new ++ tr) = accounted P tr := by
  have hopen : ∀ f, openOn f (new ++ tr) = openOn f tr := fun f => by
    induction new with
    | nil => rfl
    | cons o new ih =>
      have ho := h o (List.mem_cons_self ..)
      have ih := ih fun o' ho' => h o' (List.mem_cons_of_mem _ ho')
      cases o with
      | accepted => exact ho.elim
      | closed => exact ho.elim
      | _ => exact ih
  funext f
  rw [accounted, accounted, hopen]

/-- A descriptor that is none of the server's own is accounted for by the
trace. -/
theorem accounted_of_not_own {f : Int} (h₁ : f ≠ P.listener) (h₂ : f ≠ P.epollfd) (h₃ : f ≠ P.dbfd)
    (tr : List Obs) : accounted P tr f = (openOn f tr).map .peer := by
  rw [accounted, if_neg h₁, if_neg h₂, if_neg h₃]

theorem Book.not_own (hb : Book P s) {f : Int}
    (hf : s.fds f ≠ some .listener ∧ s.fds f ≠ some .epoll ∧ s.fds f ≠ some .database) :
    f ≠ P.listener ∧ f ≠ P.epollfd ∧ f ≠ P.dbfd :=
  ⟨fun h => hf.1 ((hb.own f).1.mpr h), fun h => hf.2.1 ((hb.own f).2.1.mpr h),
    fun h => hf.2.2 ((hb.own f).2.2.mpr h)⟩

/-- A connection is opened or closed on a descriptor, and recorded. -/
theorem accounted_update {f : Int} (hf : f ≠ P.listener ∧ f ≠ P.epollfd ∧ f ≠ P.dbfd)
    (hs : ∀ g, s.fds g = accounted P s.trace g) {c : Option Nat} {o : Obs}
    (ho : ∀ g, openOn g (o :: s.trace) = if g = f then c else openOn g s.trace) (g : Int) :
    Function.update s.fds f (c.map .peer) g = accounted P (o :: s.trace) g := by
  by_cases hg : g = f
  · subst hg
    rw [Function.update_self, accounted_of_not_own hf.1 hf.2.1 hf.2.2, ho, if_pos rfl]
  · rw [Function.update_of_ne hg, hs g, accounted, accounted, ho, if_neg hg]

/-! ## Forwarding a command -/

/-- The next event delivers a UX message whose mac is found and whose command
can be built. -/
def Forwards (P : Params) (s : State) (ans : Answers) : Prop :=
  ∃ p ∈ message P s ans, agentTypeOf p.2 = .reqUx ∧
    (∃ m ∈ (uxSessionOf s.session p.1 p.2).minerMac.str?,
      0 ≤ found P.db ans m (insertTable P.db ans uxSession p.1 .reqUx s.table)) ∧
    Forwardable ans (uxSessionOf s.session p.1 p.2)

instance : Decidable (Forwards P s ans) := inferInstanceAs (Decidable (∃ _ ∈ _, _))

/-- A step that forwards no command. -/
def Frugal (P : Params) (s : State) : Action → Prop
  | .wait _ _ => True
  | .event ans => ¬ Forwards P s ans

instance : ∀ a, Decidable (Frugal P s a)
  | .wait _ _ => isTrue trivial
  | .event _ => inferInstanceAs (Decidable (¬ _))

def frugalServer (P : Params) : Machine State Action := (server P).restrict (fun _ => True) (Frugal P)

instance (a : Action) : Decidable ((frugalServer P).admits s a) :=
  inferInstanceAs (Decidable (((server P).restrict _ (Frugal P)).admits s a))

theorem Serves.still {fd : Int} {msg : Json} {o : Option Stop} (h : Serves P ans fd msg s o s') :
    accounted P s'.trace = accounted P s.trace := by
  obtain ⟨new, heq, hnew⟩ := h.trace_eq
  rw [heq]
  refine accounted_append (fun o ho => ?_) s.trace
  rcases hnew o ho with h | ⟨_, _, _, _, rfl⟩ | ⟨_, _, _, _, _, rfl⟩
  · exact h.still
  · trivial
  · trivial

/-- Serving a message leaves a stream open if and only if it forwards a
command. -/
theorem serves_fds (ha : ans.Valid s) {rest : List Ready} (hbatch : s.batch = e :: rest) (he : e.Reads P)
    {data : Bytes} (hr : (readEnds [] ans.recvs).map Prod.fst = some (.frame data))
    (h : Serves P ans e.fd (parseStringToJson P.json (cstr data))
      (handedOn { s with batch := rest } e.fd ans.recvs (cstr data)) none s') :
    (¬ Forwards P s ans → s'.fds = s.fds) ∧
      (Forwards P s ans → ∃ a, s.fds a = none ∧ s'.fds a = some .stream) := by
  have hmsg : ∀ {ms}, parseStringToJson P.json (cstr data) = .object ms → message P s ans = some (e.fd, ms) :=
    message_eq hbatch he hr
  -- a message that is no UX message, or does not find its mac, forwards nothing
  have hno : ∀ {ms}, parseStringToJson P.json (cstr data) = .object ms →
      (agentTypeOf ms = .reqUx → ∀ m, (uxSessionOf s.session e.fd ms).minerMac = .str m →
        found P.db ans m (insertTable P.db ans uxSession e.fd .reqUx s.table) < 0) → ¬ Forwards P s ans := by
    rintro ms hj hneg ⟨p, hp, ht, ⟨m, hm, hpos⟩, -⟩
    obtain rfl := Option.some.inj ((hmsg hj).symm.trans hp)
    exact absurd (hneg ht m (CharPtr.str?_eq_some.mp hm)) (not_lt.mpr hpos)
  cases h with
  | ignored hj ht => exact ⟨fun _ => rfl, fun hf => absurd hf (hno hj fun h => by rw [ht] at h; cases h)⟩
  | agent hj ht => exact ⟨fun _ => rfl, fun hf => absurd hf (hno hj fun h => by rw [ht] at h; cases h)⟩
  | ux hj ht _ ho =>
    obtain ⟨-, m, hm, hneg⟩ := ho.resolve_left (by simp)
    refine ⟨fun _ => rfl, fun hf => absurd hf (hno hj fun _ m' hm' => ?_)⟩
    rw [CharPtr.str.inj (hm'.symm.trans hm)]
    exact hneg
  | @uxSent ms _ _ _ m _ f a b _ hj ht _ hm _ _ hfound hpos hfw h₁ h₂ =>
    refine ⟨fun hf => absurd ⟨_, hmsg hj, ht, ⟨m, CharPtr.str?_eq_some.mpr hm, hfound ▸ hpos⟩, hfw⟩ hf, fun _ => ?_⟩
    have hab : a ≠ b := fun h => (ha.stream₂ b h₂).2 (h ▸ h₁)
    exact ⟨a, (ha.stream₁ a h₁).2, by simp [afterStreams, hab]⟩

/-- A step keeps the descriptors accounted for if and only if it forwards no
command. -/
theorem handles_accounted (hb : Book P s) (ha : ans.Valid s) {rest : List Ready} (hbatch : s.batch = e :: rest)
    (hs : ∀ f, s.fds f = accounted P s.trace f) (hh : Handles P ans e { s with batch := rest } none s') :
    (∀ f, s'.fds f = accounted P s'.trace f) ↔ ¬ Forwards P s ans := by
  have hnot : ¬ e.Reads P ∨ (∀ data, (readEnds [] ans.recvs).map Prod.fst ≠ some (.frame data)) →
      ¬ Forwards P s ans := by
    rintro h ⟨p, hp, -⟩
    obtain ⟨q, hq, -⟩ := Option.bind_eq_some_iff.mp hp
    unfold incoming at hq
    split at hq
    · rename_i e' rest' data hbatch' hr
      obtain ⟨rfl, -⟩ := List.cons.inj (hbatch.symm.trans hbatch')
      split at hq
      · rename_i he
        exact h.elim (fun h => h he) fun h => h data hr
      · cases hq
    · cases hq
  cases hh with
  | idle he h =>
    refine ⟨fun _ => hnot (.inl fun hr => ?_), fun _ => hs⟩
    exact h.elim hr.peer fun h => by rw [hr.epollin] at h; cases h
  | @accepted f he hl hacc hlt =>
    refine ⟨fun _ => hnot (.inl fun hr => hr.peer hl), fun _ => ?_⟩
    have hfree := (ha.accept f hacc).2
    exact accounted_update (c := some s.nextConn) (o := .accepted f s.nextConn)
      (hb.not_own (by simp [hfree])) hs fun g => rfl
  | again he hr => exact ⟨fun _ => hnot (.inr fun _ h => by rw [hr] at h; cases h), fun _ => hs⟩
  | @closed t obs he hr hd hobs =>
    refine ⟨fun _ => hnot (.inr fun _ h => by rw [hr] at h; cases h), fun _ => ?_⟩
    obtain ⟨c, hc⟩ := hb.sender he hbatch
    have htr : accounted P (obs ++ .received e.fd (s.peerAt e.fd) ans.recvs :: s.trace) = accounted P s.trace :=
      accounted_append (fun o ho => (hobs o ho).still) _
    exact accounted_update (s := { s with trace := obs ++ .received e.fd (s.peerAt e.fd) ans.recvs :: s.trace })
      (c := none) (o := .closed e.fd (s.peerAt e.fd)) (hb.not_own (by simp [hc]))
      (fun g => (hs g).trans (congrFun htr g).symm) fun g => rfl
  | @served data s₁ he hr h _ =>
    obtain ⟨hkeep, hleak⟩ := serves_fds ha hbatch he hr h
    have htr : accounted P s₁.trace = accounted P s.trace := h.still
    constructor
    · intro hacc hf
      obtain ⟨a, hnone, hstream⟩ := hleak hf
      have hacc' : s₁.fds a = accounted P s₁.trace a := hacc a
      rw [htr, ← hs a, hnone, hstream] at hacc'
      cases hacc'
    · intro hf f
      have hfds := hkeep hf
      show s₁.fds f = accounted P s₁.trace f
      rw [hfds, htr]
      exact hs f

/-- The open descriptors are the listener, the epoll set, the database and one
for each open connection, in every run that forwards no command; and the next
step keeps them so if and only if it forwards none. -/
theorem descriptor_accounting (h : (frugalServer P).Reach s) (hrun : s.stopped = none) :
    (∀ f, s.fds f = accounted P s.trace f) ∧
    ∀ ans, admits s (.event ans) → (next P s (.event ans)).stopped = none →
      ((∀ f, (next P s (.event ans)).fds f = accounted P (next P s (.event ans)).trace f) ↔ ¬ Forwards P s ans) := by
  have hacc : s.stopped = none → ∀ f, s.fds f = accounted P s.trace f := by
    refine reach_events (P := P) (I := fun s => s.stopped = none → ∀ f, s.fds f = accounted P s.trace f)
      (fun s hi _ _ f => ?_) (fun _ _ _ hrun _ ih _ => ih hrun) ?_ h
    · rw [hi.fds, hi.trace]; rfl
    · rintro s ans e rest o s' - hrun hb ih hv hbatch hc hh rfl
      exact (handles_accounted hb hv hbatch (ih hrun) hh).mpr hc
  refine ⟨hacc hrun, fun ans ha hrun' => ?_⟩
  obtain ⟨-, hne, hv⟩ := ha
  have hb := reach_book h.of_restrict hrun
  obtain ⟨e, rest, hbatch⟩ := List.exists_cons_of_ne_nil hne
  obtain ⟨o, s', hh, heq⟩ := next_event hb hrun hv hbatch
  rw [heq] at hrun' ⊢
  obtain rfl : o = none := hrun'
  have hiff := handles_accounted hb hv hbatch (hacc hrun) hh
  exact hiff

/-- A UX client asks for an agent that is not there and leaves, and another
client gets its descriptor. -/
def inVain : State :=
  (frugalServer Flat.params).exec (Flat.start .empty)
    (Flat.connect 6 ++ Flat.one 6 (some 0) (Flat.answers (Flat.download "m") 7 8 (.sent 99)) ++ Flat.leaves 6 0 ++
      Flat.connect 6)

theorem descriptor_accounting_inVain :
    inVain.fds 6 = some (.peer 1) ∧ ∀ f, inVain.fds f = accounted Flat.params inVain.trace f := by
  have hreach : (frugalServer Flat.params).Reach inVain :=
    .exec (.init ⟨Flat.initial_start .empty, trivial⟩) (by decide +kernel)
  have hs : inVain.stopped = none ∧ inVain.fds 6 = some (.peer 1) := by decide +kernel
  exact ⟨hs.2, (descriptor_accounting hreach hs.1).1⟩

/-- The command sent to the agent has left a stream open on descriptor 8. -/
theorem descriptor_accounting_delivered :
    ¬ ∀ (P : Params) (s : State), (server P).Reach s → s.stopped = none →
      ∀ f, s.fds f = accounted P s.trace f := by
  intro h
  have hs : delivered.stopped = none ∧ delivered.fds 8 = some .stream ∧
      accounted Flat.params delivered.trace 8 = none := by decide +kernel
  have h8 := h Flat.params delivered reach_delivered.of_restrict hs.1 8
  rw [hs.2.1, hs.2.2] at h8
  cases h8

end CmdAgent
