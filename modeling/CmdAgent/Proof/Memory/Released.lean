import CmdAgent.Proof.Memory.Runs
import CmdAgent.Proof.Survival
import CmdAgent.Proof.SendQueue

/-!
# Reading released memory

The session is shared by the events of a batch, and its pointers lead into
messages that are released before the next event is handled. A message that
does not bring its mac is served by reading one of these pointers. The memory it
leads into has been released just when an earlier message of the same batch has
set it, of this or of another connection, or when it was in the memory of the
session from the start, left there by an earlier batch (`released_iff`). Where
every message brings what is read to serve it, no run reads released memory, and
every run is one of the server (`carried_safe`).
-/

namespace CmdAgent.Memory

variable {P : Params} {m m' : Mem} {ans : Answers} {e : Ready}

/-! ## A message without a mac -/

/-- The mac of the session is in a message that has been released. -/
def Stale (m : Mem) : Prop := ∃ b, m.owner .minerMac = some b ∧ b < m.blocks.next ∧ ¬m.blocks.Live b

theorem Dangling.stale (h : Dangling m) (hm : m.owner .minerMac ≠ none) : Stale m := by
  obtain ⟨b, hb⟩ := Option.ne_none_iff_exists'.mp hm
  exact ⟨b, hb, h _ b hb⟩

theorem Stale.grows {n : Kind → Nat} (h : Stale m) (hg : Grows m m' n) : Stale m' := by
  obtain ⟨b, hb, hlt, hl⟩ := h
  exact ⟨b, hg.owner ▸ hb, lt_of_lt_of_le hlt hg.next, hg.not_live hlt hl⟩

/-- A message that does not bring a mac leaves the pointer as it is. -/
theorem Points.stale {only : Field → Bool} {ms : List Member} {doc n : Nat}
    (hp : Points m m' (fun f => sets only doc f (lastString f.key ms)) n)
    (hlast : lastString Field.minerMac.key ms = none) (h : Stale m) : Stale m' := by
  have howner : m'.owner .minerMac = m.owner .minerMac := by
    rw [hp.owner, hlast]
    unfold sets
    split <;> rfl
  obtain ⟨b, hb, hlt, hl⟩ := h
  exact ⟨b, howner.trans hb, lt_of_lt_of_le hlt hp.grows.next, hp.grows.not_live hlt hl⟩

/-- The program ends with a read of the mac in released memory. -/
def ReadsReleased {α : Type} (x : MProc α) (m : Mem) : Prop := ∃ m', x m = .error (.released .minerMac) m'

theorem ReadsReleased.bind {α β : Type} {x : MProc α} {f : α → MProc β} (h : ReadsReleased x m) :
    ReadsReleased (x >>= f) m := by
  obtain ⟨m', h⟩ := h
  exact ⟨m', bind_stop h⟩

theorem ReadsReleased.after {α β : Type} {x : MProc α} {f : α → MProc β} {a : α} (h : ReadsReleased (f a) m')
    (hx : x m = .ok a m') : ReadsReleased (x >>= f) m := by
  obtain ⟨m₁, h⟩ := h
  exact ⟨m₁, (bind_run hx).trans h⟩

theorem ReadsReleased.ends {α β : Type} {x : MProc α} {f : α → MProc β} {Q : α → Mem → Prop}
    (hx : Ends x m Q fun _ _ => False) (h : ∀ a m', Q a m' → ReadsReleased (f a) m') : ReadsReleased (x >>= f) m := by
  cases hr : x m with
  | ok a m' => exact (h a m' (hx.ok hr)).after hr
  | error e m' => exact (hx.error hr).elim

theorem lift_run {α : Type} {x : Proc α} {a : α} {s : State} (h : x m.server = .ok a s) :
    lift x m = .ok a { m with server := s } := by
  have hview : layer.view m = m.server := rfl
  unfold lift Layer.lift
  rw [hview, h]
  rfl

theorem deref_stale (h : Stale m) : ReadsReleased (deref .minerMac) m := by
  obtain ⟨b, hb, -, hl⟩ := h
  exact ⟨m, if_neg fun hall => hl (hall b hb)⟩

/-- The row of the UX clients is written first. -/
theorem serveUx_stale (hf : 0 ≤ m.server.session.fd ∧ m.server.session.fd < MAXFDS) (h : Stale m) :
    ReadsReleased (serveUx P ans) m := by
  have hget : lift get m = .ok m.server m := rfl
  have hinsert := lift_run (m := m) (mysqlInsertFd_run P.db ans (fits_uxSession hf) m.server)
  refine .after (.after (.bind (.bind (deref_stale ?_))) hinsert) hget
  exact h

theorem serveAgent_stale (h : Stale m) : ReadsReleased (serveAgent P ans) m := by
  have hget : lift get m = .ok m.server m := rfl
  exact .after (.bind (deref_stale h)) hget

/-- A message that needs a mac and does not bring it, after one that did. -/
theorem serve_stale {fd : Int} (hf : 0 ≤ fd ∧ fd < MAXFDS) {ms : List Member} (hreads : Reads ms .minerMac)
    (hlast : lastString Field.minerMac.key ms = none) (doc : Nat) (h : Stale m) :
    ReadsReleased (serve P ans fd (.object ms) doc) m := by
  unfold serve
  rw [getAgentType_object]
  rcases hreads with ht | ⟨ht, -⟩
  · rw [ht]
    show ReadsReleased (foreach (cmdMember doc) ms >>= fun _ => serveUx P ans)
      { m with server := { m.server with
          session := ms.foldl CmdAgent.cmdMember { m.server.session with fd := fd, agentType := .reqUx } } }
    refine .ends (foreach_ends (cmdMember_ends doc) ms _) fun _ m₁ hp => serveUx_stale ?_ ?_
    · rw [hp.server, foldl_cmdMember]
      exact hf
    · exact hp.stale hlast h
  · rw [ht]
    show ReadsReleased (foreach (agentMember doc) ms >>= fun _ => serveAgent P ans)
      { m with server := { m.server with
          session := ms.foldl CmdAgent.agentMember
            { m.server.session with fd := fd, agentType := .reqLinuxClaymore } } }
    refine .ends (foreach_ends (agentMember_ends doc) ms _) fun _ m₁ hp => serveAgent_stale ?_
    exact hp.stale hlast h

theorem handleEvent_stale (hf : 0 ≤ e.fd ∧ e.fd < MAXFDS) (he : e.Reads P) {ms : List Member}
    (hd : Delivers P ans ms) (hreads : Reads ms .minerMac) (hlast : lastString Field.minerMac.key ms = none)
    (h : Stale m) : ReadsReleased (handleEvent P ans e) m := by
  obtain ⟨data, hr, hj⟩ := hd
  have hevent : handleEvent P ans e = recvPeer P ans e.fd := by
    unfold handleEvent
    rw [if_neg (by simp [he.noError]), if_neg he.peer, if_pos he.epollin]
  have hassert := lift_run (m := m) (assertLtMaxfds_run hf m.server)
  have hslot := lift_run (m := m) (getSlot_run hf m.server)
  rw [hevent]
  refine .bind ?_
  rw [onPeerReadyRecv_eq, hr]
  refine .after (.after (.after (.after (.after (.after (.bind ?_) rfl) rfl) rfl) rfl) hslot) hassert
  rw [hj]
  exact serve_stale hf hreads hlast _ (h.grows ((((Grows.refl m).malloc .buffer).malloc .message).server _))

/-! ## In a batch -/

/-- The next event delivers a message that needs a mac and does not bring it. -/
def LacksMac (P : Params) (m : Mem) (ans : Answers) : Prop :=
  ∃ p ∈ message P m.server ans, Reads p.2 .minerMac ∧ lastString Field.minerMac.key p.2 = none

/-- One of the next events delivers a message that sets the mac. -/
def MacSet (P : Params) : Mem → List Answers → Prop
  | _, [] => False
  | m, ans :: as => (∃ p ∈ message P m.server ans, SetsMac p.2) ∨ MacSet P (next P m (.event ans)) as

instance (ms : List Member) (g : Field) : Decidable (Reads ms g) := inferInstanceAs (Decidable (_ ∨ _))

instance (ms : List Member) : Decidable (SetsMac ms) := inferInstanceAs (Decidable (_ ∧ _))

instance (m : Mem) (ans : Answers) : Decidable (LacksMac P m ans) :=
  inferInstanceAs (Decidable (∃ p ∈ message P m.server ans, _))

instance decidableMacSet : (m : Mem) → (as : List Answers) → Decidable (MacSet P m as)
  | _, [] => isFalse id
  | m, ans :: as =>
    have := decidableMacSet (next P m (.event ans)) as
    inferInstanceAs (Decidable ((∃ p ∈ message P m.server ans, SetsMac p.2) ∨ _))

theorem next_released (hreach : (memoryServer P).Reach m) (ha : (memoryServer P).admits m (.event ans)) :
    (next P m (.event ans)).fault = some (.released .minerMac) ↔ LacksMac P m ans ∧ m.owner .minerMac ≠ none := by
  have hbooks := (reach_sane hreach).books ha.1
  constructor
  · intro hf
    rcases next_event hreach hbooks ha with ⟨hn, -⟩ | ⟨f, hf', hcause⟩
    · rw [hn] at hf
      cases hf
    obtain rfl := Option.some.inj (hf'.symm.trans hf)
    rcases hcause with ⟨_, he⟩ | ⟨p, hp, g, he, hreads, hlast, howner⟩
    · cases he
    · obtain rfl := Fault.released.inj he
      exact ⟨⟨p, hp, hreads, hlast⟩, howner⟩
  · rintro ⟨⟨p, hp, hreads, hlast⟩, howner⟩
    obtain ⟨hfault, ⟨hrun, hne, hv⟩, -⟩ := ha
    obtain ⟨e, rest, hbatch⟩ := List.exists_cons_of_ne_nil hne
    have hsound : Sound m := fun f hf => by rw [hfault] at hf; cases hf
    have hok := (reach_book (reach_server hreach hsound) hrun).eventOk hv hbatch
    obtain ⟨he, -, hd⟩ := (mem_message hbatch).mp hp
    obtain ⟨h₁, h₂, -⟩ := hok.peer he.peer
    have hstale : Stale { m with server := { m.server with batch := rest } } := hbooks.dangling.stale howner
    obtain ⟨m', hx⟩ := handleEvent_stale ⟨h₁, h₂⟩ he hd hreads hlast hstale
    simp only [next, hbatch, finish, hx]

/-- As long as no message of the batch sets the mac, it leads nowhere. -/
theorem owner_exec {as : List Answers} (hreach : (memoryServer P).Reach m)
    (ha : (memoryServer P).Admits m (as.map .event))
    (hf : ((memoryServer P).exec m (as.map .event)).fault = none) :
    ((memoryServer P).exec m (as.map .event)).owner .minerMac = none ↔ m.owner .minerMac = none ∧ ¬MacSet P m as := by
  induction as generalizing m with
  | nil => exact (and_iff_left id).symm
  | cons ans as ih =>
    have hnext : (next P m (.event ans)).fault = none := by
      -- otherwise the run would have ended here
      cases as with
      | nil => exact hf
      | cons ans' as => exact ha.2.1.1
    have hbooks := (reach_sane hreach).books ha.1.1
    have hih := ih (.step hreach ha.1) ha.2 hf
    rcases next_event hreach hbooks ha.1 with ⟨-, hh⟩ | ⟨f, hf', -⟩
    · calc ((memoryServer P).exec (next P m (.event ans)) (as.map .event)).owner .minerMac = none
          ↔ (next P m (.event ans)).owner .minerMac = none ∧ ¬MacSet P (next P m (.event ans)) as := hih
        _ ↔ (m.owner .minerMac = none ∧ ¬∃ p ∈ message P m.server ans, SetsMac p.2) ∧
            ¬MacSet P (next P m (.event ans)) as := by rw [hh.mac]
        _ ↔ m.owner .minerMac = none ∧ ¬MacSet P m (ans :: as) := by rw [MacSet, not_or, and_assoc]
    · rw [hnext] at hf'
      cases hf'

/-- A message without its mac is served by reading released memory if and only if
the session has held a pointer to one from the start, or an earlier message of
the batch has set it. -/
theorem released_iff (h : (memoryServer P).Reach m) {session : Session} {owner : Field → Option Nat}
    {batch : List Ready} {as : List Answers}
    (ha : (memoryServer P).Admits m (.wait session owner batch :: as.map .event)) {m₁ m₂ : Mem}
    (h₁ : m₁ = next P m (.wait session owner batch)) (h₂ : m₂ = (memoryServer P).exec m₁ (as.map .event))
    (hans : (memoryServer P).admits m₂ (.event ans)) :
    (next P m₂ (.event ans)).fault = some (.released .minerMac) ↔
      LacksMac P m₂ ans ∧ (owner .minerMac ≠ none ∨ MacSet P m₁ as) := by
  subst h₁ h₂
  have hreach : (memoryServer P).Reach (next P m (.wait session owner batch)) := .step h ha.1
  have howner := (next_wait ((reach_sane h).books ha.1.1) session ha.1.2.2 batch).2.1
  rw [next_released (.exec hreach ha.2) hans, Ne, owner_exec hreach ha.2 hans.1, howner, not_and_or, not_not]

/-- Two agents speak in one batch. -/
def twoAgents : List Ready := [⟨6, { epollin := true }, some 0⟩, ⟨7, { epollin := true }, some 1⟩]

def withMac : Answers := { recvs := Flat.arrives (Flat.hello "m") }

def withoutMac : Answers := { recvs := Flat.arrives (Flat.text [("agent_type", "linux-claymore-nvidia")]) }

/-- Two agents are connected. -/
def connected : Mem :=
  (memoryServer Flat.params).exec (start .empty) ((Flat.connect 6 ++ Flat.connect 7).map .ofAction)

/-- The first of them has sent its mac, in the block 4. -/
def introduced : Mem :=
  (memoryServer Flat.params).exec (start .empty)
    ((Flat.connect 6 ++ Flat.connect 7 ++ Flat.one 6 (some 0) withMac).map .ofAction)

/-- The memory of the session still holds the pointer to a mac in the block 4. -/
def kept : Field → Option Nat
  | .minerMac => some 4
  | _ => none

theorem reach_connected : (memoryServer Flat.params).Reach connected :=
  .exec (.init (init_start .empty)) (by decide +kernel)

theorem reach_introduced : (memoryServer Flat.params).Reach introduced :=
  .exec (.init (init_start .empty)) (by decide +kernel)

/-- The first agent brings its mac and the second does not, in the same batch or
in the next. -/
theorem released_iff_twoAgents :
    let m₁ := next Flat.params connected (.wait Flat.garbage (fun _ => none) twoAgents)
    let m₂ := (memoryServer Flat.params).exec m₁ ([withMac].map .event)
    let n₁ := next Flat.params introduced (.wait Flat.garbage kept twoAgents.tail)
    (next Flat.params m₂ (.event withoutMac)).fault = some (.released .minerMac) ∧
      (next Flat.params n₁ (.event withoutMac)).fault = some (.released .minerMac) := by
  intro m₁ m₂ n₁
  have h₁ : m₁ = next Flat.params connected (.wait Flat.garbage (fun _ => none) twoAgents) := rfl
  have h₂ : m₂ = (memoryServer Flat.params).exec m₁ ([withMac].map .event) := rfl
  have hn₁ : n₁ = next Flat.params introduced (.wait Flat.garbage kept twoAgents.tail) := rfl
  have hnil : ∀ m, m = (memoryServer Flat.params).exec m (([] : List Answers).map .event) := fun _ => rfl
  have ha : (memoryServer Flat.params).Admits connected
      (.wait Flat.garbage (fun _ => none) twoAgents :: [withMac].map .event) := by decide +kernel
  have hb : (memoryServer Flat.params).Admits introduced
      (.wait Flat.garbage kept twoAgents.tail :: ([] : List Answers).map .event) := by decide +kernel
  have hm : (memoryServer Flat.params).admits m₂ (.event withoutMac) := by decide +kernel
  have hn : (memoryServer Flat.params).admits n₁ (.event withoutMac) := by decide +kernel
  have hset : LacksMac Flat.params m₂ withoutMac ∧ MacSet Flat.params m₁ [withMac] := by decide +kernel
  have hkept : LacksMac Flat.params n₁ withoutMac := by decide +kernel
  exact ⟨(released_iff reach_connected ha h₁ h₂ hm).mpr ⟨hset.1, .inr hset.2⟩,
    (released_iff reach_introduced hb hn₁ (hnil n₁) hn).mpr ⟨hkept, .inl (by simp [kept])⟩⟩

/-! ## Messages that bring all they need -/

/-- The next event delivers no message that is served by reading a field which it
does not bring. -/
def Carries (P : Params) (m : Mem) : Input → Prop
  | .wait _ _ _ => True
  | .event ans => ∀ p ∈ message P m.server ans, ∀ g, Reads p.2 g → lastString g.key p.2 ≠ none

/-- The runs whose messages bring all that is read to serve them. -/
def carryingServer (P : Params) : Machine Mem Input := (memoryServer P).restrict (fun _ => True) (Carries P)

/-- A step that brings all it needs reads no released memory. -/
theorem next_sound (hreach : (memoryServer P).Reach m) {a : Input} (ha : (memoryServer P).admits m a)
    (hcarries : Carries P m a) : Sound (next P m a) := by
  have hbooks := (reach_sane hreach).books ha.1
  intro f hf
  cases a with
  | wait session owner batch =>
    rw [(next_wait hbooks session ha.2.2 batch).1, ha.1] at hf
    cases hf
  | event ans =>
    rcases next_event hreach hbooks ha with ⟨hn, -⟩ | ⟨f', hf', hcause⟩
    · rw [hn] at hf
      cases hf
    · obtain rfl := Option.some.inj (hf'.symm.trans hf)
      rcases hcause with hs | ⟨p, hp, g, -, hreads, hlast, -⟩
      · exact hs
      · exact absurd hlast (hcarries p hp g hreads)

theorem carried_safe (h : (carryingServer P).Reach m) :
    Sound m ∧ (server P).Reach m.server := by
  have hsound : Sound m := by
    refine h.inv_of (J := (memoryServer P).Reach) (fun _ h => h.of_restrict) (fun m hi => ?_) fun m a hreach _ ha => ?_
    · intro f hf
      rw [hi.1.2.2.2.2] at hf
      cases hf
    · exact next_sound hreach ha.1 ha.2
  exact ⟨hsound, reach_server h.of_restrict hsound⟩

instance (m : Mem) : (a : Input) → Decidable (Carries P m a)
  | .wait _ _ _ => isTrue trivial
  | .event ans =>
    inferInstanceAs (Decidable (∀ p ∈ message P m.server ans, ∀ g, Reads p.2 g → lastString g.key p.2 ≠ none))

instance (m : Mem) (a : Input) : Decidable ((carryingServer P).admits m a) := inferInstanceAs (Decidable (_ ∧ _))

theorem carried_safe_commandsAndWaits :
    let m := (carryingServer Flat.params).exec (start .empty) commandsAndWaits
    (server Flat.params).Reach m.server ∧ (addressed m.server.trace).length = 1 := by
  intro m
  have hreach : (carryingServer Flat.params).Reach m :=
    .exec (.init ⟨init_start .empty, trivial⟩) (by decide +kernel)
  have hm : (addressed m.server.trace).length = 1 := by decide +kernel
  exact ⟨(carried_safe hreach).2, hm⟩

end CmdAgent.Memory
