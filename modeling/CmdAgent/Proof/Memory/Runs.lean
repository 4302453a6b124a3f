import CmdAgent.Proof.Memory.Erasure
import CmdAgent.Proof.Memory.Ledger
import CmdAgent.Proof.Record
import CmdAgent.Proof.Broker
import CmdAgent.Impl.Flat

/-!
# The memory of a run

In a run that has not ended, the blocks in use are the session of the present
batch and what is left of the messages before (`Books`), which is all that is
ever lost: a command leaves its text, the object it was made of and a stream, a
lookup its result, an empty path a block, and a read that ends before its
message does leaves its buffer (`memory_accounts`). No block is released twice.

An event ends a run only if the server stops or if a pointer is read that the
message has not set and that leads into an earlier one (`next_event`).
-/

namespace CmdAgent.Memory

variable {P : Params} {m m' : Mem} {ans : Answers} {e : Ready}

/-! ## An event -/

/-- The server goes on, and records nothing of which blocks are left. -/
theorem Handled.server {json : JsonC} {set : Prop} (h : Handled json m m' set) {s : State}
    (hs : ∀ most k, left most json k s.trace = left most json k m'.server.trace) :
    Handled json m { m' with server := s } set := by
  obtain ⟨n, hg, hk⟩ := h.accounts.grows
  refine ⟨⟨n, hg.server s, fun k => ?_⟩, h.dangling, h.mac⟩
  show _ + left false json k s.trace ≤ _ ∧ _ ≤ _ + left true json k s.trace
  rw [hs, hs]
  exact hk k

theorem Handled.refl (json : JsonC) (hd : Dangling m) {set : Prop} (hset : ¬set) : Handled json m m set :=
  ⟨⟨0, Grows.refl m, fun _ => ⟨le_rfl, le_rfl⟩⟩, hd, (and_iff_left hset).symm⟩

/-- What `epoll_ctl` and `close` follow upon. -/
theorem settle_left (json : JsonC) {fd : Int} (hfd : IsInt32 fd) (status : FdStatus) (s : State) :
    Ends (if status.wantRead = false ∧ status.wantWrite = false then do
        let _ ← mysqlDeleteFd P.db ans fd
        epollCtlDel ans fd
        close fd
      else epollCtlMod ans fd status.interest) s
      (fun _ s' => ∀ most k, left most json k s'.trace = left most json k s.trace) fun _ _ => True := by
  split
  · refine .bind ((mysqlDeleteFd_ends P.db ans hfd s).mono ?_ fun _ _ h => h.elim)
    rintro _ _ ⟨t, obs, -, hobs, rfl⟩
    refine .bind ?_
    unfold epollCtlDel
    refine .bind (.get ?_)
    split
    · exact .throw trivial
    · refine .modify (.modify fun most k => ?_)
      show left most json k (.closed fd _ :: (obs ++ s.trace)) = _
      rw [left_cons, left_append hobs]
      exact Nat.zero_add _
  · unfold epollCtlMod
    refine .bind (.get ?_)
    split
    · exact .throw trivial
    · exact .modify fun _ _ => rfl

/-- An accepted connection takes no block. -/
theorem acceptPeer_left (json : JsonC) (he : e.events.epollerr = false) (hl : e.fd = P.listener) {s : State}
    (hf : ∀ f, ans.accept = .accepted f → 0 ≤ f ∧ s.epoll f = none) :
    Ends (acceptPeer ans) s (fun _ s' => ∀ most k, left most json k s'.trace = left most json k s.trace)
      fun _ _ => True := by
  refine (acceptPeer_ends P ans e he hl hf).mono (fun _ s' h most k => ?_) fun _ _ _ => trivial
  cases h with
  | idle => rfl
  | accepted => exact Nat.zero_add _
  | again hr => exact absurd hl hr.peer
  | closed hr => exact absurd hl hr.peer
  | served hr => exact absurd hl hr.peer

theorem onPeerReadyRecv_ends {fd : Int} (hd : Dangling m) :
    Ends (onPeerReadyRecv P ans fd) m (fun _ m' => Handled P.json m m' (∃ ms, Delivers P ans ms ∧ SetsMac ms))
      (fun f _ => EventFault P m ans f) := by
  have hassert : Ends (assertLtMaxfds fd) m.server (fun _ s => s = m.server) fun _ _ => True := by
    unfold assertLtMaxfds
    split
    · rfl
    · trivial
  have hslot : Ends (getSlot fd) m.server (fun _ s => s = m.server) fun _ _ => True := by
    unfold getSlot
    split
    · rfl
    · trivial
  rw [onPeerReadyRecv_eq]
  refine .bind ((lift_stops hassert).mono ?_ fun _ _ h => .inl h)
  rintro _ m₁ ⟨hs₁, hm₁⟩
  rw [hs₁] at hm₁
  subst hm₁
  refine .bind ((lift_stops hslot).mono ?_ fun _ _ h => .inl h)
  rintro _ m₁ ⟨hs₁, hm₁⟩
  rw [hs₁] at hm₁
  subst hm₁
  exact .bind (.bind (onRead_ends hd rfl))

/-- Handling an event leaves the blocks that the record says, and otherwise the
server stops, or a pointer of an earlier message is read. -/
theorem handleEvent_ends (hok : EventOk P m.server ans e) (hd : Dangling m) :
    Ends (handleEvent P ans e) m
      (fun _ m' => Handled P.json m m' (e.Reads P ∧ ∃ ms, Delivers P ans ms ∧ SetsMac ms))
      (fun f _ => (∃ e', f = .stop e') ∨ e.Reads P ∧ EventFault P m ans f) := by
  unfold handleEvent
  split
  · exact .inl ⟨_, rfl⟩
  rename_i he
  rw [Bool.not_eq_true] at he
  split
  · rename_i hl
    refine (lift_stops (acceptPeer_left P.json he hl hok.accept)).mono ?_ fun _ _ h => .inl h
    rintro _ m' ⟨hleft, hm'⟩
    rw [hm']
    exact (Handled.refl P.json hd fun h => h.1.peer hl).server hleft
  rename_i hl
  split
  · rename_i hin
    obtain ⟨h₁, h₂, -⟩ := hok.peer hl
    refine .bind ((onPeerReadyRecv_ends hd).mono (fun status m₁ h => ?_) fun _ _ h => .inr ⟨⟨he, hl, hin⟩, h⟩)
    refine (lift_stops (settle_left P.json (isInt32_of_lt_maxfds ⟨h₁, h₂⟩) status m₁.server)).mono ?_ fun _ _ h => .inl h
    rintro _ m₂ ⟨hleft, hm₂⟩
    rw [hm₂, and_iff_right ⟨he, hl, hin⟩]
    exact h.server hleft
  · rename_i hin
    rw [if_neg (by simp [hok.epollout])]
    exact .pure (.refl P.json hd fun h => hin h.1.epollin)

/-! ## Runs -/

/-- The session of the present batch, once there is one. -/
def held (m : Mem) (k : Kind) : Nat := if m.session = none then 0 else one .session k

/-- The blocks in use are the session and those the record says are left. -/
structure Books (P : Params) (m : Mem) : Prop where
  session : ∀ b ∈ m.session, (b, .session) ∈ m.blocks.live
  dangling : Dangling m
  lower : ∀ k, held m k + left false P.json k m.server.trace ≤ m.blocks.count k
  upper : ∀ k, m.blocks.count k ≤ held m k + left true P.json k m.server.trace

theorem Books.handled {set : Prop} (h : Books P m) (hh : Handled P.json m m' set) : Books P m' := by
  obtain ⟨n, hg, hk⟩ := hh.accounts.grows
  have hsession : m'.session = m.session := hg.session
  have hheld : ∀ k, held m' k = held m k := fun k => by rw [held, held, hsession]
  have hcount : ∀ k, m'.blocks.count k = m.blocks.count k + n k := hg.count
  have hleft : ∀ k, 0 + left false P.json k m'.server.trace ≤ n k + left false P.json k m.server.trace ∧
    n k + left true P.json k m.server.trace ≤ 0 + left true P.json k m'.server.trace := hk
  refine ⟨fun b hb => ?_, hh.dangling, fun k => ?_, fun k => ?_⟩
  · rw [hsession] at hb
    have hlive := h.session b hb
    exact (hg.live _ (m.blocks.below _ hlive)).mpr hlive
  · have h₁ := h.lower k
    have h₂ := hleft k
    rw [hheld, hcount]
    omega
  · have h₁ := h.upper k
    have h₂ := hleft k
    rw [hheld, hcount]
    omega

/-- The session of the last batch is in use when it is released. -/
theorem Books.freeSession (h : Books P m) :
    ∃ a : Arena Kind, mjFree m.session m = .ok ⟨⟩ { m with blocks := a } ∧
      (m.blocks.next = a.next ∧ ∀ b, a.Live b → m.blocks.Live b) ∧
      ∀ k, m.blocks.count k = a.count k + held m k := by
  by_cases hs : m.session = none
  · have hfree : mjFree m.session = pure ⟨⟩ := by rw [hs, mjFree]
    refine ⟨m.blocks, by rw [hfree]; rfl, ⟨rfl, fun _ h => h⟩, fun k => ?_⟩
    rw [held, if_pos hs, Nat.add_zero]
  · obtain ⟨b, hb⟩ := Option.ne_none_iff_exists'.mp hs
    have hfree : mjFree m.session = free b := by rw [hb, mjFree]
    have hlive := h.session b hb
    refine ⟨m.blocks.free b, by rw [hfree]; exact free_run (Arena.live_of_mem hlive),
      ⟨rfl, fun _ h => (Arena.live_free.mp h).1⟩, fun k => ?_⟩
    rw [held, if_neg hs]
    exact Arena.count_free hlive k

/-- The next iteration of the loop has a session of its own. -/
theorem Books.nextBatch (h : Books P m) (session : Session) {owner : Field → Option Nat} (ho : Leftover m owner)
    (batch : List Ready) :
    ∃ m', nextBatch session owner batch m = .ok ⟨⟩ m' ∧ m'.fault = m.fault ∧ m'.owner = owner ∧ Books P m' := by
  obtain ⟨a, hfree, hgone, hcount⟩ := h.freeSession
  have hrun : Memory.nextBatch session owner batch m = .ok ⟨⟩
      { m with
        server := { m.server with session := session, batch := batch }
        blocks := a.alloc .session
        session := some a.next
        owner := owner } := by
    have hget : (get : MProc Mem) m = .ok m m := rfl
    unfold Memory.nextBatch
    rw [bind_run hget, bind_run hfree]
    rfl
  refine ⟨_, hrun, rfl, rfl, fun b hb => ?_, fun f b hb => ?_, fun k => ?_, fun k => ?_⟩
  · obtain rfl := Option.some.inj hb
    exact Arena.mem_alloc.mpr (.inl rfl)
  · obtain ⟨hlt, hl⟩ := ho f b hb
    have hlt' := hgone.1 ▸ hlt
    refine ⟨Nat.lt_succ_of_lt hlt', fun hlive => ?_⟩
    rcases Arena.live_alloc.mp hlive with rfl | hlive
    · exact lt_irrefl _ hlt'
    · exact hl (hgone.2 b hlive)
  · have h₁ := h.lower k
    have h₂ := hcount k
    show one .session k + left false P.json k m.server.trace ≤ (a.alloc .session).count k
    rw [Arena.count_alloc]
    unfold one
    omega
  · have h₁ := h.upper k
    have h₂ := hcount k
    show (a.alloc .session).count k ≤ one .session k + left true P.json k m.server.trace
    rw [Arena.count_alloc]
    unfold one
    omega

/-- What holds in every state of a run. -/
structure Sane (P : Params) (m : Mem) : Prop where
  inUse : m.fault ≠ some .notInUse
  books : m.fault = none → Books P m

theorem Books.of_initial (hi : (memoryServer P).init m) : Books P m := by
  obtain ⟨hserver, hblocks, hsession, howner, -⟩ := hi
  have hcount : ∀ k, m.blocks.count k = 0 := fun k => by rw [hblocks]; rfl
  have hheld : ∀ k, held m k = 0 := fun k => by rw [held, if_pos hsession]
  have hleft : ∀ most k, left most P.json k m.server.trace = 0 := fun most k => by rw [hserver.trace]; rfl
  refine ⟨fun b hb => ?_, fun f b hb => ?_, fun k => ?_, fun k => ?_⟩
  · rw [hsession] at hb
    cases hb
  · rw [howner] at hb
    cases hb
  · rw [hheld, hleft, hcount]
  · rw [hheld, hleft, hcount]

/-- What the next event delivers. -/
theorem mem_message {rest : List Ready} (hbatch : m.server.batch = e :: rest) {p : Int × List Member} :
    p ∈ message P m.server ans ↔ e.Reads P ∧ e.fd = p.1 ∧ Delivers P ans p.2 := message_eq_some hbatch

theorem exists_message {rest : List Ready} (hbatch : m.server.batch = e :: rest) {Q : List Member → Prop} :
    (∃ p ∈ message P m.server ans, Q p.2) ↔ e.Reads P ∧ ∃ ms, Delivers P ans ms ∧ Q ms := by
  constructor
  · rintro ⟨p, hp, hq⟩
    obtain ⟨he, -, hd⟩ := (mem_message hbatch).mp hp
    exact ⟨he, p.2, hd, hq⟩
  · rintro ⟨he, ms, hd, hq⟩
    exact ⟨(e.fd, ms), (mem_message hbatch).mpr ⟨he, rfl, hd⟩, hq⟩

/-- An event is handled, or it ends the run: the server stops, or the event
delivers a message that is served by reading a pointer which it has not set. -/
theorem next_event (hreach : (memoryServer P).Reach m) (h : Books P m)
    (ha : (memoryServer P).admits m (.event ans)) :
    (next P m (.event ans)).fault = none ∧
        Handled P.json m (next P m (.event ans)) (∃ p ∈ message P m.server ans, SetsMac p.2) ∨
      ∃ f, (next P m (.event ans)).fault = some f ∧ ((∃ e', f = .stop e') ∨ ∃ p ∈ message P m.server ans, ∃ g,
        f = .released g ∧ Reads p.2 g ∧ lastString g.key p.2 = none ∧ m.owner g ≠ none) := by
  obtain ⟨hfault, ⟨hrun, hne, hv⟩, -⟩ := ha
  obtain ⟨e, rest, hbatch⟩ := List.exists_cons_of_ne_nil hne
  have hsound : Sound m := fun f hf => by rw [hfault] at hf; cases hf
  have hok := (reach_book (reach_server hreach hsound) hrun).eventOk hv hbatch
  have hdangling : Dangling { m with server := { m.server with batch := rest } } := h.dangling
  have hend := handleEvent_ends hok hdangling
  have hnext : next P m (.event ans) =
      finish (handleEvent P ans e) { m with server := { m.server with batch := rest } } := by
    simp only [next, hbatch]
  rw [hnext, finish, exists_message hbatch]
  cases hx : handleEvent P ans e { m with server := { m.server with batch := rest } } with
  | ok _ m' =>
    have hh := hend.ok hx
    obtain ⟨n, hg, hk⟩ := hh.accounts.grows
    have hgrows : Grows m { m' with owner := m.owner } n :=
      ⟨hg.owner, hg.session, hg.fault, hg.next, hg.live, hg.count⟩
    exact .inl ⟨hg.fault.trans hfault, ⟨n, hgrows, hk⟩, hh.dangling, hh.mac⟩
  | error f m' =>
    refine .inr ⟨f, rfl, ?_⟩
    rcases hend.error hx with hs | ⟨he, hs | ⟨ms, g, b, hd, rfl, hreads, hlast, hb⟩⟩
    · exact .inl hs
    · exact .inl hs
    · refine .inr ⟨(e.fd, ms), (mem_message hbatch).mpr ⟨he, rfl, hd⟩, g, rfl, hreads, hlast, ?_⟩
      exact Option.ne_none_iff_exists'.mpr ⟨b, hb⟩

theorem next_wait (h : Books P m) (session : Session) {owner : Field → Option Nat} (ho : Leftover m owner)
    (batch : List Ready) :
    (next P m (.wait session owner batch)).fault = m.fault ∧ (next P m (.wait session owner batch)).owner = owner ∧
      Books P (next P m (.wait session owner batch)) := by
  obtain ⟨m', hrun, hb⟩ := h.nextBatch session ho batch
  have hnext : next P m (.wait session owner batch) = m' := by
    show finish (Memory.nextBatch session owner batch) m = m'
    rw [finish, hrun]
  rw [hnext]
  exact hb

theorem next_sane (hreach : (memoryServer P).Reach m) (h : Books P m) {a : Input}
    (ha : (memoryServer P).admits m a) : Sane P (next P m a) := by
  cases a with
  | wait session owner batch =>
    obtain ⟨hf, -, hb⟩ := next_wait h session ha.2.2 batch
    exact ⟨by rw [hf, ha.1]; simp, fun _ => hb⟩
  | event ans =>
    rcases next_event hreach h ha with ⟨hf, hh⟩ | ⟨f, hf, hcause⟩
    · exact ⟨by rw [hf]; simp, fun _ => h.handled hh⟩
    · refine ⟨fun hin => ?_, fun hn => by rw [hf] at hn; cases hn⟩
      obtain rfl := Option.some.inj (hf.symm.trans hin)
      rcases hcause with ⟨_, he⟩ | ⟨p, -, g, he, -⟩
      · cases he
      · cases he

theorem reach_sane (h : (memoryServer P).Reach m) : Sane P m := by
  refine h.inv_of (J := (memoryServer P).Reach) (fun _ h => h) (fun m hi => ?_) fun m a hreach ih ha => ?_
  · exact ⟨by rw [hi.2.2.2.2]; simp, fun _ => .of_initial hi⟩
  · exact next_sane hreach (ih.books ha.1) ha

/-! ## The balance -/

/-- A read that ended before its message did. -/
def waited : Obs → Bool
  | .received _ _ recvs => (readEnds [] recvs).map Prod.fst = some .again
  | _ => false

/-- The members of a message of a UX client. -/
def uxMembers (json : JsonC) : Obs → Option (List Member)
  | .handed _ _ text => (jsonObjectGetObject (parseStringToJson json text)).filter (agentTypeOf · = .reqUx)
  | _ => none

def uxMessages (json : JsonC) (tr : List Obs) : List (List Member) := tr.filterMap (uxMembers json)

/-- The blocks in use, kind by kind. -/
structure Balance (P : Params) (m : Mem) : Prop where
  session : m.blocks.count .session = if m.session = none then 0 else 1
  message : m.blocks.count .message = 0
  file : m.blocks.count .file = 0
  buffer : m.blocks.count .buffer = m.server.trace.countP waited
  blank : m.blocks.count .blank = ((uxMessages P.json m.server.trace).map blanks).sum
  reply : m.blocks.count .reply = (addressed m.server.trace).length
  stream : m.blocks.count .stream = (addressed m.server.trace).length
  command : m.blocks.count .command = (addressed m.server.trace).length
  /-- A lookup that fails has no result, and one that finds nothing has. -/
  result : (addressed m.server.trace).length ≤ m.blocks.count .result ∧
    m.blocks.count .result ≤ (uxMessages P.json m.server.trace).length

/-- What is left of the messages `ms` of UX clients, other than for a command. -/
def leftByUx (most : Bool) (k : Kind) (ms : List (List Member)) : Nat :=
  (ms.map fun ms => blanks ms * one .blank k + if most then one .result k else 0).sum

theorem leftByMessage_eq (most : Bool) (k : Kind) (msg : Json) :
    leftByMessage most k msg =
      leftByUx most k ((jsonObjectGetObject msg).filter (agentTypeOf · = .reqUx)).toList := by
  cases msg with
  | object ms =>
    by_cases ht : agentTypeOf ms = .reqUx
    · simp [leftByMessage, leftByUx, jsonObjectGetObject, Option.filter, ht]
    · simp [leftByMessage, leftByUx, jsonObjectGetObject, Option.filter, ht]
  | _ => rfl

theorem leftBy_eq (most : Bool) (json : JsonC) (k : Kind) (o : Obs) :
    leftBy most json k o = [o].countP waited * one .buffer k +
      (addressed [o]).length * (built k + if most then 0 else one .result k) +
      leftByUx most k (uxMembers json o).toList := by
  cases o with
  | received fd conn recvs =>
    by_cases hr : (readEnds [] recvs).map Prod.fst = some .again
    · simp [leftBy, waited, addressed, uxMembers, leftByUx, hr]
    · simp [leftBy, waited, addressed, uxMembers, leftByUx, hr]
  | handed fd conn text => simp [leftBy, waited, addressed, uxMembers, leftByMessage_eq]
  | sent mac fd conn data answer => simp [leftBy, waited, addressed, uxMembers, leftByUx]
  | _ => simp [leftBy, waited, addressed, uxMembers, leftByUx]

theorem addressed_cons (o : Obs) (tr : List Obs) : addressed (o :: tr) = addressed [o] ++ addressed tr := by
  cases o <;> rfl

theorem uxMessages_cons (json : JsonC) (o : Obs) (tr : List Obs) :
    uxMessages json (o :: tr) = (uxMembers json o).toList ++ uxMessages json tr := by
  unfold uxMessages
  cases ho : uxMembers json o with
  | none => rw [List.filterMap_cons_none ho, Option.toList_none, List.nil_append]
  | some ms => rw [List.filterMap_cons_some ho, Option.toList_some, List.singleton_append]

theorem left_eq (most : Bool) (json : JsonC) (k : Kind) (tr : List Obs) :
    left most json k tr = tr.countP waited * one .buffer k +
      (addressed tr).length * (built k + if most then 0 else one .result k) +
      leftByUx most k (uxMessages json tr) := by
  induction tr with
  | nil => simp [left, addressed, uxMessages, leftByUx]
  | cons o tr ih =>
    have hux : leftByUx most k (uxMessages json (o :: tr)) =
        leftByUx most k (uxMembers json o).toList + leftByUx most k (uxMessages json tr) := by
      rw [uxMessages_cons, leftByUx, List.map_append, List.sum_append]
      rfl
    rw [left_cons, ih, leftBy_eq, hux, addressed_cons o tr, List.length_append, ← List.singleton_append (x := o) (l := tr),
      List.countP_append]
    ring

theorem Books.balance (h : Books P m) : Balance P m := by
  have hlower (k : Kind) := h.lower k
  have hupper (k : Kind) := h.upper k
  simp only [left_eq] at hlower hupper
  have heq (k : Kind) (hk : k ≠ .result) : m.blocks.count k = held m k +
      (m.server.trace.countP waited * one .buffer k + (addressed m.server.trace).length * built k +
        ((uxMessages P.json m.server.trace).map blanks).sum * one .blank k) := by
    have hone : one .result k = 0 := if_neg hk.symm
    have hux (most : Bool) : leftByUx most k (uxMessages P.json m.server.trace) =
        ((uxMessages P.json m.server.trace).map blanks).sum * one .blank k := by
      simp [leftByUx, hone, List.sum_map_mul_right]
    have h₁ := hlower k
    have h₂ := hupper k
    rw [hux, hone] at h₁ h₂
    simp only [ite_self, Nat.add_zero] at h₁ h₂
    exact Nat.le_antisymm h₂ h₁
  have hheld (k : Kind) (hk : k ≠ .session) : held m k = 0 := by simp [held, one, hk.symm]
  have hresult (most : Bool) : leftByUx most .result (uxMessages P.json m.server.trace) =
      if most then (uxMessages P.json m.server.trace).length else 0 := by
    cases most <;> simp [leftByUx, one]
  have h₁ := hlower .result
  have h₂ := hupper .result
  rw [hresult, hheld .result (by decide)] at h₁ h₂
  have hlost (k : Kind) (hk : k ≠ .result) (hs : k ≠ .session) := (heq k hk).trans (by rw [hheld k hs, Nat.zero_add])
  refine ⟨?_, ?_, ?_, ?_, ?_, ?_, ?_, ?_, by simpa [one, built] using And.intro h₁ h₂⟩
  · rw [heq _ (by decide)]
    simp [held, one, built]
  all_goals
    rw [hlost _ (by decide) (by decide)]
    simp [one, built]

/-- No block is released that is not in use; as long as no released memory is
read, the run is one of the server; and the blocks in use are the session and
those that are lost. -/
theorem memory_accounts (h : (memoryServer P).Reach m) :
    m.fault ≠ some .notInUse ∧ (Sound m → (server P).Reach m.server) ∧ (m.fault = none → Balance P m) :=
  ⟨(reach_sane h).inUse, reach_server h, fun hf => ((reach_sane h).books hf).balance⟩

/-- The state in which the loop starts. -/
def start (t : Table) : Mem := ⟨Flat.start t, .empty, none, fun _ => none, none⟩

theorem init_start (t : Table) : (memoryServer Flat.params).init (start t) :=
  ⟨Flat.initial_start t, rfl, rfl, fun _ => rfl, rfl⟩

/-- An agent registers, a UX client asks for one that is not there and then for
the agent, and the agent begins a message that it does not finish. -/
def commandsAndWaits : List Input :=
  List.map Input.ofAction <| Flat.connect 6 ++ Flat.speaks 6 0 (Flat.hello "m") ++ Flat.connect 7 ++
    Flat.speaks 7 1 (Flat.download "n") ++ Flat.one 7 (some 1) (Flat.answers (Flat.download "m") 8 9 (.sent 99)) ++
    Flat.one 6 (some 0) { recvs := [.data (ascii "a") 1, .wouldBlock] }

theorem memory_accounts_commandsAndWaits :
    let m := (memoryServer Flat.params).exec (start .empty) commandsAndWaits
    (server Flat.params).Reach m.server ∧ Balance Flat.params m ∧ m.blocks.count .command = 1 ∧
      m.blocks.count .stream = 1 ∧ m.blocks.count .result = 2 ∧ m.blocks.count .buffer = 1 := by
  intro m
  have hm : m.fault = none ∧ m.blocks.count .command = 1 ∧ m.blocks.count .stream = 1 ∧
      m.blocks.count .result = 2 ∧ m.blocks.count .buffer = 1 := by decide +kernel
  have hreach : (memoryServer Flat.params).Reach m := .exec (.init (init_start .empty)) (by decide +kernel)
  obtain ⟨-, hserver, hbalance⟩ := memory_accounts hreach
  have hsound : Sound m := fun f hf => by rw [hm.1] at hf; cases hf
  exact ⟨hserver hsound, hbalance hm.1, hm.2⟩

end CmdAgent.Memory
