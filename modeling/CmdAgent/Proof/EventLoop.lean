import CmdAgent.Proof.Step
import CmdAgent.Impl.Flat

/-!
# The bookkeeping of the event loop

`Book` relates the epoll set, the open descriptors and the events of the batch
that are still to be handled: the peers in the epoll set are the open
connections, registered for reading only, on descriptors in range; and each
event left in the batch is for a descriptor that still has the connection it
was reported for, because only the event of a descriptor closes it and no two
events are for the same one. Every step keeps it (`book_next`).

The asserts of the callbacks and the indices into `global_state` depend on
nothing else, and no event is for writing, so the process never ends at one of
them and never calls `on_peer_ready_send`.
-/

namespace CmdAgent

structure Book (P : Params) (s : State) : Prop where
  own : ∀ f, (s.fds f = some .listener ↔ f = P.listener) ∧ (s.fds f = some .epoll ↔ f = P.epollfd) ∧
    (s.fds f = some .database ↔ f = P.dbfd)
  listens : s.epoll P.listener = some readable
  registered : ∀ f, f ≠ P.listener → (s.epoll f ≠ none ↔ ∃ c, s.fds f = some (.peer c))
  interest : ∀ f i, s.epoll f = some i → i = readable
  range : ∀ f c, s.fds f = some (.peer c) → 0 ≤ f ∧ f < MAXFDS
  inj : ∀ f g c, s.fds f = some (.peer c) → s.fds g = some (.peer c) → f = g
  numbered : ∀ f c, s.fds f = some (.peer c) → c < s.nextConn
  nodup : (s.batch.map Ready.fd).Nodup
  batch : ∀ e ∈ s.batch, e.events.epollout = false ∧
    (e.fd = P.listener ∨ ∃ c, e.reported = some c ∧ s.fds e.fd = some (.peer c))

/-- The descriptors of streams are not open yet. -/
def StreamsFresh (ans : Answers) (s : State) : Prop :=
  ∀ f, ans.stream₁ = some f ∨ ans.stream₂ = some f → s.fds f = none

theorem Answers.Valid.streamsFresh {s : State} {ans : Answers} (h : ans.Valid s) : StreamsFresh ans s :=
  fun f hf => hf.elim (fun h₁ => (h.stream₁ f h₁).2) (fun h₂ => (h.stream₂ f h₂).1.2)

/-- Streams aside, the open descriptors are the same. -/
theorem FdsKept.fds_iff {ans : Answers} {s : State} {fds' : Int → Option Resource} (h : FdsKept ans s.fds fds')
    (hf : StreamsFresh ans s) {f : Int} {r : Resource} (hr : r ≠ .stream) :
    fds' f = some r ↔ s.fds f = some r := by
  rcases h f with he | ⟨hs, he⟩
  · rw [he]
  · rw [hf f hs]
    rcases he with he | he <;> simp [he, hr.symm]

/-- No connection is open when the loop starts. -/
theorem Initial.no_peer {P : Params} {s : State} (h : Initial P s) (f : Int) (c : Nat) :
    s.fds f ≠ some (.peer c) := by
  rw [h.fds, initialFds]; split_ifs <;> simp

namespace Book

variable {P : Params} {s s' : State}

theorem epoll_eq (h : Book P s) {f : Int} (hf : s.epoll f ≠ none) : s.epoll f = some readable := by
  obtain ⟨i, hi⟩ := Option.ne_none_iff_exists'.mp hf
  rw [hi, h.interest f i hi]

/-- Registering a descriptor that is registered changes nothing. -/
theorem update_epoll (h : Book P s) {f : Int} (hf : s.epoll f ≠ none) :
    Function.update s.epoll f (some readable) = s.epoll := by
  rw [← h.epoll_eq hf, Function.update_eq_self]

theorem ne_listener (h : Book P s) {f : Int} {c : Nat} (hf : s.fds f = some (.peer c)) : f ≠ P.listener :=
  fun e => by
    have := ((h.own f).1).mpr e
    rw [hf] at this
    cases this

theorem epoll_of_peer (h : Book P s) {f : Int} {c : Nat} (hf : s.fds f = some (.peer c)) :
    s.epoll f = some readable :=
  h.epoll_eq ((h.registered f (h.ne_listener hf)).mpr ⟨c, hf⟩)

/-- A descriptor that is not open is not registered. -/
theorem epoll_of_fresh (h : Book P s) {f : Int} (hf : s.fds f = none) : s.epoll f = none := by
  by_contra he
  have hl : f ≠ P.listener := fun e => by
    have := ((h.own f).1).mpr e
    rw [hf] at this
    cases this
  obtain ⟨c, hc⟩ := (h.registered f hl).mp he
  rw [hf] at hc
  cases hc

/-- What is known of the next event of the batch. -/
theorem eventOk (h : Book P s) {ans : Answers} (ha : ans.Valid s) {e : Ready} {rest : List Ready}
    (hb : s.batch = e :: rest) : EventOk P { s with batch := rest } ans e := by
  obtain ⟨hout, hfd⟩ := h.batch e (by rw [hb]; exact List.mem_cons_self ..)
  refine ⟨hout, fun hl => ?_, fun f hf => ?_⟩
  · obtain ⟨c, -, hc⟩ := hfd.resolve_left hl
    obtain ⟨h₁, h₂⟩ := h.range _ _ hc
    exact ⟨h₁, h₂, (h.registered _ hl).mpr ⟨c, hc⟩⟩
  · obtain ⟨h₁, h₂⟩ := ha.accept f hf
    exact ⟨h₁, h.epoll_of_fresh h₂⟩

/-- A step that opens and closes streams only. -/
theorem congr (h : Book P s) (hf : ∀ {f r}, r ≠ .stream → (s'.fds f = some r ↔ s.fds f = some r))
    (he : s'.epoll = s.epoll) (hn : s'.nextConn = s.nextConn) (hb : s'.batch.Sublist s.batch) :
    Book P s' where
  own f := by
    rw [hf (by decide), hf (by decide), hf (by decide)]
    exact h.own f
  listens := he ▸ h.listens
  registered f hl := by simpa only [he, hf (r := .peer _) (by simp)] using h.registered f hl
  interest f i hi := h.interest f i (he ▸ hi)
  range f c hc := h.range f c ((hf (by simp)).mp hc)
  inj f g c h₁ h₂ := h.inj f g c ((hf (by simp)).mp h₁) ((hf (by simp)).mp h₂)
  numbered f c hc := hn ▸ h.numbered f c ((hf (by simp)).mp hc)
  nodup := (hb.map _).nodup h.nodup
  batch e hm := by
    obtain ⟨h₁, h₂⟩ := h.batch e (hb.subset hm)
    exact ⟨h₁, h₂.imp_right fun ⟨c, hc, hp⟩ => ⟨c, hc, (hf (by simp)).mpr hp⟩⟩

/-- A new connection on a descriptor that was not open. -/
theorem opened (h : Book P s) {f : Int} (hf : s.Fresh f) (hlt : f < MAXFDS)
    (hfds : s'.fds = Function.update s.fds f (some (.peer s.nextConn)))
    (he : s'.epoll = Function.update s.epoll f (some readable)) (hn : s'.nextConn = s.nextConn + 1)
    (hb : s'.batch.Sublist s.batch) : Book P s' := by
  obtain ⟨h₀, hnone⟩ := hf
  have hne : ∀ {g r}, s.fds g = some r → g ≠ f := fun hg e => by rw [e, hnone] at hg; cases hg
  have hfl : f ≠ P.listener := fun e => hne (((h.own f).1).mpr e) rfl
  -- the connection on a descriptor is the new one or an old one
  have hpeer : ∀ {g c}, s'.fds g = some (.peer c) →
      g = f ∧ c = s.nextConn ∨ g ≠ f ∧ s.fds g = some (.peer c) := fun {g c} hg => by
    by_cases hgf : g = f
    · subst hgf
      rw [hfds, Function.update_self, Option.some.injEq, Resource.peer.injEq] at hg
      exact .inl ⟨rfl, hg.symm⟩
    · rw [hfds, Function.update_of_ne hgf] at hg
      exact .inr ⟨hgf, hg⟩
  have hold : ∀ {g}, g ≠ f → s'.fds g = s.fds g := fun hg => by rw [hfds, Function.update_of_ne hg]
  refine ⟨fun g => ?_, ?_, fun g hg => ?_, fun g i hi => ?_, fun g c hg => ?_, fun g g' c hg hg' => ?_,
    fun g c hg => ?_, (hb.map _).nodup h.nodup, fun e hm => ?_⟩
  · by_cases hgf : g = f
    · have ho := h.own f
      rw [hnone] at ho
      rw [hgf, hfds, Function.update_self]
      simpa using ho
    · rw [hold hgf]; exact h.own g
  · rw [he, Function.update_of_ne hfl.symm]; exact h.listens
  · by_cases hgf : g = f
    · subst hgf; simp [he, hfds]
    · rw [he, hold hgf, Function.update_of_ne hgf]; exact h.registered g hg
  · by_cases hgf : g = f
    · subst hgf; simpa [he, eq_comm] using hi
    · rw [he, Function.update_of_ne hgf] at hi; exact h.interest g i hi
  · rcases hpeer hg with ⟨rfl, -⟩ | ⟨-, hg⟩
    · exact ⟨h₀, hlt⟩
    · exact h.range g c hg
  · rcases hpeer hg with ⟨rfl, rfl⟩ | ⟨-, h₁⟩ <;> rcases hpeer hg' with ⟨rfl, h₂⟩ | ⟨-, h₂⟩
    · rfl
    · exact absurd (h.numbered _ _ h₂) (lt_irrefl _)
    · subst h₂; exact absurd (h.numbered _ _ h₁) (lt_irrefl _)
    · exact h.inj g g' c h₁ h₂
  · rw [hn]
    rcases hpeer hg with ⟨-, rfl⟩ | ⟨-, hg⟩
    · omega
    · exact Nat.lt_succ_of_lt (h.numbered g c hg)
  · obtain ⟨h₁, h₂⟩ := h.batch e (hb.subset hm)
    refine ⟨h₁, h₂.imp_right fun ⟨c, hc, hp⟩ => ⟨c, hc, ?_⟩⟩
    rw [hold (hne hp)]; exact hp

/-- A connection closed by its own event, which is no longer in the batch. -/
theorem closed (h : Book P s) {f : Int} {c : Nat} (hf : s.fds f = some (.peer c))
    (hfds : s'.fds = Function.update s.fds f none) (he : s'.epoll = Function.update s.epoll f none)
    (hn : s'.nextConn = s.nextConn) (hb : s'.batch.Sublist s.batch) (hne : ∀ e ∈ s'.batch, e.fd ≠ f) :
    Book P s' := by
  have hfl := h.ne_listener hf
  have hold : ∀ {g}, g ≠ f → s'.fds g = s.fds g := fun hg => by rw [hfds, Function.update_of_ne hg]
  have hpeer : ∀ {g c}, s'.fds g = some (.peer c) → s.fds g = some (.peer c) := fun {g c} hg => by
    by_cases hgf : g = f
    · subst hgf; rw [hfds, Function.update_self] at hg; cases hg
    · rwa [hold hgf] at hg
  refine ⟨fun g => ?_, ?_, fun g hg => ?_, fun g i hi => ?_, fun g c hg => h.range g c (hpeer hg),
    fun g g' c hg hg' => h.inj g g' c (hpeer hg) (hpeer hg'), fun g c hg => hn ▸ h.numbered g c (hpeer hg),
    (hb.map _).nodup h.nodup, fun e hm => ?_⟩
  · by_cases hgf : g = f
    · have ho := h.own f
      rw [hf] at ho
      rw [hgf, hfds, Function.update_self]
      simpa using ho
    · rw [hold hgf]; exact h.own g
  · rw [he, Function.update_of_ne hfl.symm]; exact h.listens
  · by_cases hgf : g = f
    · subst hgf; simp [he, hfds]
    · rw [he, hold hgf, Function.update_of_ne hgf]; exact h.registered g hg
  · by_cases hgf : g = f
    · subst hgf; rw [he, Function.update_self] at hi; cases hi
    · rw [he, Function.update_of_ne hgf] at hi; exact h.interest g i hi
  · obtain ⟨h₁, h₂⟩ := h.batch e (hb.subset hm)
    refine ⟨h₁, h₂.imp_right fun ⟨c, hc, hp⟩ => ⟨c, hc, ?_⟩⟩
    rw [hold (hne e hm)]; exact hp

theorem of_initial (h : Initial P s) : Book P s := by
  obtain ⟨hd₁, hd₂, hd₃⟩ := P.distinct
  have hfds := h.no_peer
  refine ⟨fun f => ?_, ?_, fun f hl => ?_, fun f i hi => ?_, fun f c hc => absurd hc (hfds f c),
    fun f g c hc => absurd hc (hfds f c), fun f c hc => absurd hc (hfds f c), by simp [h.batch],
    by simp [h.batch]⟩
  · rw [h.fds, initialFds]
    split_ifs <;> simp_all
  · rw [h.epoll, initialEpoll, if_pos rfl]; rfl
  · rw [h.epoll, initialEpoll, if_neg hl]
    simpa using hfds f
  · rw [h.epoll, initialEpoll] at hi
    split_ifs at hi
    exact (Option.some.inj hi).symm

end Book

/-! ## Steps -/

variable {P : Params} {s s' : State}

theorem Handles.stopped {ans : Answers} {e : Ready} {o : Option Stop} (h : Handles P ans e s o s') :
    s'.stopped = s.stopped := by
  cases h with
  | served _ _ hs => exact hs.stopped
  | serveDied _ _ hs => exact hs.stopped
  | serveStopped _ _ hs => exact hs.stopped
  | _ => rfl

/-- A step that handles an event does one of the things `Handles` lists. -/
theorem next_event (h : Book P s) (hrun : s.stopped = none) {ans : Answers} (ha : ans.Valid s) {e : Ready}
    {rest : List Ready} (hb : s.batch = e :: rest) :
    ∃ o s', Handles P ans e { s with batch := rest } o s' ∧
      next P s (.event ans) = { s' with stopped := o } := by
  have hend := handleEvent_ends P ans e (h.eventOk ha hb)
  simp only [next, hb, finish]
  cases hx : handleEvent P ans e { s with batch := rest } with
  | ok _ s' =>
    have hh := hend.ok hx
    refine ⟨none, s', hh, ?_⟩
    have : s'.stopped = none := hh.stopped.trans hrun
    simp only [← this]
  | error r s' => exact ⟨some r, s', hend.error hx, rfl⟩

theorem book_handles (h : Book P s) {ans : Answers} (ha : ans.Valid s) {e : Ready} {rest : List Ready}
    (hb : s.batch = e :: rest) (hh : Handles P ans e { s with batch := rest } none s') : Book P s' := by
  have hsub : rest.Sublist s.batch := hb ▸ List.sublist_cons_self e rest
  have hpeer : e.fd ≠ P.listener → ∃ c, s.fds e.fd = some (.peer c) := fun hl => by
    obtain ⟨c, -, hc⟩ := (h.batch e (by rw [hb]; exact List.mem_cons_self ..)).2.resolve_left hl
    exact ⟨c, hc⟩
  have hupd : e.fd ≠ P.listener → Function.update s.epoll e.fd (some readable) = s.epoll := fun hl =>
    h.update_epoll ((h.registered _ hl).mpr (hpeer hl))
  cases hh with
  | idle => exact h.congr (fun _ => Iff.rfl) rfl rfl hsub
  | accepted _ _ hacc hlt => exact h.opened (ha.accept _ hacc) hlt rfl rfl rfl hsub
  | again he => exact h.congr (fun _ => Iff.rfl) (hupd he.peer) rfl hsub
  | closed he =>
    obtain ⟨c, hc⟩ := hpeer he.peer
    refine h.closed hc rfl rfl rfl hsub fun e' he' heq => ?_
    have hnd := h.nodup
    rw [hb, List.map_cons, List.nodup_cons] at hnd
    exact hnd.1 (heq ▸ List.mem_map_of_mem he')
  | served he _ hs =>
    refine h.congr (fun hr => hs.fdsKept.fds_iff ha.streamsFresh hr) (hupd he.peer) hs.nextConn ?_
    rw [show (_ : State).batch = rest from hs.batch]
    exact hsub

/-- Every step of the loop that does not end the process keeps the books. -/
theorem book_next (h : Book P s) {a : Action} (ha : admits s a) (hrun : (next P s a).stopped = none) :
    Book P (next P s a) := by
  cases a with
  | wait session batch =>
    obtain ⟨-, -, hnd, hval⟩ := ha
    refine ⟨h.own, h.listens, h.registered, h.interest, h.range, h.inj, h.numbered, hnd, fun e he => ?_⟩
    have hv := hval e he
    refine ⟨?_, ?_⟩
    · by_contra hout
      rw [Bool.not_eq_false] at hout
      have := hv.epollout hout
      rw [h.epoll_eq hv.registered] at this
      cases this
    · by_cases hl : e.fd = P.listener
      · exact .inl hl
      · obtain ⟨c, hc⟩ := (h.registered _ hl).mp hv.registered
        exact .inr ⟨c, hv.reported.trans (State.peerAt_eq_some.mpr hc), hc⟩
  | event ans =>
    obtain ⟨hs, hne, hv⟩ := ha
    obtain ⟨e, rest, hb⟩ := List.exists_cons_of_ne_nil hne
    obtain ⟨o, s', hh, heq⟩ := next_event h hs hv hb
    rw [heq] at hrun ⊢
    obtain rfl : o = none := hrun
    have hb' := book_handles h hv hb hh
    exact hb'.congr (fun _ => Iff.rfl) rfl rfl (List.Sublist.refl _)

theorem admits_running {a : Action} (ha : admits s a) : s.stopped = none := by
  cases a <;> exact ha.1

/-- The books are kept as long as the process runs. -/
theorem reach_book (h : (server P).Reach s) : s.stopped = none → Book P s :=
  h.inv (I := fun s => s.stopped = none → Book P s) (fun _ hi _ => Book.of_initial hi)
    fun _ _ ih ha hrun => book_next (ih (admits_running ha)) ha hrun

/-- An invariant that taking a batch keeps, and each way of handling an event
under the condition of the run, is kept in the run. -/
theorem reach_events {P₀ : State → Prop} {C : State → Action → Prop} {I : State → Prop}
    (h₀ : ∀ s, Initial P s → P₀ s → I s)
    (hwait : ∀ s session batch, s.stopped = none → Book P s → I s → I { s with session := session, batch := batch })
    (hevent : ∀ s ans e rest o s', ((server P).restrict P₀ C).Reach s → s.stopped = none → Book P s → I s →
      ans.Valid s → s.batch = e :: rest → C s (.event ans) → Handles P ans e { s with batch := rest } o s' →
      I { s' with stopped := o })
    (h : ((server P).restrict P₀ C).Reach s) : I s := by
  refine h.inv_of (fun s hs => And.intro hs (reach_book hs.of_restrict)) (fun s hi => h₀ s hi.1 hi.2) ?_
  rintro s a ⟨hreach, hbook⟩ ih ⟨ha, hc⟩
  have hrun : s.stopped = none := admits_running ha
  cases a with
  | wait session batch => exact hwait s session batch hrun (hbook hrun) ih
  | event ans =>
    obtain ⟨-, hne, hv⟩ := ha
    obtain ⟨e, rest, hb⟩ := List.exists_cons_of_ne_nil hne
    obtain ⟨o, s', hh, heq⟩ := next_event (hbook hrun) hrun hv hb
    have hI := hevent s ans e rest o s' hreach hrun (hbook hrun) ih hv hb hc hh
    rw [← heq] at hI
    exact hI

/-! ## How the process ends -/

/-- A failed `assert`, or an index out of `global_state`. -/
def Stop.OutOfRange (r : Stop) : Prop := r = .assertFailed ∨ r = .undefined "global_state"

theorem Stop.not_outOfRange_undefined {call : String} (h : call ≠ "global_state") :
    ¬ (Stop.undefined call).OutOfRange := by
  rintro (he | he)
  · cases he
  · exact h (Stop.undefined.inj he)

theorem Serves.not_outOfRange {ans : Answers} {fd : Int} {msg : Json} {r : Stop}
    (h : Serves P ans fd msg s (some r) s') : ¬ r.OutOfRange := by
  cases h with
  | malformed => exact Stop.not_outOfRange_undefined (by decide)
  | agentStopped => exact Stop.not_outOfRange_undefined (by decide)
  | uxStopped => exact Stop.not_outOfRange_undefined (by decide)
  | ux _ _ _ ho =>
    rcases ho with ho | ⟨ho, -⟩
    · obtain rfl := Option.some.inj ho
      exact Stop.not_outOfRange_undefined (by decide)
    · cases ho
  | uxFailed _ _ _ he =>
    simp only [Stop.InCommand, List.mem_cons, List.not_mem_nil, or_false] at he
    rcases he with rfl | rfl | rfl | rfl | rfl <;> exact Stop.not_outOfRange_undefined (by decide)
  | uxSent _ _ ho =>
    rcases ho with ⟨ho, -⟩ | ⟨ho, -⟩
    · cases ho
    · obtain rfl := Option.some.inj ho
      rintro (h | h) <;> cases h

theorem Handles.not_outOfRange {ans : Answers} {e : Ready} {r : Stop} (h : Handles P ans e s (some r) s') :
    ¬ r.OutOfRange := by
  have hdie : ∀ {msg : String}, ¬ (Stop.die msg).OutOfRange := by rintro msg (h | h) <;> cases h
  cases h with
  | readStopped _ hr =>
    rcases hr with ⟨rfl, -⟩ | ⟨rfl, -⟩ | ⟨rfl, -⟩
    · exact hdie
    · exact Stop.not_outOfRange_undefined (by decide)
    · exact Stop.not_outOfRange_undefined (by decide)
  | serveStopped _ _ hs => exact hs.not_outOfRange
  | _ => exact hdie

/-! ## What a step records -/

/-- Serving a message records queries, registrations and commands sent. -/
theorem Serves.trace_eq {ans : Answers} {fd : Int} {msg : Json} {o : Option Stop}
    (h : Serves P ans fd msg s o s') :
    ∃ new, s'.trace = new ++ s.trace ∧ ∀ o ∈ new, o.Quiet ∨ (∃ k f c t, o = .registered k f c t) ∨
      ∃ m f c d a, o = .sent m f c d a := by
  cases h with
  | malformed => exact ⟨[], rfl, by simp⟩
  | ignored => exact ⟨[], rfl, by simp⟩
  | agentStopped => exact ⟨[], rfl, by simp⟩
  | uxStopped => exact ⟨[], rfl, by simp⟩
  | agent =>
    refine ⟨_ ++ [_], (List.append_assoc _ [_] _).symm, fun o ho => ?_⟩
    rcases List.mem_append.mp ho with ho | ho
    · exact .inl (quiet_insertObs _ _ _ _ _ _ o ho)
    · exact .inr (.inl ⟨_, _, _, _, List.mem_singleton.mp ho⟩)
  | ux _ _ hobs =>
    refine ⟨_ ++ [_], (List.append_assoc _ [_] _).symm, fun o ho => ?_⟩
    rcases List.mem_append.mp ho with ho | ho
    · exact .inl (hobs o ho)
    · exact .inr (.inl ⟨_, _, _, _, List.mem_singleton.mp ho⟩)
  | uxFailed _ _ hobs =>
    refine ⟨_ ++ [_], (List.append_assoc _ [_] _).symm, fun o ho => ?_⟩
    rcases List.mem_append.mp ho with ho | ho
    · exact .inl (hobs o ho)
    · exact .inr (.inl ⟨_, _, _, _, List.mem_singleton.mp ho⟩)
  | @uxSent ms _ obs obs' m data f a b answer _ _ _ _ hobs hobs' =>
    refine ⟨obs' ++ .sent m f (({ s with fds := afterStreams s.fds a b } : State).peerAt f) data answer ::
      (obs ++ [.registered uxSession fd (s.peerAt fd) .reqUx]), by simp, fun o ho => ?_⟩
    simp only [List.mem_append, List.mem_cons, List.not_mem_nil, or_false] at ho
    rcases ho with ho | rfl | ho | rfl
    · exact .inl (hobs' o ho)
    · exact .inr (.inr ⟨_, _, _, _, _, rfl⟩)
    · exact .inl (hobs o ho)
    · exact .inr (.inl ⟨_, _, _, _, rfl⟩)

/-- A step adds to the trace. -/
theorem Handles.trace_eq {ans : Answers} {e : Ready} {o : Option Stop} (h : Handles P ans e s o s') :
    ∃ new, s'.trace = new ++ s.trace := by
  have hserved : ∀ {text : Bytes} {o s'}, Serves P ans e.fd (parseStringToJson P.json text)
      (handedOn s e.fd ans.recvs text) o s' → ∃ new, s'.trace = new ++ s.trace := fun h => by
    obtain ⟨new, heq, -⟩ := h.trace_eq
    exact ⟨new ++ [_, _], by rw [heq, List.append_assoc]; rfl⟩
  cases h with
  | accepted => exact ⟨[_], rfl⟩
  | acceptDied => exact ⟨[_], rfl⟩
  | readStopped => exact ⟨[_], rfl⟩
  | again => exact ⟨[_], rfl⟩
  | againDied => exact ⟨[_], rfl⟩
  | @closed _ obs => exact ⟨_ :: (obs ++ [_]), by simp only [List.append_assoc, List.cons_append]; rfl⟩
  | @closeDied _ obs => exact ⟨obs ++ [_], by rw [List.append_assoc]; rfl⟩
  | served _ _ h => exact (hserved h :)
  | serveDied _ _ h => exact hserved h
  | serveStopped _ _ h => exact hserved h
  | _ => exact ⟨[], rfl⟩

/-- No step calls `on_peer_ready_send`. -/
theorem Handles.not_readySend {ans : Answers} {e : Ready} {o : Option Stop} (h : Handles P ans e s o s')
    {f : Int} (hs : .readySend f ∉ s.trace) : .readySend f ∉ s'.trace := by
  have hquiet : ∀ {obs : List Obs}, (∀ o ∈ obs, o.Quiet) → .readySend f ∉ obs := fun hobs hm => hobs _ hm
  have hserved : ∀ {text : Bytes} {o s'}, Serves P ans e.fd (parseStringToJson P.json text)
      (handedOn s e.fd ans.recvs text) o s' → .readySend f ∉ s'.trace := fun h => by
    obtain ⟨new, heq, hnew⟩ := h.trace_eq
    rw [heq]
    simp only [handedOn, readOn, List.mem_append, List.mem_cons, reduceCtorEq, hs, or_false]
    intro hm
    rcases hnew _ hm with h | ⟨_, _, _, _, h⟩ | ⟨_, _, _, _, _, h⟩
    · exact h
    · cases h
    · cases h
  cases h with
  | closed _ _ _ hobs => simp [hs, hquiet hobs]
  | closeDied _ _ _ hobs => simp [deletedOn, hs, hquiet hobs]
  | served _ _ h => exact (hserved h :)
  | serveDied _ _ h => exact hserved h
  | serveStopped _ _ h => exact hserved h
  | _ => simpa [opened, readOn] using hs

/-- The books, the asserts and the callbacks of the event loop, in every
reachable state. -/
theorem bookkeeping (h : (server P).Reach s) :
    (s.stopped = none →
      (∀ f, f ≠ P.listener → (s.epoll f ≠ none ↔ ∃ c, s.fds f = some (.peer c))) ∧
      (∀ f c, s.fds f = some (.peer c) → 0 ≤ f ∧ f < MAXFDS ∧ s.epoll f = some ⟨true, false⟩) ∧
      ∀ e ∈ s.batch, e.fd ≠ P.listener → ∃ c, e.reported = some c ∧ s.fds e.fd = some (.peer c)) ∧
    s.stopped ≠ some .assertFailed ∧ s.stopped ≠ some (.undefined "global_state") ∧
    ∀ f, .readySend f ∉ s.trace := by
  have hstep : (∀ r, s.stopped = some r → ¬ r.OutOfRange) ∧ ∀ f, .readySend f ∉ s.trace := by
    refine reach_events (P := P)
      (I := fun s => (∀ r, s.stopped = some r → ¬ r.OutOfRange) ∧ ∀ f, Obs.readySend f ∉ s.trace)
      (fun s hi _ => ⟨fun r hr => ?_, fun f => ?_⟩) (fun _ _ _ _ _ ih => ih) ?_ h.to_restrict
    · rw [hi.stopped] at hr; cases hr
    · rw [hi.trace]; exact List.not_mem_nil
    · rintro s ans e rest o s' - - - ih - - - hh
      refine ⟨fun r hr => ?_, fun f => hh.not_readySend (ih.2 f)⟩
      obtain rfl : o = some r := hr
      exact hh.not_outOfRange
  refine ⟨fun hrun => ?_, fun hs => hstep.1 _ hs (.inl rfl), fun hs => hstep.1 _ hs (.inr rfl), hstep.2⟩
  have hb := reach_book h hrun
  exact ⟨hb.registered, fun f c hf => ⟨(hb.range f c hf).1, (hb.range f c hf).2, hb.epoll_of_peer hf⟩,
    fun e he hl => (hb.batch e he).2.resolve_left hl⟩

/-- Two peers are ready in one batch with the listener: the first closes, and
its descriptor is given to a new connection before the second is read. -/
def reuse : List Action :=
  Flat.connect 6 ++ Flat.connect 7 ++
    [.wait Flat.garbage [⟨6, { epollin := true }, some 0⟩, ⟨4, { epollin := true }, none⟩,
      ⟨7, { epollin := true }, some 1⟩], .event { recvs := [.eof] }, .event { accept := .accepted 6 }]

theorem bookkeeping_reuse :
    let s := (server Flat.params).exec (Flat.start .empty) reuse
    s.stopped = none ∧ s.fds 6 = some (.peer 2) ∧ s.batch.map Ready.fd = [7] ∧
      (∀ f c, s.fds f = some (.peer c) → 0 ≤ f ∧ f < MAXFDS ∧ s.epoll f = some ⟨true, false⟩) ∧
      ∀ e ∈ s.batch, e.fd ≠ 4 → ∃ c, e.reported = some c ∧ s.fds e.fd = some (.peer c) := by
  intro s
  have hrun : s.stopped = none ∧ s.fds 6 = some (.peer 2) ∧ s.batch.map Ready.fd = [7] := by decide +kernel
  have hreach : (server Flat.params).Reach s := .exec (.init (Flat.initial_start .empty)) (by decide +kernel)
  have h := bookkeeping hreach
  exact ⟨hrun.1, hrun.2.1, hrun.2.2, (h.1 hrun.1).2.1, (h.1 hrun.1).2.2⟩

end CmdAgent
