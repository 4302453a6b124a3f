import CmdAgent.Proof.Record
import CmdAgent.Proof.Descriptors

/-!
# The life of a connection

A connection is known by its number, and its descriptor may serve others
before and after it. What the server records about a connection lies within
its life: it is accepted once, on a descriptor on which no other connection is
open, everything read from it, handed on, registered or sent is recorded while
it is open on the descriptor named there, and once it is closed nothing is
recorded about it any more (`lifecycle`).

The trace alone tells which connections are open (`reach_open`), whatever
streams have been left open beside them.
-/

namespace CmdAgent

variable {P : Params} {s s' : State} {ans : Answers} {e : Ready}

/-- The connection an observation is about. -/
def Obs.conn : Obs → Option Nat
  | .accepted _ c => some c
  | .closed _ conn | .received _ conn _ | .handed _ conn _ | .registered _ _ conn _ | .sent _ _ conn _ _ => conn
  | .query _ | .readySend _ | .offered _ _ _ | .debug _ => none

/-- The observation is about the connection that is open, after `past`, on the
descriptor it names. -/
def Attached (past : List Obs) : Obs → Prop
  | .closed f conn | .received f conn _ | .handed f conn _ | .registered _ f conn _ =>
    openOn f past = conn ∧ conn ≠ none
  | .sent _ f conn _ _ => openOn f past = conn
  | .accepted _ _ | .query _ | .readySend _ | .offered _ _ _ | .debug _ => True

/-- A connection is accepted with a number of its own, on a descriptor that no
connection is open on. -/
def New (past : List Obs) : Obs → Prop
  | .accepted f c => openOn f past = none ∧ ∀ o ∈ past, o.conn ≠ some c
  | _ => True

/-! ## The open connections of a trace -/

theorem openOn_cons {o : Obs} (h : o.Still) (f : Int) (tr : List Obs) : openOn f (o :: tr) = openOn f tr := by
  cases o with
  | accepted => exact h.elim
  | closed => exact h.elim
  | _ => rfl

theorem openOn_append {new : List Obs} (h : ∀ o ∈ new, o.Still) (f : Int) (tr : List Obs) :
    openOn f (new ++ tr) = openOn f tr := by
  induction new with
  | nil => rfl
  | cons o new ih =>
    rw [List.cons_append, openOn_cons (h o (List.mem_cons_self ..)), ih fun o' ho' => h o' (List.mem_cons_of_mem _ ho')]

/-- An open connection has been accepted. -/
theorem mem_of_openOn {f : Int} {c : Nat} {tr : List Obs} (h : openOn f tr = some c) : .accepted f c ∈ tr := by
  fun_induction openOn f tr with
  | case1 => cases h
  | case2 c' tr =>
    obtain rfl := Option.some.inj h
    exact List.mem_cons_self ..
  | case4 => cases h
  | _ => exact List.mem_cons_of_mem _ (by solve_by_elim)

/-- The connections that are open are those of the trace, and none has a number
that is yet to be given. -/
structure Open (s : State) : Prop where
  peers : ∀ f, s.peerAt f = openOn f s.trace
  numbers : ∀ f c, .accepted f c ∈ s.trace → c < s.nextConn

/-- A step that records nothing about opening and closing, and changes no
connection. -/
theorem Open.append (h : Open s) (new : List Obs) (hnew : ∀ o ∈ new, o.Still) (htr : s'.trace = new ++ s.trace)
    (hpeer : s'.peerAt = s.peerAt) (hn : s'.nextConn = s.nextConn) : Open s' := by
  refine ⟨fun f => ?_, fun f c hm => ?_⟩
  · rw [hpeer, htr, openOn_append hnew, h.peers]
  · rw [htr] at hm
    rw [hn]
    rcases List.mem_append.mp hm with hm | hm
    · exact (hnew _ hm).elim
    · exact h.numbers f c hm

theorem handles_open (h : Open s) (ha : ans.Valid s) {rest : List Ready}
    (hh : Handles P ans e { s with batch := rest } none s') : Open s' := by
  cases hh with
  | idle => exact h.append [] (by simp) rfl rfl rfl
  | again => exact h.append [_] (by simp [Obs.Still]) rfl rfl rfl
  | @accepted f he hl hacc hlt =>
    have hpeer : (opened s f).peerAt = Function.update s.peerAt f (some s.nextConn) :=
      peerAt_update (r := some (.peer s.nextConn)) rfl rfl
    refine ⟨fun g => ?_, fun g c hm => ?_⟩
    · show (opened s f).peerAt g = if g = f then some s.nextConn else openOn g s.trace
      rw [hpeer, Function.update_apply, h.peers]
    · show c < s.nextConn + 1
      rcases List.mem_cons.mp hm with heq | hm
      · cases heq; exact Nat.lt_succ_self _
      · exact (h.numbers g c hm).trans (Nat.lt_succ_self _)
  | @closed t obs he hr hd hobs =>
    have hpeer : ({ s with fds := Function.update s.fds e.fd none } : State).peerAt = _ :=
      peerAt_update (s := s) (r := none) rfl (c := none) rfl
    have hstill : ∀ o ∈ obs ++ [Obs.received e.fd (s.peerAt e.fd) ans.recvs], o.Still := fun o ho => by
      rcases List.mem_append.mp ho with ho | ho
      · exact (hobs o ho).still
      · rw [List.mem_singleton.mp ho]; trivial
    have htr : obs ++ .received e.fd (s.peerAt e.fd) ans.recvs :: s.trace =
        (obs ++ [.received e.fd (s.peerAt e.fd) ans.recvs]) ++ s.trace := by simp
    refine ⟨fun g => ?_, fun g c hm => ?_⟩
    · show ({ s with fds := Function.update s.fds e.fd none } : State).peerAt g =
        if g = e.fd then none else openOn g (obs ++ .received e.fd (s.peerAt e.fd) ans.recvs :: s.trace)
      rw [hpeer, Function.update_apply, htr, openOn_append hstill, h.peers]
    · rcases List.mem_cons.mp hm with heq | hm
      · cases heq
      · have hm' : Obs.accepted g c ∈ (obs ++ [.received e.fd (s.peerAt e.fd) ans.recvs]) ++ s.trace := htr ▸ hm
        rcases List.mem_append.mp hm' with hm' | hm'
        · exact (hstill _ hm').elim
        · exact h.numbers g c hm'
  | @served data s₁ he hr hs hc =>
    obtain ⟨new, htr, hnew⟩ := hs.trace_eq
    refine h.append (new ++ [.handed e.fd (s.peerAt e.fd) (cstr data),
      .received e.fd (s.peerAt e.fd) ans.recvs]) (fun o ho => ?_) ?_
      ?_ hs.nextConn
    · rcases List.mem_append.mp ho with ho | ho
      · rcases hnew o ho with h | ⟨_, _, _, _, rfl⟩ | ⟨_, _, _, _, _, rfl⟩
        · exact h.still
        · trivial
        · trivial
      · simp only [List.mem_cons, List.not_mem_nil, or_false] at ho
        rcases ho with rfl | rfl <;> trivial
    · show s₁.trace = _
      rw [htr]
      simp [handedOn, readOn, State.peerAt]
    · show s₁.peerAt = s.peerAt
      exact peerAt_of_fdsKept hs.fdsKept ha.streamsFresh

/-- The trace of a running server tells which connections are open. -/
theorem reach_open (h : (server P).Reach s) (hrun : s.stopped = none) : Open s := by
  revert hrun
  refine reach_events (P := P) (I := fun s => s.stopped = none → Open s) (fun s hi _ _ => ⟨fun f => ?_, fun f c hm => ?_⟩)
    (fun _ _ _ hrun _ ih _ => ⟨(ih hrun).peers, (ih hrun).numbers⟩) ?_ h.to_restrict
  · rw [hi.trace]
    refine Option.eq_none_iff_forall_ne_some.mpr fun c hc => ?_
    exact hi.no_peer f c (State.peerAt_eq_some.mp hc)
  · rw [hi.trace] at hm; cases hm
  · rintro s ans e rest o s' - hrun - ih hv - - hh rfl
    have ho := handles_open (ih hrun) hv hh
    exact ⟨ho.peers, ho.numbers⟩

/-! ## Within the life of a connection -/

/-- Registering opens and closes nothing. -/
theorem openOn_lookupTrace (f : Int) (text : Bytes) :
    openOn f (lookupTrace P s ans e text) = openOn f s.trace :=
  openOn_append (fun o ho => (quiet_insertObs _ _ _ _ _ _ o ho).still) f (registeredOn s ans e text uxSession .reqUx)

/-- Everything is recorded about the connection that is open on its
descriptor. -/
theorem Emits.attached {past : List Obs} {o : Obs} (h : Emits P s ans e past o) (ho : Open s)
    (hc : e.Reads P → s.peerAt e.fd ≠ none) : Attached past o := by
  cases h with
  | received he => exact ⟨(ho.peers e.fd).symm, hc he⟩
  | closed he _ hobs =>
    refine ⟨?_, hc he⟩
    rw [openOn_append fun o ho => (hobs o ho).still]
    exact (ho.peers e.fd).symm
  | handed he => exact ⟨(ho.peers e.fd).symm, hc he⟩
  | registered h => exact ⟨(ho.peers e.fd).symm, hc h.reads⟩
  | @sent text ms m f data h =>
    exact (openOn_lookupTrace f text).trans (ho.peers f).symm
  | _ => trivial

theorem reach_attached (h : (server P).Reach s) : Each Attached s.trace := by
  refine reach_each (P := P) (fun s ans e rest past o hreach hrun hb hv hbatch _ hem => ?_) h.to_restrict
  have ho := reach_open hreach.of_restrict hrun
  refine hem.attached ⟨ho.peers, ho.numbers⟩ fun he => ?_
  obtain ⟨c, hc⟩ := hb.sender he hbatch
  have hpeer := State.peerAt_eq_some.mpr hc
  exact fun hnone => by cases hpeer.symm.trans hnone

/-- Whoever is recorded has been accepted. -/
theorem accepted_of_conn {tr : List Obs} (h : Each Attached tr) {o : Obs} (ho : o ∈ tr) {c : Nat}
    (hc : o.conn = some c) : ∃ f, .accepted f c ∈ tr := by
  obtain ⟨newer, past, rfl⟩ := List.append_of_mem ho
  have hq := h.of_eq
  have hpast : ∀ {f}, openOn f past = o.conn → ∃ f, Obs.accepted f c ∈ newer ++ o :: past := fun {f} hf =>
    ⟨f, List.mem_append_right _ (List.mem_cons_of_mem _ (mem_of_openOn (hf.trans hc)))⟩
  cases o with
  | accepted f c' =>
    obtain rfl : c' = c := Option.some.inj hc
    exact ⟨f, ho⟩
  | closed => exact hpast hq.1
  | received => exact hpast hq.1
  | handed => exact hpast hq.1
  | registered => exact hpast hq.1
  | sent => exact hpast hq
  | _ => cases hc

theorem reach_new (h : (server P).Reach s) : Each New s.trace := by
  refine reach_each (P := P) (fun s ans e rest past o hreach hrun hb hv hbatch _ hem => ?_) h.to_restrict
  have ho := reach_open hreach.of_restrict hrun
  cases hem with
  | @accepted f he hl ha =>
    refine ⟨?_, fun o hm hconn => ?_⟩
    · rw [← ho.peers, State.peerAt, (hv.accept f ha).2]
    · obtain ⟨g, hg⟩ := accepted_of_conn (reach_attached hreach.of_restrict) hm hconn
      exact absurd (ho.numbers g _ hg) (lt_irrefl _)
  | _ => trivial

/-- A connection is open on one descriptor at most. -/
theorem openOn_inj {tr : List Obs} (ha : Each Attached tr) (hn : Each New tr) {f g : Int} {c : Nat}
    (hf : openOn f tr = some c) (hg : openOn g tr = some c) : f = g := by
  induction tr with
  | nil => cases hf
  | cons o tr ih =>
    have ih := ih ha.2 hn.2
    cases o with
    | accepted a c' =>
      have hnot : ∀ x, openOn x tr ≠ some c' := fun x hx => hn.1.2 _ (mem_of_openOn hx) rfl
      simp only [openOn] at hf hg
      split at hf <;> split at hg
      · rename_i h₁ h₂; rw [h₁, h₂]
      · cases hf; exact absurd hg (hnot g)
      · cases hg; exact absurd hf (hnot f)
      · exact ih hf hg
    | closed a c' =>
      simp only [openOn] at hf hg
      split at hf <;> split at hg
      · cases hf
      · cases hf
      · cases hg
      · exact ih hf hg
    | _ => exact ih hf hg

/-- A connection that is closed stays closed, and nothing is recorded about it
any more. -/
theorem silent_of_closed {newer past : List Obs} {f : Int} {c : Nat}
    (ha : Each Attached (newer ++ .closed f (some c) :: past)) (hn : Each New (newer ++ .closed f (some c) :: past)) :
    (∀ g, openOn g (newer ++ .closed f (some c) :: past) ≠ some c) ∧ ∀ o ∈ newer, o.conn ≠ some c := by
  induction newer with
  | nil =>
    refine ⟨fun g hg => ?_, by simp⟩
    have hopen : openOn f past = some c := ha.1.1
    simp only [List.nil_append, openOn] at hg
    split at hg
    · cases hg
    · rename_i hgf
      exact hgf (openOn_inj ha.2 hn.2 hg hopen)
  | cons o newer ih =>
    obtain ⟨hopen, hsilent⟩ := ih ha.2 hn.2
    have hconn : o.conn ≠ some c := fun hc => by
      have hq := ha.1
      cases o with
      | accepted g c' =>
        obtain rfl : c' = c := Option.some.inj hc
        exact hn.1.2 (.closed f (some c')) (List.mem_append_right _ (List.mem_cons_self ..)) rfl
      | closed g => exact hopen g (hq.1.trans hc)
      | received g => exact hopen g (hq.1.trans hc)
      | handed g => exact hopen g (hq.1.trans hc)
      | registered _ g => exact hopen g (hq.1.trans hc)
      | sent _ g => exact hopen g (hq.trans hc)
      | _ => cases hc
    refine ⟨fun g => ?_, List.forall_mem_cons.mpr ⟨hconn, hsilent⟩⟩
    cases o with
    | accepted a c' =>
      simp only [List.cons_append, openOn]
      split
      · exact hconn
      · exact hopen g
    | closed a c' =>
      simp only [List.cons_append, openOn]
      split
      · simp
      · exact hopen g
    | _ => exact hopen g

/-- A connection is accepted under a number never seen before, on a descriptor
that no connection is open on; everything else is recorded about the
connection open on its descriptor at that moment; after its close nothing is
recorded about a connection. The trace of a running server tells which
connections are open. -/
theorem lifecycle (h : (server P).Reach s) :
    (∀ newer o past, s.trace = newer ++ o :: past → Attached past o ∧ New past o ∧
      ∀ f c, o = .closed f (some c) → ∀ o' ∈ newer, o'.conn ≠ some c) ∧
    (s.stopped = none → ∀ f, s.peerAt f = openOn f s.trace) := by
  refine ⟨fun newer o past htr => ?_, fun hrun => (reach_open h hrun).peers⟩
  have ha := reach_attached h
  have hn := reach_new h
  rw [htr] at ha hn
  refine ⟨ha.of_eq, hn.of_eq, ?_⟩
  rintro f c rfl
  exact (silent_of_closed ha hn).2

/-- Descriptor 6 has been given to a second connection. -/
theorem lifecycle_reuse :
    let s := (server Flat.params).exec (Flat.start .empty) reuse
    (∃ newer past, s.trace = newer ++ .closed 6 (some 0) :: past ∧ .accepted 6 2 ∈ newer ∧
      ∀ o ∈ newer, o.conn ≠ some 0) ∧ openOn 6 s.trace = some 2 := by
  intro s
  have hreach : (server Flat.params).Reach s := .exec (.init (Flat.initial_start .empty)) (by decide +kernel)
  obtain ⟨hlife, hopen⟩ := lifecycle hreach
  have hs : s.stopped = none ∧ s.peerAt 6 = some 2 ∧
      s.trace = [.accepted 6 2] ++ .closed 6 (some 0) :: s.trace.drop 2 := by decide +kernel
  refine ⟨⟨_, _, hs.2.2, by simp, (hlife _ _ _ hs.2.2).2.2 6 0 rfl⟩, ?_⟩
  rw [← hopen hs.1 6]
  exact hs.2.1

end CmdAgent
