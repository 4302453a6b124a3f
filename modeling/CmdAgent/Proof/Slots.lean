import CmdAgent.Impl.Startup
import CmdAgent.Proof.SendQueue
import CmdAgent.Proof.Registrations

/-!
# The slots of a run

`global_state` is zero when the process starts, `on_peer_connected` is all that
ever writes to it, and it leaves `send_data` alone. So in every running state
the slot of an open connection is the one of a new connection, and any other
slot is zero or what some connection on its descriptor has left, which is the
same: nothing of a peer is ever in a slot, even though `on_peer_connected`
would not clear it. There is a length to send in these slots, and no data, so
that if the loop ever called `on_peer_ready_send`, for any open connection, the
process would end (`slots_unused`).
-/

namespace CmdAgent

variable {P : Params} {s s' : State} {ans : Answers} {e : Ready}

theorem Serves.slots {fd : Int} {msg : Json} {o : Option Stop} (h : Serves P ans fd msg s o s') :
    s'.slots = s.slots := by
  cases h <;> rfl

theorem freshSlot_freshSlot (p : PeerState) : freshSlot (freshSlot p) = freshSlot p := rfl

/-- Every slot is as it was at first or as a new connection makes it, and the
slots of open connections are so made. -/
structure Unused (slots₀ : Int → PeerState) (s : State) : Prop where
  either : ∀ f, s.slots f = slots₀ f ∨ s.slots f = freshSlot (slots₀ f)
  peers : ∀ f c, s.fds f = some (.peer c) → s.slots f = freshSlot (slots₀ f)

/-- The slots stay, and no connection is opened. -/
theorem Unused.congr {slots₀ : Int → PeerState} (h : Unused slots₀ s) (hs : s'.slots = s.slots)
    (hp : ∀ f c, s'.fds f = some (.peer c) → s.fds f = some (.peer c)) : Unused slots₀ s' := by
  refine ⟨fun f => ?_, fun f c hf => ?_⟩
  · rw [hs]
    exact h.either f
  · rw [hs]
    exact h.peers f c (hp f c hf)

theorem Unused.opened {slots₀ : Int → PeerState} (h : Unused slots₀ s) {f : Int} {c : Nat}
    (hs : s'.slots = Function.update s.slots f (freshSlot (s.slots f)))
    (hf : s'.fds = Function.update s.fds f (some (.peer c))) : Unused slots₀ s' := by
  have hfresh : freshSlot (s.slots f) = freshSlot (slots₀ f) := by
    rcases h.either f with heq | heq
    · rw [heq]
    · rw [heq, freshSlot_freshSlot]
  refine ⟨fun g => ?_, fun g c' hg => ?_⟩
  · rw [hs]
    by_cases hgf : g = f
    · subst hgf
      rw [Function.update_self]
      exact .inr hfresh
    · rw [Function.update_of_ne hgf]
      exact h.either g
  · rw [hs]
    by_cases hgf : g = f
    · subst hgf
      rw [Function.update_self]
      exact hfresh
    · rw [Function.update_of_ne hgf]
      rw [hf, Function.update_of_ne hgf] at hg
      exact h.peers g c' hg

theorem handles_unused {slots₀ : Int → PeerState} (h : Unused slots₀ s) (hv : ans.Valid s) {rest : List Ready}
    (hh : Handles P ans e { s with batch := rest } none s') : Unused slots₀ s' := by
  cases hh with
  | idle => exact h.congr rfl fun _ _ hf => hf
  | accepted => exact h.opened rfl rfl
  | again => exact h.congr rfl fun _ _ hf => hf
  | closed =>
    refine h.congr rfl fun f c hf => ?_
    by_cases hfe : f = e.fd
    · rw [hfe] at hf
      simp at hf
    · simpa [Function.update_of_ne hfe] using hf
  | served _ _ hs =>
    refine h.congr hs.slots fun f c hf => ?_
    exact (hs.fdsKept.fds_iff (s := s) hv.streamsFresh (by simp)).mp hf

/-- The runs that start with the given slots. -/
def slottedServer (P : Params) (slots₀ : Int → PeerState) : Machine State Action :=
  (server P).restrict (fun s => s.slots = slots₀) (fun _ _ => True)

instance (slots₀ : Int → PeerState) (a : Action) : Decidable ((slottedServer P slots₀).admits s a) :=
  inferInstanceAs (Decidable (((server P).restrict _ (fun _ _ => True)).admits s a))

theorem reach_unused {slots₀ : Int → PeerState} (h : (slottedServer P slots₀).Reach s) (hrun : s.stopped = none) :
    Unused slots₀ s := by
  revert hrun
  refine reach_events (P := P) (I := fun s => s.stopped = none → Unused slots₀ s) (fun s hi hs _ => ?_)
    (fun _ _ _ hrun _ ih _ => (ih hrun).congr rfl fun _ _ hf => hf) ?_ h
  · exact ⟨fun f => .inl (congrFun hs f), fun f c hf => absurd hf (hi.no_peer f c)⟩
  · rintro s ans e rest o s' - hrun hb ih hv hbatch hc hh rfl
    exact (handles_unused (ih hrun) hv hh).congr rfl fun _ _ hf => hf

/-! ## The calls that are not made -/

/-- With a length to send and no data, `on_peer_ready_send` gets past its `send`
only if that would block, and then has sent nothing. -/
theorem onPeerReadySend_null {fd : Int} (hfd : 0 ≤ fd ∧ fd < MAXFDS) (hp : (s.slots fd).Pending)
    (hd : (s.slots fd).sendData = none) :
    Ends (onPeerReadySend ans fd) s
      (fun status s' => ans.send = .wouldBlock ∧ status = fdStatusW ∧ s'.slots = s.slots)
      (fun e _ => ans.send ≠ .wouldBlock ∧ (e = .die "send" ∨ e = .sigpipe)) := by
  unfold onPeerReadySend
  refine .bind (.modify (.bind ?_))
  rw [Ends, assertLtMaxfds_run hfd]
  refine .bind ?_
  rw [Ends, getSlot_run hfd]
  dsimp only
  rw [if_neg (not_le.mpr hp), hd]
  refine .bind (.modify ?_)
  cases hsend : ans.send with
  | sent n => exact .throw ⟨by simp, .inl rfl⟩
  | wouldBlock => exact .pure ⟨rfl, rfl, rfl⟩
  | failed => exact .throw ⟨by simp, .inl rfl⟩
  | sigpipe => exact .throw ⟨by simp, .inr rfl⟩

/-- In a running server every slot is zero, or as `on_peer_connected` makes it
of zeros; the slot of an open connection is the latter, and calling
`on_peer_ready_send` for it would send nothing: either `send` would block, or
the process ends. -/
theorem slots_unused (h : (slottedServer P fun _ => zeroSlot).Reach s) (hrun : s.stopped = none) :
    (∀ f, s.slots f = zeroSlot ∨ s.slots f = ⟨.initialAck, none, SYNACK_LEN, 0⟩) ∧
    ∀ f c, s.fds f = some (.peer c) → s.slots f = ⟨.initialAck, none, SYNACK_LEN, 0⟩ ∧
      ∀ ans, Ends (onPeerReadySend ans f) s
        (fun status s' => ans.send = .wouldBlock ∧ status = fdStatusW ∧ s'.slots = s.slots)
        (fun e _ => ans.send ≠ .wouldBlock ∧ (e = .die "send" ∨ e = .sigpipe)) := by
  have hu := reach_unused h hrun
  refine ⟨hu.either, fun f c hf => ?_⟩
  have hslot : s.slots f = ⟨.initialAck, none, SYNACK_LEN, 0⟩ := hu.peers f c hf
  refine ⟨hslot, fun ans => onPeerReadySend_null ((reach_book h.of_restrict hrun).range f c hf) ?_ ?_⟩
  · rw [hslot]
    decide
  · rw [hslot]

/-- A descriptor that is given to a second connection, and a `send` that does
not block. -/
theorem slots_unused_reuse :
    let s := (server Flat.params).exec (Flat.start .empty) reuse
    s.slots 6 = ⟨.initialAck, none, SYNACK_LEN, 0⟩ ∧
      ∃ e s', onPeerReadySend { send := .sent 8 } 6 s = .error e s' ∧ (e = .die "send" ∨ e = .sigpipe) := by
  intro s
  have hs : s.stopped = none ∧ s.fds 6 = some (.peer 2) := by decide +kernel
  have hreach : (slottedServer Flat.params fun _ => zeroSlot).Reach s :=
    .exec (.init ⟨Flat.initial_start .empty, rfl⟩) (by decide +kernel)
  obtain ⟨hslot, hends⟩ := (slots_unused hreach hs.1).2 6 2 hs.2
  refine ⟨hslot, ?_⟩
  have hend := hends { send := .sent 8 }
  cases hrun : onPeerReadySend { send := .sent 8 } 6 s with
  | ok status s' => exact absurd (hend.ok hrun).1 (by simp)
  | error e s' => exact ⟨e, s', rfl, (hend.error hrun).2⟩

end CmdAgent
