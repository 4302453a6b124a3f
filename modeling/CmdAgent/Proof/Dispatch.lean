import CmdAgent.Proof.Delivery

/-!
# Dispatching a frame

A frame goes from the tokener through the three walkers over the members of an
object, which all read the head of the object without a check. A frame that is
no object is meant to be an invalid packet, to be passed over; the walkers
end the process instead, so the dispatch is robust for objects only
(`robust_dispatch`).
-/

namespace CmdAgent

variable {P : Params} {s : State} {ans : Answers}

/-- Queries and commands sent: what a message does to the world. -/
def Obs.isEffect : Obs → Bool
  | .query _ | .sent _ _ _ _ _ => true
  | _ => false

theorem readEnds_of_socketRead {data : Bytes} {rest : List Recv}
    (h : socketRead ans.recvs = some (.ok (some data, 0), rest)) :
    (readEnds [] ans.recvs).map Prod.fst = some (.frame data) := by
  rw [← socketRead_eq, h]; rfl

/-- `on_peer_ready_recv` hands a frame to the parser and serves the message. -/
theorem onPeerReadyRecv_frame {fd : Int} (hf : 0 ≤ fd ∧ fd < MAXFDS) {data : Bytes}
    (hr : (readEnds [] ans.recvs).map Prod.fst = some (.frame data)) :
    onPeerReadyRecv P ans fd s =
      (do
        serve P ans fd (parseStringToJson P.json (cstr data))
        pure fdStatusR : Proc FdStatus) (handedOn s fd ans.recvs (cstr data)) := by
  rw [onPeerReadyRecv_eq, assertLtMaxfds, if_pos hf.2, getSlot, if_pos hf, hr]
  rfl

/-! ## Frames that are no objects -/

/-- The stop at the head of `json_object_object_foreach`. -/
def nullObject : Stop := .undefined "json_object_object_foreach"

/-- The frame `j`, received on `fd`, gets through the walkers, and is passed
over as invalid if it is no object. -/
structure RobustDispatch (P : Params) (ans : Answers) (fd : Int) (s : State) (j : Json) : Prop where
  classified : ∃ t, getAgentType j = .ok t ∧ (t = .reqUx → ∀ σ, ∃ σ', parseJsonCmd j σ = .ok σ') ∧
    (t = .reqLinuxClaymore → ∀ σ, ∃ σ', parseJsonAgent j σ = .ok σ')
  goesOn : ∀ s', onPeerReadyRecv P ans fd s ≠ .error nullObject s'
  invalid : ¬ j.IsObject → getAgentType j = .ok .reqInvalid ∧
    ∃ new, onPeerReadyRecv P ans fd s = .ok fdStatusR { s with trace := new ++ s.trace } ∧
      ∀ o ∈ new, o.isEffect = false

/-- A frame that is no object ends the process at the first of the walkers. -/
theorem onPeerReadyRecv_not_object {fd : Int} (hf : 0 ≤ fd ∧ fd < MAXFDS) {data : Bytes}
    (hr : (readEnds [] ans.recvs).map Prod.fst = some (.frame data))
    (hj : ¬ (parseStringToJson P.json (cstr data)).IsObject) :
    onPeerReadyRecv P ans fd s = .error nullObject (handedOn s fd ans.recvs (cstr data)) := by
  rw [onPeerReadyRecv_frame hf hr, bind_stop]
  rw [serve, getAgentType_of_not_object hj]
  rfl

theorem Serves.ne_nullObject {fd : Int} {ms : List Member} {o : Option Stop} {s' : State}
    (h : Serves P ans fd (.object ms) s o s') : o ≠ some nullObject := by
  cases h with
  | malformed hj => exact absurd ⟨ms, rfl⟩ hj
  | ux _ _ _ ho =>
    rcases ho with rfl | ⟨rfl, -⟩ <;> decide
  | uxFailed _ _ _ he =>
    simp only [Stop.InCommand, List.mem_cons, List.not_mem_nil, or_false] at he
    rcases he with rfl | rfl | rfl | rfl | rfl <;> decide
  | uxSent _ _ ho =>
    rcases ho with ⟨rfl, -⟩ | ⟨rfl, -⟩ <;> decide
  | _ => decide

/-- A frame that `socket_read` delivers is dispatched robustly if and only if
it is the text of an object. -/
theorem robust_dispatch {fd : Int} (hf : 0 ≤ fd ∧ fd < MAXFDS) {data : Bytes} {rest : List Recv}
    (hread : socketRead ans.recvs = some (.ok (some data, 0), rest)) :
    RobustDispatch P ans fd s (parseStringToJson P.json (cstr data)) ↔
      (parseStringToJson P.json (cstr data)).IsObject := by
  have hr := readEnds_of_socketRead hread
  constructor
  · intro h
    by_contra hj
    exact h.goesOn _ (onPeerReadyRecv_not_object hf hr hj)
  · rintro ⟨ms, hj⟩
    rw [hj]
    refine ⟨⟨agentTypeOf ms, getAgentType_object ms, fun _ σ => ⟨_, parseJsonCmd_object ms σ⟩,
      fun _ σ => ⟨_, parseJsonAgent_object ms σ⟩⟩, fun s' hend => ?_, fun hno => absurd ⟨ms, rfl⟩ hno⟩
    have hends : Ends (onPeerReadyRecv P ans fd) s (fun _ _ => True) (fun e _ => e ≠ nullObject) := by
      rw [Ends, onPeerReadyRecv_frame hf hr, hj]
      refine Ends.bind ((serve_ends P ans fd _ _).mono (fun _ _ _ => trivial) fun e s' hs => ?_)
      exact fun he => hs.ne_nullObject (he ▸ rfl)
    exact hends.error hend rfl

/-- An agent's message is an object. -/
theorem robust_dispatch_hello :
    RobustDispatch Flat.params { recvs := Flat.arrives (Flat.hello "m") } 6 (Flat.start .empty)
      (parseStringToJson Flat.params.json (cstr (Flat.hello "m" ++ [0]))) :=
  (robust_dispatch (by decide)
    (show socketRead _ = some (.ok (some (Flat.hello "m" ++ [0]), 0), []) by decide +kernel)).mpr ⟨_, rfl⟩

/-- A frame that is not JSON ends the process. -/
theorem robust_dispatch_text :
    ¬ ∀ (P : Params) (s : State) (ans : Answers) (fd : Int) (data : Bytes) (rest : List Recv),
      0 ≤ fd ∧ fd < MAXFDS → socketRead ans.recvs = some (.ok (some data, 0), rest) →
      RobustDispatch P ans fd s (parseStringToJson P.json (cstr data)) := by
  intro h
  have hd := h Flat.params (Flat.start .empty) { recvs := Flat.arrives (ascii "x") } 6 (ascii "x" ++ [0]) []
    (by decide) (by decide +kernel)
  obtain ⟨t, ht, -⟩ := hd.classified
  cases ht

end CmdAgent
