import CmdAgent.Impl.Memory

/-!
# The server without its memory

Left out its blocks and its pointers, the server with its memory is the server:
each function does to the state what the function of the same name does, unless
it reads released memory (`Layer.Erases`). So as long as none is read, a run is
a run of the server (`reach_server`), and what is proved of its runs holds here.
-/

namespace CmdAgent.Memory

variable {P : Params} {m : Mem} {ans : Answers}

/-! ## What the functions do besides -/

theorem erases {α : Type} (x : Proc α) : layer.Erases (lift x) x :=
  Layer.erases_lift (fun _ _ h => Fault.stop.inj h) x

theorem silent_malloc (k : Kind) : layer.Silent (malloc k) := fun _ => rfl

theorem silent_free (b : Nat) : layer.Silent (free b) := fun m => by
  unfold Ends free
  by_cases h : m.blocks.Live b
  · rw [if_pos h]; rfl
  · rw [if_neg h]
    exact fun _ => Fault.noConfusion

theorem silent_mjFree (b : Option Nat) : layer.Silent (mjFree b) := by
  cases b with
  | none => exact .pure _
  | some b => exact silent_free b

theorem silent_point (f : Field) (b : Option Nat) : layer.Silent (point f b) := fun _ => rfl

theorem silent_deref (f : Field) : layer.Silent (deref f) := fun m => by
  unfold Ends deref
  by_cases h : ∀ b ∈ m.owner f, m.blocks.Live b
  · rw [if_pos h]
  · rw [if_neg h]
    exact fun _ => Fault.noConfusion

theorem silent_mallocFile (content : CharPtr) : layer.Silent (mallocFile content) := by
  unfold mallocFile
  split
  · exact .pure _
  · exact fun _ => rfl

theorem silent_mallocStreams (fp : Option Int) : layer.Silent (mallocStreams fp) := by
  unfold mallocStreams
  split
  · exact .pure _
  · exact fun _ => rfl

theorem silent_foreach {step : Member → MProc PUnit} (h : ∀ x, layer.Silent (step x)) (ms : List Member) :
    layer.Silent (foreach step ms) := by
  induction ms with
  | nil => exact .pure _
  | cons x ms ih => exact (h x).bind fun _ => ih

theorem silent_cmdMember (doc : Nat) (x : Member) : layer.Silent (cmdMember doc x) := by
  obtain ⟨key, v⟩ := x
  cases v with
  | string s =>
    unfold cmdMember
    repeat' split
    all_goals first
      | exact silent_point _ _
      | exact .pure _
      | exact (silent_malloc _).bind fun _ => silent_point _ _
  | _ => exact .pure _

theorem silent_agentMember (doc : Nat) (x : Member) : layer.Silent (agentMember doc x) := by
  obtain ⟨key, v⟩ := x
  cases v with
  | string s =>
    simp only [agentMember]
    split
    · exact silent_point _ _
    · exact .pure _
  | _ => exact .pure _

theorem erases_mysqlSelectFd (p : CharPtr) :
    layer.Erases (mysqlSelectFd P ans p) (CmdAgent.mysqlSelectFd P.db ans p) := by
  refine (silent_deref _).erases_bind fun _ => ?_
  refine (erases _).bind fun mac => (erases _).bind fun query => (erases _).bind fun reply => ?_
  unfold storeResult
  split
  · exact (silent_malloc _).erases_bind fun _ => .pure _
  · exact .pure _
  · exact .pure _

theorem erases_msgClientInfo (json : JsonC) :
    layer.Erases (msgClientInfo json ans) (CmdAgent.msgClientInfo json ans) := by
  refine (erases _).bind fun s => (silent_malloc _).erases_bind fun _ => ?_
  refine (silent_deref _).erases_bind fun _ => (erases _).bind fun cmd => ?_
  refine (silent_deref _).erases_bind fun _ => (erases _).bind fun path => ?_
  refine (erases _).bind fun cmdType => (erases _).bind fun pathText => (erases _).bind fun file => ?_
  refine (silent_mallocStreams _).erases_bind fun stream => (silent_mallocFile _).erases_bind fun fileBuff => ?_
  refine (erases _).bind fun content => ?_
  refine (silent_deref _).erases_bind fun _ => (erases _).bind fun pathInstall => ?_
  refine (silent_malloc _).erases_bind fun _ => (silent_mjFree _).erases_bind fun _ => (erases _).bind fun _ => ?_
  exact (silent_mjFree _).erases_bind fun _ => .pure _

theorem erases_serveUx : layer.Erases (serveUx P ans) (CmdAgent.serveUx P ans) := by
  refine (erases _).bind fun s => (erases _).bind fun _ => (erases_mysqlSelectFd _).bind fun ret => ?_
  split
  · exact erases _
  · refine (erases_msgClientInfo _).bind fun sendData => (erases _).bind fun mac => (erases _).bind fun result => ?_
    exact erases _

theorem erases_serveAgent : layer.Erases (serveAgent P ans) (CmdAgent.serveAgent P ans) :=
  (erases _).bind fun _ => (silent_deref _).erases_bind fun _ => (erases _).bind fun _ => .pure _

theorem erases_serve (fd : Int) (json : Json) (doc : Nat) :
    layer.Erases (serve P ans fd json doc) (CmdAgent.serve P ans fd json) := by
  refine (erases _).bind fun agentType => ?_
  cases agentType with
  | reqUx =>
    refine (erases _).bind fun s => (erases _).bind fun session => (erases _).bind fun _ => ?_
    exact (silent_foreach (silent_cmdMember doc) _).erases_bind fun _ => erases_serveUx
  | reqLinuxClaymore =>
    refine (erases _).bind fun s => (erases _).bind fun session => (erases _).bind fun _ => ?_
    exact (silent_foreach (silent_agentMember doc) _).erases_bind fun _ => erases_serveAgent
  | reqInvalid => exact .pure _
  | reqWindowClaymore => exact .pure _

theorem erases_onPeerReadyRecv (fd : Int) :
    layer.Erases (onPeerReadyRecv P ans fd) (CmdAgent.onPeerReadyRecv P ans fd) := by
  refine (erases _).bind fun _ => (erases _).bind fun _ => (erases _).bind fun _ => ?_
  refine (silent_malloc _).erases_bind fun buffer => ?_
  rcases socketRead ans.recvs with _ | ⟨_ | ⟨_ | data, ret⟩, rest⟩
  · exact erases _
  · exact erases _
  · exact (silent_free _).erases_bind fun _ => .pure _
  · dsimp only
    split
    · exact .pure _
    split
    · exact .pure _
    split
    · exact erases _
    · refine (erases _).bind fun _ => (silent_malloc _).erases_bind fun doc => (erases_serve fd _ doc).bind fun _ => ?_
      exact (silent_free _).erases_bind fun _ => (silent_free _).erases_bind fun _ => .pure _

theorem erases_handleEvent (e : Ready) :
    layer.Erases (handleEvent P ans e) (CmdAgent.handleEvent P ans e) := by
  unfold handleEvent CmdAgent.handleEvent
  split
  · exact erases _
  split
  · exact erases _
  split
  · exact (erases_onPeerReadyRecv e.fd).bind fun _ => erases _
  split
  · exact erases _
  · exact .pure _

/-- If the run has ended, the server has stopped. -/
def Sound (m : Mem) : Prop := ∀ f, m.fault = some f → ∃ e, f = .stop e

theorem finish_server {α : Type} {x : MProc α} {y : Proc α} (hx : layer.Erases x y) (h : Sound (finish x m)) :
    (finish x m).server = CmdAgent.finish y m.server := by
  have hend := hx m
  unfold finish at h ⊢
  unfold CmdAgent.finish
  cases hr : x m with
  | ok a m' =>
    have hy : y m.server = .ok a m'.server := hend.ok hr
    rw [hy]
  | error f m' =>
    rw [hr] at h
    obtain ⟨e, rfl⟩ := h f rfl
    have hy : y m.server = .error e m'.server := hend.error hr e rfl
    rw [hy]
    rfl

theorem next_server (a : Input) (h : Sound (next P m a)) :
    (next P m a).server = CmdAgent.next P m.server a.action := by
  cases a with
  | wait session owner batch =>
    refine finish_server (y := modify fun s => { s with session := session, batch := batch }) ?_ h
    refine Layer.Silent.erases_bind (fun _ => rfl) fun m₁ => ?_
    refine (silent_mjFree _).erases_bind fun _ => (silent_malloc _).erases_bind fun b => ?_
    exact Layer.Silent.erases_bind (fun _ => rfl) fun _ => erases _
  | event ans =>
    unfold next at h ⊢
    unfold Input.action CmdAgent.next
    cases hb : m.server.batch with
    | nil => rfl
    | cons e rest =>
      rw [hb] at h
      exact finish_server (erases_handleEvent e) h

/-- As long as no released memory is read, a run is a run of the server. -/
theorem reach_server (h : (memoryServer P).Reach m) (hf : Sound m) : (server P).Reach m.server := by
  induction h with
  | init h => exact .init h.1
  | @step m a _ ha ih =>
    have hsound : Sound m := fun f hf => by rw [ha.1] at hf; cases hf
    show (server P).Reach (next P m a).server
    rw [next_server a hf]
    exact .step (ih hsound) ha.2.1

end CmdAgent.Memory
