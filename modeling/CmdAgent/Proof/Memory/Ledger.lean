import CmdAgent.Proof.Memory.Blocks
import CmdAgent.Proof.Serve

/-!
# What is left of a message

`left` counts, for what is recorded in a trace, the blocks that are allocated
for it and never released: the buffer of a read that has to wait for more, a
block for each empty path, the result of a lookup, and for a command its text,
the object it was made of and a stream. Handling an event leaves just these
(`onRead_ends`), and no pointer of the session into a block in use
(`Dangling`).
-/

namespace CmdAgent.Memory

variable {P : Params} {m m' : Mem} {ans : Answers}

/-! ## Building a command -/

/-- Nothing has been recorded, and there are `n k` more blocks of the kind `k`. -/
structure Along (m m' : Mem) (n : Kind → Nat) : Prop where
  grows : Grows m m' n
  trace : m'.server.trace = m.server.trace

section

variable {only : Field → Bool} {m₀ : Mem} {n : Kind → Nat} {α β : Type} {Q : β → Mem → Prop}

theorem Along.lift (h : Along m₀ m n) {x : Proc α} {R : α → State → Prop} {k : α → MProc β}
    (hx : Ends x m.server (fun a s => R a s ∧ s.trace = m.server.trace) fun _ _ => True)
    (hk : ∀ a s, R a s → Along m₀ { m with server := s } n →
      Ends (k a) { m with server := s } Q fun e _ => FaultOf only m₀ e) :
    Ends (Memory.lift x >>= k) m Q fun e _ => FaultOf only m₀ e := by
  refine .bind ((lift_ends hx).mono ?_ fun e _ he => he.of_grows h.grows)
  rintro a m' ⟨⟨hr, ht⟩, hm'⟩
  rw [hm']
  exact hk a _ hr ⟨h.grows.server _, ht.trans h.trace⟩

theorem Along.deref (h : Along m₀ m n) {f : Field} (hf : only f = true) {k : PUnit → MProc β}
    (hk : Ends (k ⟨⟩) m Q fun e _ => FaultOf only m₀ e) : Ends (Memory.deref f >>= k) m Q fun e _ => FaultOf only m₀ e := by
  refine .bind ((deref_ends hf m).mono ?_ fun e _ he => he.of_grows h.grows)
  rintro _ m' rfl
  exact hk

theorem Along.malloc (h : Along m₀ m n) {j : Kind} {k : Nat → MProc β}
    (hk : Along m₀ { m with blocks := m.blocks.alloc j } (fun k => n k + one j k) →
      Ends (k m.blocks.next) { m with blocks := m.blocks.alloc j } Q fun e _ => FaultOf only m₀ e) :
    Ends (Memory.malloc j >>= k) m Q fun e _ => FaultOf only m₀ e :=
  .bind (hk ⟨h.grows.malloc j, h.trace⟩)

end

theorem newString_kept (p : CharPtr) (s : State) :
    Ends (jsonObjectNewString p) s (fun _ s' => p ≠ .null ∧ s'.trace = s.trace) fun _ _ => True :=
  (jsonObjectNewString_ends p s).mono
    (fun _ _ h => by obtain ⟨b, rfl, -, rfl⟩ := h; exact ⟨by simp, rfl⟩) fun _ _ _ => trivial

theorem readStr_kept (call : String) (p : CharPtr) (s : State) :
    Ends (readStr call p) s (fun _ s' => True ∧ s'.trace = s.trace) fun _ _ => True := by
  cases p with
  | null => trivial
  | wild => trivial
  | str b => exact ⟨trivial, rfl⟩

theorem sprintf_kept (text : Bytes) (s : State) :
    Ends (sprintf text) s (fun _ s' => True ∧ s'.trace = s.trace) fun _ _ => True :=
  (sprintf_ends text s).mono (fun _ _ h => ⟨trivial, by rw [h.2.2]⟩) fun _ _ _ => trivial

/-- There is a stream if and only if there is a content. -/
theorem switchCmdType_kept (cmdType path : Bytes) (s : State) :
    Ends (switchCmdType ans cmdType path) s
      (fun file s' => (file.1 = none ↔ file.2 = .null) ∧ s'.trace = s.trace) fun _ _ => True := by
  unfold switchCmdType
  split
  · refine (readFile_ends ans path s).mono ?_ fun _ _ _ => trivial
    rintro _ _ (⟨-, rfl, rfl⟩ | ⟨a, b, file, -, -, -, -, rfl, rfl⟩)
    · exact ⟨by simp, rfl⟩
    · exact ⟨by simp, rfl⟩
  · exact ⟨by simp, rfl⟩

theorem fclose_kept (fp : Option Int) (s : State) :
    Ends (fclose fp) s (fun _ s' => True ∧ s'.trace = s.trace) fun _ _ => True := by
  cases fp with
  | none => trivial
  | some fd => exact ⟨trivial, rfl⟩

/-- What building a command leaves: its text, the object it was made of, and the
stream of the first `fopen`. -/
def built (k : Kind) : Nat := one .reply k + one .stream k + one .command k

theorem msgClientInfo_ends {only : Field → Bool} (honly : ∀ f, only f = true) (json : JsonC) (m : Mem) :
    Ends (msgClientInfo json ans) m (fun _ m' => Along m m' built) fun e _ => FaultOf only m e := by
  have h₀ : Along m m 0 := ⟨.refl m, rfl⟩
  refine h₀.lift (R := fun _ _ => True) (x := get) ⟨trivial, rfl⟩ fun s _ _ h => ?_
  refine h.malloc fun h => h.deref (honly _) (h.lift (newString_kept _ _) fun _ _ _ h => ?_)
  refine h.deref (honly _) (h.lift (newString_kept _ _) fun _ _ _ h => ?_)
  refine h.lift (readStr_kept _ _ _) fun _ _ _ h => h.lift (readStr_kept _ _ _) fun _ _ _ h => ?_
  refine h.lift (switchCmdType_kept _ _ _) fun file s₁ hfp h => ?_
  unfold mallocStreams mallocFile
  by_cases hfile : file.2 = .null
  · -- there is no content, and `json_object_new_string` reads it
    rw [if_pos hfile, if_pos (hfp.mpr hfile), hfile]
    exact .bind (.pure (.bind (.pure (h.lift (newString_kept _ _) fun _ _ hn => absurd rfl hn))))
  · rw [if_neg hfile, if_neg fun hnone => hfile (hfp.mp hnone)]
    let a : Arena Kind := (((m.blocks.alloc .reply).alloc .stream).alloc .stream).alloc .file
    refine .bind (.bind (.bind ?_))
    show Ends (_ >>= _) { m with server := s₁, blocks := a } _ _
    have h : Along m { m with server := s₁, blocks := a }
        (fun k => 0 + one .reply k + one .stream k + one .stream k + one .file k) :=
      ⟨((h.grows.malloc .stream).malloc .stream).malloc .file, h.trace⟩
    refine h.lift (newString_kept _ _) fun _ s₂ _ h => h.deref (honly _) (h.lift (newString_kept _ _) fun _ s₃ _ h => ?_)
    refine h.malloc fun h => ?_
    have hfile : (m.blocks.next + 3, .file) ∈ (a.alloc .command).live := by simp [a, Arena.alloc]
    have hstream : (m.blocks.next + 2, .stream) ∈ ((a.alloc .command).free (m.blocks.next + 3)).live := by
      simp [Arena.mem_free, a, Arena.alloc]
    refine .bind ?_
    rw [Ends, mjFree, free_run (Arena.live_of_mem hfile)]
    have h : Along m _ (fun k => built k + one .stream k) :=
      ⟨h.grows.free hfile (Nat.le_add_right _ 3) fun k => by unfold built; omega, h.trace⟩
    refine h.lift (fclose_kept _ _) fun _ _ _ h => .bind ?_
    rw [Ends, mjFree, free_run (Arena.live_of_mem hstream)]
    exact .pure ⟨h.grows.free hstream (Nat.le_add_right _ 2) fun k => rfl, h.trace⟩

/-! ## The ledger -/

/-- The blocks of the kind `k` that serving a message allocates and does not
release, other than for a command: at least (`false`), and at most. The result
of a lookup is one, unless the query fails. -/
def leftByMessage (most : Bool) (k : Kind) : Json → Nat
  | .object ms =>
    if agentTypeOf ms = .reqUx then blanks ms * one .blank k + (if most then one .result k else 0) else 0
  | _ => 0

/-- The blocks of the kind `k` that are left of what is recorded: a read that
would have to wait for more leaves its buffer, and a command is built from the
result of a lookup. -/
def leftBy (most : Bool) (json : JsonC) (k : Kind) : Obs → Nat
  | .received _ _ recvs => if (readEnds [] recvs).map Prod.fst = some .again then one .buffer k else 0
  | .handed _ _ text => leftByMessage most k (parseStringToJson json text)
  | .sent _ _ _ _ _ => built k + (if most then 0 else one .result k)
  | _ => 0

def left (most : Bool) (json : JsonC) (k : Kind) (tr : List Obs) : Nat := (tr.map (leftBy most json k)).sum

theorem left_cons (most : Bool) (json : JsonC) (k : Kind) (o : Obs) (tr : List Obs) :
    left most json k (o :: tr) = leftBy most json k o + left most json k tr := List.sum_cons

theorem left_append {json : JsonC} {new : List Obs} (h : ∀ o ∈ new, o.Quiet) (most : Bool) (k : Kind)
    (tr : List Obs) : left most json k (new ++ tr) = left most json k tr := by
  induction new with
  | nil => rfl
  | cons o new ih =>
    have ho := h o (List.mem_cons_self ..)
    rw [List.cons_append, left_cons, ih fun o' ho' => h o' (List.mem_cons_of_mem _ ho')]
    cases o <;> first | exact ho.elim | exact Nat.zero_add _

/-! ## Serving a message -/

theorem storeResult_ends {E : Fault → Mem → Prop} (reply : Reply) (m : Mem) :
    Ends (storeResult reply) m
      (fun ret m' => ∃ stored, stored ≤ 1 ∧ (0 ≤ ret → stored = 1) ∧ m'.server = m.server ∧
        Grows m m' fun k => stored * one .result k) E := by
  have hnone : Grows m m fun k => 0 * one .result k := (Grows.refl m).congr fun k => by simp
  rcases reply with _ | _ | rows
  · exact .pure ⟨0, by omega, fun h => absurd h (by decide), rfl, hnone⟩
  · exact .pure ⟨0, by omega, fun h => absurd h (by decide), rfl, hnone⟩
  · exact ⟨1, le_rfl, fun _ => rfl, rfl, ((Grows.refl m).malloc .result).congr fun k => by simp⟩

theorem mysqlSelectFd_ends {only : Field → Bool} (hmac : only .minerMac = true) (p : CharPtr) (m : Mem) :
    Ends (mysqlSelectFd P ans p) m
      (fun ret m' => ∃ stored, stored ≤ 1 ∧ (0 ≤ ret → stored = 1) ∧ (∃ q, m'.server.trace = .query q :: m.server.trace) ∧
        Grows m m' fun k => stored * one .result k)
      (fun e _ => FaultOf only m e) := by
  have h₀ : Along m m 0 := ⟨.refl m, rfl⟩
  refine h₀.deref hmac (h₀.lift (readStr_kept _ _ _) fun mac s₁ _ h => ?_)
  refine h.lift (sprintf_kept _ _) fun query s₂ _ h => .bind ?_
  refine (storeResult_ends _ _).mono ?_ fun _ _ h => h
  rintro ret m' ⟨stored, hle, hret, hs, hg⟩
  refine ⟨stored, hle, hret, ⟨query, ?_⟩, ((h.grows.server _).trans hg).congr fun k => by simp⟩
  rw [hs]
  exact congrArg _ h.trace

/-- From `m` to `m'` blocks have been allocated and left: as many as the record
says, and at least `least k` and at most `most k` more. -/
structure Accounts (json : JsonC) (m m' : Mem) (least most : Kind → Nat) : Prop where
  grows : ∃ n, Grows m m' n ∧ ∀ k,
    least k + left false json k m'.server.trace ≤ n k + left false json k m.server.trace ∧
    n k + left true json k m.server.trace ≤ most k + left true json k m'.server.trace

theorem insertFd_left (json : JsonC) (p : CharPtr) (fd : Int) (t : AgentType) (s : State) :
    Ends (mysqlInsertFd P.db ans p fd t) s
      (fun _ s' => ∀ most k, left most json k s'.trace = left most json k s.trace) fun _ _ => True := by
  refine (mysqlInsertFd_ends P.db ans p fd t s).mono ?_ fun _ _ _ => trivial
  rintro _ _ ⟨mac, -, rfl⟩ most k
  show left most json k (insertObs P.db ans mac fd t s.table ++ _) = _
  rw [left_append (quiet_insertObs P.db ans mac fd t s.table), left_cons]
  exact Nat.zero_add _

theorem sendTo_left (json : JsonC) (mac : Bytes) (f : Int) (data : Bytes) (s : State) :
    Ends (sendTo ans mac f data) s
      (fun _ s' => ∀ most k, left most json k s'.trace =
        built k + (if most then 0 else one .result k) + left most json k s.trace) fun _ _ => True := by
  refine (sendTo_ends ans mac f data s).mono ?_ fun _ _ _ => trivial
  rintro _ _ ⟨answer, -, -, rfl⟩ most k
  exact left_cons ..

theorem debug_left (json : JsonC) (msg : String) (s : State) :
    Ends (debug msg) s (fun _ s' => ∀ most k, left most json k s'.trace = left most json k s.trace)
      fun _ _ => True := fun most k => by
  show left most json k (.debug msg :: s.trace) = _
  rw [left_cons]
  exact Nat.zero_add _

theorem serveUx_ends {only : Field → Bool} (honly : ∀ f, only f = true) (m : Mem) :
    Ends (serveUx P ans) m (fun _ m' => Accounts P.json m m' 0 (one .result)) (fun e _ => FaultOf only m e) := by
  refine .bind ?_
  show Ends _ m _ _
  refine .bind ((lift_ends (insertFd_left P.json _ _ _ _)).mono ?_ fun _ _ h => h)
  rintro _ m₁ ⟨h₁, hm₁⟩
  have hg₁ : Grows m m₁ 0 := hm₁ ▸ (Grows.refl m).server _
  refine .bind ((mysqlSelectFd_ends (honly _) _ m₁).mono ?_ fun _ _ he => he.of_grows hg₁)
  rintro ret m₂ ⟨stored, hle, hret, ⟨q, hq⟩, hg₂⟩
  have h₂ : ∀ most k, left most P.json k m₂.server.trace = left most P.json k m.server.trace := fun most k => by
    rw [hq, left_cons, h₁]
    exact Nat.zero_add _
  have hg₂ := hg₁.trans hg₂
  split
  · -- not found: there may be a result, without a row
    refine (lift_ends (debug_left P.json _ _)).mono ?_ fun _ _ he => he.of_grows hg₂
    rintro _ m₃ ⟨h₃, hm₃⟩
    refine ⟨_, hm₃ ▸ hg₂.server _, fun k => ?_⟩
    rw [h₃, h₃, h₂, h₂]
    have hone : stored * one .result k ≤ 1 * one .result k := Nat.mul_le_mul_right _ hle
    simp only [Pi.zero_apply]
    omega
  · rename_i hpos
    obtain rfl : stored = 1 := hret (not_lt.mp hpos)
    refine .bind ((msgClientInfo_ends honly P.json m₂).mono ?_ fun _ _ he => he.of_grows hg₂)
    rintro sendData m₃ ⟨hg₃, ht₃⟩
    have hg₃ := hg₂.trans hg₃
    refine .bind ((lift_ends (readStr_kept _ _ _)).mono ?_ fun _ _ he => he.of_grows hg₃)
    rintro mac m₄ ⟨⟨-, ht₄⟩, hm₄⟩
    have hg₄ : Grows m m₄ _ := hm₄ ▸ hg₃.server _
    refine .bind ((lift_ends (sendTo_left P.json _ _ _ _)).mono ?_ fun _ _ he => he.of_grows hg₄)
    rintro result m₅ ⟨h₅, hm₅⟩
    have hg₅ : Grows m m₅ _ := hm₅ ▸ hg₄.server _
    have hlast : Ends (if 0 < result then pure ⟨⟩ else debug "fail : session_table_match_non_client") m₅.server
        (fun _ s => ∀ most k, left most P.json k s.trace = left most P.json k m₅.server.trace) fun _ _ => True := by
      split
      · exact .pure fun _ _ => rfl
      · exact debug_left P.json _ _
    refine (lift_ends hlast).mono ?_ fun _ _ he => he.of_grows hg₅
    rintro _ m₆ ⟨h₆, hm₆⟩
    refine ⟨_, hm₆ ▸ hg₅.server _, fun k => ?_⟩
    rw [h₆, h₆, h₅, h₅, ht₄, ht₃, h₂, h₂]
    simp only [Pi.zero_apply, Bool.false_eq_true, if_false, if_true]
    omega

theorem serveAgent_ends {only : Field → Bool} (hmac : only .minerMac = true) (m : Mem) :
    Ends (serveAgent P ans) m (fun _ m' => Accounts P.json m m' 0 0) (fun e _ => FaultOf only m e) := by
  refine .bind ?_
  show Ends _ m _ _
  refine .bind ((deref_ends hmac m).mono ?_ fun _ _ h => h)
  rintro _ m' rfl
  refine .bind ((lift_ends (insertFd_left P.json _ _ _ _)).mono ?_ fun _ _ h => h)
  rintro _ m₁ ⟨h₁, hm₁⟩
  refine .pure ⟨0, hm₁ ▸ (Grows.refl m').server _, fun k => ?_⟩
  rw [h₁, h₁]
  exact ⟨le_rfl, le_rfl⟩

/-- The pointers that are read to serve a message. -/
def Reads (ms : List Member) (g : Field) : Prop :=
  agentTypeOf ms = .reqUx ∨ agentTypeOf ms = .reqLinuxClaymore ∧ g = .minerMac

/-- The message is served, and sets `miner_mac`. -/
def SetsMac (ms : List Member) : Prop := Reads ms .minerMac ∧ lastString Field.minerMac.key ms ≠ none

/-- The server has stopped, or a pointer is read that the message has not set,
and that leads into released memory. -/
def ServeFault (m : Mem) (json : Json) (e : Fault) : Prop :=
  (∃ e', e = .stop e') ∨ ∃ ms g b, json = .object ms ∧ e = .released g ∧ Reads ms g ∧ lastString g.key ms = none ∧
    m.owner g = some b ∧ ¬m.blocks.Live b

/-- What serving a message in the block `doc` leaves. -/
structure Served (P : Params) (m m' : Mem) (json : Json) (doc : Nat) : Prop where
  accounts : Accounts P.json m { m' with owner := m.owner } (leftByMessage false · json) (leftByMessage true · json)
  owner : ∀ f b, m'.owner f = some b → b = doc ∨ m.owner f = some b
  mac : m'.owner .minerMac = none ↔ m.owner .minerMac = none ∧ ¬∃ ms, json = .object ms ∧ SetsMac ms

/-- The message is live while it is served, so that the pointers it has set can
be read. -/
theorem Points.serveFault {only : Field → Bool} {ms : List Member} {doc n : Nat}
    (h : Points m m' (fun f => sets only doc f (lastString f.key ms)) n) (hdoc : m.blocks.Live doc)
    (hreads : ∀ g, only g = true → Reads ms g) {e : Fault} (he : FaultOf only m' e) :
    ServeFault m (.object ms) e := by
  rcases he with hs | ⟨g, b, rfl, hg, hb, hlive⟩
  · exact .inl hs
  have hkept : ∀ c, m.blocks.Live c → m'.blocks.Live c := fun c hc => by
    obtain ⟨p, hp, rfl⟩ := List.mem_map.mp hc
    exact List.mem_map_of_mem ((h.grows.live p (m.blocks.below p hp)).mpr hp)
  rw [h.owner, sets, if_pos hg] at hb
  cases hl : lastString g.key ms with
  | none =>
    rw [hl] at hb
    exact .inr ⟨ms, g, b, rfl, rfl, hreads g hg, hl, hb, fun hc => hlive (hkept b hc)⟩
  | some s =>
    rw [hl] at hb
    have hinto : g.into doc s = some b := hb
    unfold Field.into at hinto
    split at hinto
    · cases hinto
    · obtain rfl := Option.some.inj hinto
      exact absurd (hkept doc hdoc) hlive

theorem Points.owner_cases {only : Field → Bool} {ms : List Member} {doc n : Nat}
    (h : Points m m' (fun f => sets only doc f (lastString f.key ms)) n) {f : Field} {b : Nat}
    (hb : m'.owner f = some b) : b = doc ∨ m.owner f = some b := by
  rw [h.owner] at hb
  cases hs : sets only doc f (lastString f.key ms) with
  | none =>
    rw [hs] at hb
    exact .inr hb
  | some r =>
    rw [hs] at hb
    unfold sets at hs
    split at hs
    · obtain ⟨s, -, rfl⟩ := Option.map_eq_some_iff.mp hs
      have hinto : f.into doc s = some b := hb
      unfold Field.into at hinto
      split at hinto
      · cases hinto
      · exact .inl (Option.some.inj hinto).symm
    · cases hs

/-- `miner_mac` leads nowhere as long as no message sets it. -/
theorem Points.mac {only : Field → Bool} {ms : List Member} {doc n : Nat}
    (h : Points m m' (fun f => sets only doc f (lastString f.key ms)) n) (honly : only .minerMac = true)
    (hreads : Reads ms .minerMac) :
    m'.owner .minerMac = none ↔ m.owner .minerMac = none ∧ ¬∃ ms', Json.object ms = .object ms' ∧ SetsMac ms' := by
  have howner : m'.owner .minerMac =
      ((lastString Field.minerMac.key ms).map (Field.minerMac.into doc)).getD (m.owner .minerMac) := by
    rw [h.owner, sets, if_pos honly]
  rw [howner]
  cases hl : lastString Field.minerMac.key ms with
  | none =>
    refine (and_iff_left ?_).symm
    rintro ⟨_, hj, -, hs⟩
    obtain rfl := Json.object.inj hj
    exact hs hl
  | some s =>
    have hinto : Field.minerMac.into doc s = some doc := rfl
    rw [Option.map_some, Option.getD_some, hinto]
    refine ⟨fun hn => absurd hn (by simp), fun hn => absurd ⟨ms, rfl, hreads, ?_⟩ hn.2⟩
    rw [hl]
    simp

/-- The pointers are set, and then the message is served. -/
theorem Accounts.of_points {g : Field → Option (Option Nat)} {n : Nat} {m₁ : Mem} {least most : Kind → Nat}
    (h : Points m m₁ g n) (h' : Accounts P.json m₁ m' least most) :
    Accounts P.json m { m' with owner := m.owner } (fun k => n * one .blank k + least k)
      (fun k => n * one .blank k + most k) := by
  obtain ⟨n', hg, hk⟩ := h'.grows
  have hgrows : Grows m { m' with owner := m.owner } fun k => n * one .blank k + n' k := by
    have h₁ := h.grows
    refine ⟨rfl, hg.session.trans h₁.session, hg.fault.trans h₁.fault, h₁.next.trans hg.next,
      fun p hp => (hg.live p (lt_of_lt_of_le hp h₁.next)).trans (h₁.live p hp), fun k => ?_⟩
    have e₁ : m₁.blocks.count k = m.blocks.count k + n * one .blank k := h₁.count k
    show m'.blocks.count k = _
    rw [hg.count, e₁, Nat.add_assoc]
  refine ⟨_, hgrows, fun k => ?_⟩
  have := hk k
  rw [h.server] at this
  show _ + left false P.json k m'.server.trace ≤ _ ∧ _ ≤ _ + left true P.json k m'.server.trace
  omega

/-- The session of the server has no part in the books. -/
theorem Accounts.of_session {json : JsonC} {σ : Session} {least most : Kind → Nat}
    (h : Accounts json { m with server := { m.server with session := σ } } m' least most) :
    Accounts json m m' least most := by
  obtain ⟨n, hg, hk⟩ := h.grows
  exact ⟨n, ⟨hg.owner, hg.session, hg.fault, hg.next, hg.live, hg.count⟩, hk⟩

theorem serve_ends (fd : Int) (json : Json) {doc : Nat} (hdoc : m.blocks.Live doc) :
    Ends (serve P ans fd json doc) m (fun _ m' => Served P m m' json doc) (fun e _ => ServeFault m json e) := by
  unfold serve
  by_cases hobj : json.IsObject
  · obtain ⟨ms, rfl⟩ := hobj
    rw [getAgentType_object]
    have hleft : ∀ most k, leftByMessage most k (.object ms) =
        if agentTypeOf ms = .reqUx then blanks ms * one .blank k + (if most then one .result k else 0) else 0 :=
      fun _ _ => rfl
    cases ht : agentTypeOf ms with
    | reqInvalid =>
      have hnone : ∀ most k, leftByMessage most k (.object ms) = 0 := fun most k => by simp [hleft, ht]
      refine .bind ⟨⟨0, (Grows.refl m).server _, fun k => ?_⟩, fun f b hb => .inr hb, (and_iff_left ?_).symm⟩
      · rw [hnone, hnone]
        exact ⟨le_rfl, le_rfl⟩
      · rintro ⟨_, hj, hreads, -⟩
        obtain rfl := Json.object.inj hj
        rcases hreads with ht' | ⟨ht', -⟩ <;> rw [ht] at ht' <;> cases ht'
    | reqWindowClaymore => exact absurd ht (agentTypeOf_ne_window ms)
    | reqUx =>
      show Ends (foreach (cmdMember doc) ms >>= fun _ => serveUx P ans)
        { m with server := { m.server with
            session := ms.foldl CmdAgent.cmdMember { m.server.session with fd := fd, agentType := .reqUx } } } _ _
      refine .bind ((foreach_ends (cmdMember_ends doc) ms _).mono (fun _ m₁ h => ?_) fun _ _ h => h.elim)
      have hfault : ∀ e, FaultOf (fun _ => true) m₁ e → ServeFault m (.object ms) e := fun e he => by
        have hf := h.serveFault hdoc (fun _ _ => .inl ht) he
        exact hf
      refine (serveUx_ends (fun _ => rfl) m₁).mono (fun _ m₂ h' => ?_) fun e _ he => hfault e he
      have hacc := (Accounts.of_points h h').of_session
      have hown : m₂.owner = m₁.owner := by
        obtain ⟨n, hg, -⟩ := h'.grows
        exact hg.owner
      have hmac := h.mac rfl (.inl ht)
      refine ⟨?_, fun f b hb => h.owner_cases (hown ▸ hb), by rw [hown]; exact hmac⟩
      simp only [hleft, ht, if_true]
      exact hacc
    | reqLinuxClaymore =>
      show Ends (foreach (agentMember doc) ms >>= fun _ => serveAgent P ans)
        { m with server := { m.server with
            session := ms.foldl CmdAgent.agentMember
              { m.server.session with fd := fd, agentType := .reqLinuxClaymore } } } _ _
      refine .bind ((foreach_ends (agentMember_ends doc) ms _).mono (fun _ m₁ h => ?_) fun _ _ h => h.elim)
      have hfault : ∀ e, FaultOf (· = .minerMac) m₁ e → ServeFault m (.object ms) e := fun e he => by
        have hf := h.serveFault hdoc (fun g hg => .inr ⟨ht, of_decide_eq_true hg⟩) he
        exact hf
      refine (serveAgent_ends rfl m₁).mono (fun _ m₂ h' => ?_) fun e _ he => hfault e he
      have hacc := (Accounts.of_points h h').of_session
      have hown : m₂.owner = m₁.owner := by
        obtain ⟨n, hg, -⟩ := h'.grows
        exact hg.owner
      have hmac := h.mac rfl (.inr ⟨ht, rfl⟩)
      refine ⟨?_, fun f b hb => h.owner_cases (hown ▸ hb), by rw [hown]; exact hmac⟩
      simp only [hleft, ht]
      simpa using hacc
  · rw [getAgentType_of_not_object hobj]
    exact .bind (.inl ⟨_, rfl⟩)

/-! ## Reading a message -/

/-- `socket_read` returns null at the end of file, and only there. -/
theorem socketReadLoop_ret {recvs : List Recv} {buf data : Bytes} {n ret : Int} {k : Nat} {rest : List Recv}
    (h : socketReadLoop buf n k recvs = some (.ok (some data, ret), rest)) : ret ≠ -1 := by
  induction recvs generalizing buf n k with
  | nil => simp [socketReadLoop] at h
  | cons r recvs ih =>
    cases r with
    | eof => simp [socketReadLoop] at h
    | wouldBlock =>
      simp only [socketReadLoop, Option.some.injEq, Prod.mk.injEq, Except.ok.injEq] at h
      omega
    | failed =>
      simp only [socketReadLoop, Option.some.injEq, Prod.mk.injEq, Except.ok.injEq] at h
      omega
    | data chunk stray =>
      simp only [socketReadLoop] at h
      split at h
      · simp at h
      · split at h
        · simp only [Option.some.injEq, Prod.mk.injEq, Except.ok.injEq] at h
          omega
        · exact ih h

/-- `on_peer_ready_recv` once `socket_read` has returned. -/
def onRead (P : Params) (ans : Answers) (fd : Int) (recvData : Nat) : Option ReadEnd → MProc FdStatus
  | none => lift (undefined "recv")
  | some .overflow => lift (undefined "recv_len")
  | some .eof => do
    free recvData
    pure fdStatusNORW
  | some .again => pure fdStatusR
  | some .failed => lift (perrorDie "recv")
  | some (.frame data) => do
    lift (emitAt fd fun conn => .handed fd conn (cstr data))
    let doc ← malloc .message
    serve P ans fd (parseStringToJson P.json (cstr data)) doc
    free recvData
    free doc
    pure fdStatusR

theorem onPeerReadyRecv_eq (ans : Answers) (fd : Int) :
    onPeerReadyRecv P ans fd = (do
      lift (assertLtMaxfds fd)
      let _ ← lift (getSlot fd)
      lift (emitAt fd fun conn => .received fd conn ans.recvs)
      let recvData ← malloc .buffer
      onRead P ans fd recvData ((readEnds [] ans.recvs).map Prod.fst)) := by
  unfold onPeerReadyRecv
  refine congrArg _ (funext fun _ => congrArg _ (funext fun _ => congrArg _ (funext fun _ => congrArg _
    (funext fun buffer => ?_))))
  rw [← socketRead_eq]
  rcases hr : socketRead ans.recvs with _ | ⟨r, rest⟩
  · rfl
  · rcases r with e | ⟨_ | data, ret⟩
    · rw [socketReadLoop_error hr]; rfl
    · rfl
    · have hret := socketReadLoop_ret hr
      simp only [Option.map_some, Prod.map_fst, ReadEnd.ofResult, if_neg hret]
      split
      · rfl
      split <;> rfl

/-- Between events, the pointers that messages have set lead into memory that has
been released. -/
def Dangling (m : Mem) : Prop := ∀ f b, m.owner f = some b → b < m.blocks.next ∧ ¬m.blocks.Live b

/-- What handling an event leaves, if `set` says whether it delivers a message
that sets `miner_mac`. -/
structure Handled (json : JsonC) (m m' : Mem) (set : Prop) : Prop where
  accounts : Accounts json m { m' with owner := m.owner } 0 0
  dangling : Dangling m'
  mac : m'.owner .minerMac = none ↔ m.owner .minerMac = none ∧ ¬set

/-- What is received is the message with the members `ms`. -/
def Delivers (P : Params) (ans : Answers) (ms : List Member) : Prop :=
  ∃ data, (readEnds [] ans.recvs).map Prod.fst = some (.frame data) ∧ parseStringToJson P.json (cstr data) = .object ms

/-- The server has stopped, or the event delivers a message that is served by
reading a pointer which it has not set, but an earlier one has. -/
def EventFault (P : Params) (m : Mem) (ans : Answers) (e : Fault) : Prop :=
  (∃ e', e = .stop e') ∨ ∃ ms g b, Delivers P ans ms ∧ e = .released g ∧ Reads ms g ∧ lastString g.key ms = none ∧
    m.owner g = some b

/-- Blocks that are not live stay so. -/
theorem Grows.not_live {n : Kind → Nat} (h : Grows m m' n) {b : Nat} (hb : b < m.blocks.next)
    (hl : ¬m.blocks.Live b) : ¬m'.blocks.Live b := by
  intro hl'
  obtain ⟨p, hp, rfl⟩ := List.mem_map.mp hl'
  exact hl (List.mem_map_of_mem ((h.live p hb).mp hp))

theorem Dangling.grows {n : Kind → Nat} (h : Dangling m) (hg : Grows m m' n) : Dangling m' := fun f b hb => by
  rw [hg.owner] at hb
  obtain ⟨hlt, hl⟩ := h f b hb
  exact ⟨lt_of_lt_of_le hlt hg.next, hg.not_live hlt hl⟩

theorem left_read (most : Bool) {json : JsonC} {r : ReadEnd} (fd : Int) (conn : Option Nat) {recvs : List Recv}
    (hr : (readEnds [] recvs).map Prod.fst = some r) (k : Kind) :
    leftBy most json k (.received fd conn recvs) = if r = .again then one .buffer k else 0 := by
  simp only [leftBy, hr, Option.some.injEq]

/-- The buffer and the message are released once the message has been served. -/
theorem Served.released {m₂ m₃ : Mem} {json : Json} {buffer doc : Nat} (hd : Dangling m)
    (hg : Grows m m₂ fun k => 0 + one .buffer k + one .message k) (hbuffer : (buffer, .buffer) ∈ m₂.blocks.live)
    (hdoc : (doc, .message) ∈ m₂.blocks.live) (hnew : m.blocks.next ≤ buffer ∧ m.blocks.next ≤ doc ∧ doc ≠ buffer)
    (hleft : ∀ most k, left most P.json k m₂.server.trace =
      leftByMessage most k json + left most P.json k m.server.trace)
    (h : Served P m₂ m₃ json doc) :
    Ends (free buffer >>= fun _ => free doc >>= fun _ => pure fdStatusR) m₃
      (fun _ m' => Handled P.json m m' (∃ ms, json = .object ms ∧ SetsMac ms)) (fun e _ => EventFault P m ans e) := by
  obtain ⟨n, hg₃, hk⟩ := h.accounts.grows
  have hb₃ : (buffer, .buffer) ∈ m₃.blocks.live := (hg₃.live _ (m₂.blocks.below _ hbuffer)).mpr hbuffer
  have hd₃ : (doc, .message) ∈ m₃.blocks.live := (hg₃.live _ (m₂.blocks.below _ hdoc)).mpr hdoc
  have hd₄ : (doc, .message) ∈ (m₃.blocks.free buffer).live := Arena.mem_free.mpr ⟨hd₃, hnew.2.2⟩
  rw [Ends, bind_run (free_run (Arena.live_of_mem hb₃)), bind_run (free_run (Arena.live_of_mem hd₄))]
  have hg₄ := (hg.trans hg₃).free (l := fun k => n k + one .message k) hb₃ hnew.1 fun k => by omega
  have hg₅ := hg₄.free (l := n) hd₄ hnew.2.1 fun k => rfl
  have htable : Accounts P.json m { m₃ with owner := m.owner, blocks := (m₃.blocks.free buffer).free doc } 0 0 := by
    refine ⟨n, ⟨rfl, hg₅.session, hg₅.fault, hg₅.next, hg₅.live, hg₅.count⟩, fun k => ?_⟩
    have := hk k
    rw [hleft, hleft] at this
    show 0 + left false P.json k m₃.server.trace ≤ _ ∧ _ ≤ 0 + left true P.json k m₃.server.trace
    dsimp only at this
    omega
  refine ⟨htable, fun f b hb => ?_, by rw [← hg.owner]; exact h.mac⟩
  rcases h.owner f b hb with rfl | hold
  · refine ⟨m₃.blocks.below _ hd₃, fun hl => ?_⟩
    exact (Arena.live_free.mp hl).2 rfl
  · rw [hg.owner] at hold
    obtain ⟨hlt, hnot⟩ := hd f b hold
    exact ⟨lt_of_lt_of_le hlt hg₅.next, hg₅.not_live hlt hnot⟩

/-- A message is read and served, and its blocks are released. -/
theorem onFrame_ends {fd : Int} {data : Bytes} {s : State} (hd : Dangling m)
    (hr : (readEnds [] ans.recvs).map Prod.fst = some (.frame data))
    (hleft : ∀ most k, left most P.json k s.trace = left most P.json k m.server.trace) :
    Ends (onRead P ans fd m.blocks.next (some (.frame data))) { m with server := s, blocks := m.blocks.alloc .buffer }
      (fun _ m' => Handled P.json m m' (∃ ms, Delivers P ans ms ∧ SetsMac ms)) (fun e _ => EventFault P m ans e) := by
  have hemit : lift (emitAt fd fun conn => .handed fd conn (cstr data))
      { m with server := s, blocks := m.blocks.alloc .buffer } = .ok ⟨⟩
        { m with
          server := { s with trace := .handed fd (s.peerAt fd) (cstr data) :: s.trace }
          blocks := m.blocks.alloc .buffer } := rfl
  have hg := (((Grows.refl m).malloc .buffer).malloc .message).server
    { s with trace := .handed fd (s.peerAt fd) (cstr data) :: s.trace }
  have hdoc : (m.blocks.next + 1, .message) ∈ ((m.blocks.alloc .buffer).alloc .message).live := by simp [Arena.alloc]
  have hbuffer : (m.blocks.next, .buffer) ∈ ((m.blocks.alloc .buffer).alloc .message).live := by simp [Arena.alloc]
  have hleft₂ : ∀ most k, left most P.json k (.handed fd (s.peerAt fd) (cstr data) :: s.trace) =
      leftByMessage most k (parseStringToJson P.json (cstr data)) + left most P.json k m.server.trace := fun most k => by
    rw [left_cons, hleft]
    rfl
  simp only [onRead]
  rw [Ends, bind_run hemit]
  refine Ends.bind (Ends.bind ((serve_ends fd _ (Arena.live_of_mem hdoc)).mono (fun _ m₃ h => ?_) fun e _ he => ?_))
  · have hset : (∃ ms, Delivers P ans ms ∧ SetsMac ms) ↔
        ∃ ms, parseStringToJson P.json (cstr data) = .object ms ∧ SetsMac ms := by
      simp only [Delivers, hr, Option.some.injEq, ReadEnd.frame.injEq, exists_eq_left']
    rw [hset]
    exact h.released hd hg hbuffer hdoc ⟨le_rfl, Nat.le_succ _, Nat.succ_ne_self _⟩ hleft₂
  · rcases he with hs | ⟨ms, g, b, hj, rfl, hreads, hlast, hb, -⟩
    · exact .inl hs
    · exact .inr ⟨ms, g, b, ⟨data, hr, hj⟩, rfl, hreads, hlast, hb⟩

theorem onRead_ends {fd : Int} {conn : Option Nat} {s : State} (hd : Dangling m)
    (htr : s.trace = .received fd conn ans.recvs :: m.server.trace) :
    Ends (onRead P ans fd m.blocks.next ((readEnds [] ans.recvs).map Prod.fst))
      { m with server := s, blocks := m.blocks.alloc .buffer }
      (fun _ m' => Handled P.json m m' (∃ ms, Delivers P ans ms ∧ SetsMac ms)) (fun e _ => EventFault P m ans e) := by
  have hbuffer : (m.blocks.next, .buffer) ∈ (m.blocks.alloc .buffer).live := by simp [Arena.alloc]
  have hg := ((Grows.refl m).malloc .buffer).server s
  rcases hr : (readEnds [] ans.recvs).map Prod.fst with _ | r
  · exact .inl ⟨_, rfl⟩
  have hleft : ∀ most k, left most P.json k s.trace =
      (if r = .again then one .buffer k else 0) + left most P.json k m.server.trace := fun most k => by
    rw [htr, left_cons, left_read most fd conn hr]
  have hmac (hne : ∀ data, r ≠ .frame data) : m.owner .minerMac = none ↔
      m.owner .minerMac = none ∧ ¬∃ ms, Delivers P ans ms ∧ SetsMac ms := by
    refine (and_iff_left ?_).symm
    rintro ⟨ms, ⟨data, hf, -⟩, -⟩
    exact hne data (Option.some.inj (hr.symm.trans hf))
  cases r with
  | failed => exact .inl ⟨_, rfl⟩
  | overflow => exact .inl ⟨_, rfl⟩
  | again =>
    refine .pure ⟨⟨_, hg, fun k => ?_⟩, hd.grows hg, hmac fun _ => ReadEnd.noConfusion⟩
    rw [hleft, hleft]
    simp
  | eof =>
    refine .bind ?_
    rw [Ends, free_run (Arena.live_of_mem hbuffer)]
    have hg' : Grows m _ 0 := hg.free hbuffer le_rfl fun k => rfl
    refine ⟨⟨_, hg', fun k => ?_⟩, hd.grows hg', hmac fun _ => ReadEnd.noConfusion⟩
    rw [hleft, hleft]
    simp
  | frame data => exact onFrame_ends hd hr fun most k => (hleft most k).trans (Nat.zero_add _)

end CmdAgent.Memory
