import CmdAgent.Proof.Broker
import Mathlib.Data.Finset.Card
import Mathlib.Order.Interval.Finset.Defs
import Mathlib.Data.Int.Interval

/-!
# How many commands a process can send

Every command that is passed to `send` leaves a stream open, and nothing else
does, so in a running process the open streams are as many as the commands it
has sent. The kernel gives a process descriptors below a limit, and the
descriptors of the listener, the epoll set and the database are never closed
either: so the connections that are open and all the commands ever sent add up
to less than the limit (`commands_bounded`). Once it is reached no command can
be sent any more.
-/

namespace CmdAgent

variable {P : Params} {s s' : State} {ans : Answers} {e : Ready}

/-! ## What stays open -/

/-- What is open and no connection is open afterwards. -/
def KeepsOpen (s s' : State) : Prop := ∀ f r, s.fds f = some r → (∀ c, r ≠ .peer c) → s'.fds f = some r

theorem KeepsOpen.of_fdsKept (h : FdsKept ans s.fds s'.fds) (hf : StreamsFresh ans s) : KeepsOpen s s' := by
  intro f r hr _
  rcases h f with he | ⟨hs, -⟩
  · rw [he]
    exact hr
  · rw [hf f hs] at hr
    cases hr

/-- Only the descriptor `f` changes, and it had no resource but a connection. -/
theorem KeepsOpen.of_update {f : Int} {r₀ : Option Resource} (h : s'.fds = Function.update s.fds f r₀)
    (hf : ∀ r, s.fds f = some r → ∃ c, r = .peer c) : KeepsOpen s s' := by
  intro g r hr hne
  have hgf : g ≠ f := fun heq => by
    obtain ⟨c, hc⟩ := hf r (heq ▸ hr)
    exact hne c hc
  rw [h, Function.update_of_ne hgf]
  exact hr

theorem handles_keepsOpen (hb : Book P s) (hv : ans.Valid s) {rest : List Ready} (hbatch : s.batch = e :: rest)
    {o : Option Stop} (h : Handles P ans e { s with batch := rest } o s') : KeepsOpen s s' := by
  have hsame : ∀ {s₁ : State}, s₁.fds = s.fds → KeepsOpen s s₁ := fun heq f r hr _ => by
    rw [heq]
    exact hr
  have hopened : ∀ {f : Int}, ans.accept = .accepted f → ∀ r, s.fds f = some r → ∃ c, r = .peer c := fun hacc r hr => by
    rw [(hv.accept _ hacc).2] at hr
    cases hr
  cases h with
  | accepted _ _ hacc => exact .of_update rfl (hopened hacc)
  | acceptDied _ _ hacc => exact .of_update rfl (hopened hacc)
  | closed he =>
    obtain ⟨c, hc⟩ := hb.sender he hbatch
    refine .of_update rfl fun r hr => ⟨c, ?_⟩
    rw [hc] at hr
    exact (Option.some.inj hr).symm
  | served _ _ hs => exact .of_fdsKept hs.fdsKept hv.streamsFresh
  | serveDied _ _ hs => exact .of_fdsKept hs.fdsKept hv.streamsFresh
  | serveStopped _ _ hs => exact .of_fdsKept hs.fdsKept hv.streamsFresh
  | _ => exact hsame rfl

/-! ## The streams of the commands -/

/-- A stream for each command that has been sent. -/
structure Streams (s : State) (l : List Int) : Prop where
  nodup : l.Nodup
  opened : ∀ f ∈ l, s.fds f = some .stream
  length : l.length = (addressed s.trace).length

/-- What a step leaves of the streams: there is again one for each command, and
there is no other if there was none before and the step does not stop. -/
def Leaves (s s' : State) (l : List Int) (o : Option Stop) : Prop :=
  ∃ l', Streams s' l' ∧
    (o = none → (∀ f, s.fds f = some .stream → f ∈ l) → ∀ f, s'.fds f = some .stream → f ∈ l')

/-- Nothing is sent and no stream is opened. -/
theorem Streams.leaves {l : List Int} (h : Streams s l) (hk : KeepsOpen s s') (htr : addressed s'.trace = addressed s.trace)
    {o : Option Stop} (hf : o = none → ∀ f, s'.fds f = some .stream → s.fds f = some .stream) : Leaves s s' l o :=
  ⟨l, ⟨h.nodup, fun f hm => hk f _ (h.opened f hm) (by simp), by rw [htr]; exact h.length⟩,
    fun ho hall f hs => hall f (hf ho f hs)⟩

theorem serves_leaves {l : List Int} (h : Streams s l) {fd : Int} {msg : Json} {o : Option Stop}
    (hs : Serves P ans fd msg s o s') (hv : StreamsFresh ans s)
    (hab : ∀ a b, ans.stream₁ = some a → ans.stream₂ = some b → a ≠ b) : Leaves s s' l o := by
  have hk : KeepsOpen s s' := .of_fdsKept hs.fdsKept hv
  cases hs with
  | malformed => exact h.leaves hk rfl fun _ _ hf => hf
  | ignored => exact h.leaves hk rfl fun _ _ hf => hf
  | agentStopped => exact h.leaves hk rfl fun _ _ hf => hf
  | agent =>
    exact h.leaves hk (addressed_append (fun o ho => (quiet_insertObs _ _ _ _ _ _ o ho).inner) _) fun _ _ hf => hf
  | uxStopped => exact h.leaves hk rfl fun _ _ hf => hf
  | ux _ _ hobs => exact h.leaves hk (addressed_append (fun o ho => (hobs o ho).inner) _) fun _ _ hf => hf
  | uxFailed _ _ hobs =>
    exact h.leaves hk (addressed_append (fun o ho => (hobs o ho).inner) _) fun ho => by cases ho
  | @uxSent ms _ obs obs' m d f a b answer hj ht ho hmac hobs hobs' hf hf₀ hfw ha hb hsend =>
    have hne := hab a b ha hb
    have hfds : ∀ g, afterStreams s.fds a b g = if g = a then some .stream else s.fds g := fun g => by
      by_cases hga : g = a
      · subst hga
        simp [afterStreams, hne]
      · by_cases hgb : g = b
        · subst hgb
          simp [afterStreams, hga, hv g (.inr hb)]
        · simp [afterStreams, hga, hgb]
    have hfresh : a ∉ l := fun hm => by
      have := h.opened a hm
      rw [hv a (.inl ha)] at this
      cases this
    refine ⟨a :: l, ⟨List.nodup_cons.mpr ⟨hfresh, h.nodup⟩, fun g hg => ?_, ?_⟩, fun _ hall g hg => ?_⟩
    · show afterStreams s.fds a b g = _
      rw [hfds]
      split
      · rfl
      · rename_i hga
        exact h.opened g ((List.mem_cons.mp hg).resolve_left hga)
    · show l.length + 1 = (addressed (obs' ++ .sent m f _ d answer :: (obs ++ .registered uxSession fd _ .reqUx ::
        s.trace))).length
      rw [addressed_append fun o ho => (hobs' o ho).inner, addressed, addressed_append fun o ho => (hobs o ho).inner,
        h.length]
      rfl
    · have hg' : (if g = a then some Resource.stream else s.fds g) = some .stream := (hfds g).symm.trans hg
      split at hg'
      · rename_i hga
        exact hga ▸ List.mem_cons_self ..
      · exact List.mem_cons_of_mem _ (hall g hg')

theorem handles_leaves {l : List Int} (h : Streams s l) (hb : Book P s) (hv : ans.Valid s) {rest : List Ready}
    (hbatch : s.batch = e :: rest) {o : Option Stop} (hh : Handles P ans e { s with batch := rest } o s') :
    Leaves s s' l o := by
  have hk := handles_keepsOpen hb hv hbatch hh
  have hupdate : ∀ {f : Int} {r : Option Resource}, r ≠ some .stream → ∀ g,
      Function.update s.fds f r g = some .stream → s.fds g = some .stream := fun {f r} hr g hg => by
    by_cases hgf : g = f
    · rw [hgf, Function.update_self] at hg
      exact absurd hg hr
    · rwa [Function.update_of_ne hgf] at hg
  have hserved : ∀ {data : Bytes} {o : Option Stop} {s₁ : State},
      Serves P ans e.fd (parseStringToJson P.json (cstr data))
        (handedOn { s with batch := rest } e.fd ans.recvs (cstr data)) o s₁ → Leaves s s₁ l o := fun hs =>
    serves_leaves (s := handedOn { s with batch := rest } e.fd ans.recvs _) ⟨h.nodup, h.opened, h.length⟩ hs
      hv.streamsFresh fun a b ha hb heq => (hv.stream₂ b hb).2 (heq ▸ ha)
  cases hh with
  | accepted => exact h.leaves hk rfl fun _ g hg => hupdate (by simp) g hg
  | acceptDied => exact h.leaves hk rfl fun ho => by cases ho
  | closed _ _ _ hobs =>
    exact h.leaves hk (addressed_append (fun o ho => (hobs o ho).inner) _) fun _ g hg => hupdate (by simp) g hg
  | closeDied _ _ _ hobs =>
    exact h.leaves hk (addressed_append (fun o ho => (hobs o ho).inner) _) fun ho => by cases ho
  | served _ _ hs =>
    obtain ⟨l', hl', hall⟩ := hserved hs
    exact ⟨l', ⟨hl'.nodup, hl'.opened, hl'.length⟩, hall⟩
  | serveDied _ _ hs =>
    obtain ⟨l', hl', -⟩ := hserved hs
    exact ⟨l', hl', fun ho => by cases ho⟩
  | serveStopped _ _ hs => exact hserved hs
  | _ => exact h.leaves hk rfl fun _ _ hf => hf

/-! ## Whole runs -/

/-- The kernel gives out descriptors below `L` only. -/
def Below (L : Nat) (ans : Answers) : Prop :=
  (∀ f ∈ ans.accept.fd?, f < L) ∧ (∀ f ∈ ans.stream₁, f < L) ∧ ∀ f ∈ ans.stream₂, f < L

instance (L : Nat) : Decidable (Below L ans) := inferInstanceAs (Decidable (_ ∧ _))

def Limited (L : Nat) (_ : State) : Action → Prop
  | .wait _ _ => True
  | .event ans => Below L ans

instance (L : Nat) : ∀ a, Decidable (Limited L s a)
  | .wait _ _ => isTrue trivial
  | .event ans => inferInstanceAs (Decidable (Below L ans))

/-- The open descriptors are below `L`. -/
def Within (L : Nat) (s : State) : Prop := ∀ f, s.fds f ≠ none → 0 ≤ f ∧ f < L

/-- The runs of a process with the limit `L` on its descriptors. -/
def limitedServer (P : Params) (L : Nat) : Machine State Action := (server P).restrict (Within L) (Limited L)

instance (L : Nat) (a : Action) : Decidable ((limitedServer P L).admits s a) :=
  inferInstanceAs (Decidable (((server P).restrict _ (Limited L)).admits s a))

/-- A descriptor that is open afterwards was open before, or has been given by
the kernel. -/
theorem handles_within {L : Nat} (hw : Within L s) (hv : ans.Valid s) (hl : Below L ans) {rest : List Ready}
    {o : Option Stop} (h : Handles P ans e { s with batch := rest } o s') : Within L s' := by
  have hupdate : ∀ {f : Int} {r : Option Resource} {s₁ : State}, s₁.fds = Function.update s.fds f r →
      (r ≠ none → 0 ≤ f ∧ f < L) → Within L s₁ := fun {f r s₁} heq hf g hg => by
    rw [heq] at hg
    by_cases hgf : g = f
    · rw [hgf, Function.update_self] at hg
      exact hgf ▸ hf hg
    · rw [Function.update_of_ne hgf] at hg
      exact hw g hg
  have hserved : ∀ {s₁ : State}, FdsKept ans s.fds s₁.fds → Within L s₁ := fun hk g hg => by
    rcases hk g with heq | ⟨hs | hs, -⟩
    · exact hw g (heq ▸ hg)
    · exact ⟨(hv.stream₁ g hs).1, hl.2.1 g hs⟩
    · exact ⟨(hv.stream₂ g hs).1.1, hl.2.2 g hs⟩
  cases h with
  | accepted _ _ hacc =>
    exact hupdate rfl fun _ => ⟨(hv.accept _ hacc).1, hl.1 _ (AcceptAnswer.fd?_eq_some.mpr hacc)⟩
  | acceptDied _ _ hacc =>
    exact hupdate rfl fun _ => ⟨(hv.accept _ hacc).1, hl.1 _ (AcceptAnswer.fd?_eq_some.mpr hacc)⟩
  | closed => exact hupdate rfl fun h => absurd rfl h
  | served _ _ hs => exact hserved hs.fdsKept
  | serveDied _ _ hs => exact hserved hs.fdsKept
  | serveStopped _ _ hs => exact hserved hs.fdsKept
  | _ => exact hw

/-- What is open at any moment of a run, whether it has stopped or not. -/
structure Held (P : Params) (L : Nat) (s : State) : Prop where
  own : s.fds P.listener = some .listener ∧ s.fds P.epollfd = some .epoll ∧ s.fds P.dbfd = some .database
  within : Within L s
  streams : ∃ l, Streams s l ∧ (s.stopped = none → ∀ f, s.fds f = some .stream → f ∈ l)

theorem reach_held {L : Nat} (h : (limitedServer P L).Reach s) : Held P L s := by
  refine reach_events (P := P) (I := Held P L) (fun s hi hw => ?_)
    (fun s session batch _ _ ih => ⟨ih.own, ih.within, ?_⟩) ?_ h
  · have hb := Book.of_initial hi
    refine ⟨⟨(hb.own _).1.mpr rfl, (hb.own _).2.1.mpr rfl, (hb.own _).2.2.mpr rfl⟩, hw, [], ⟨List.nodup_nil, by simp, ?_⟩,
      fun _ f hf => ?_⟩
    · rw [hi.trace]
      rfl
    · rw [hi.fds, initialFds] at hf
      split_ifs at hf <;> cases hf
  · obtain ⟨l, hl, hall⟩ := ih.streams
    exact ⟨l, ⟨hl.nodup, hl.opened, hl.length⟩, hall⟩
  · intro s ans e rest o s' _ hrun hb ih hv hbatch hc hh
    have hk := handles_keepsOpen hb hv hbatch hh
    obtain ⟨l, hl, hall⟩ := ih.streams
    obtain ⟨l', hl', hall'⟩ := handles_leaves hl hb hv hbatch hh
    have hw' : Within L s' := handles_within ih.within hv hc hh
    exact ⟨⟨hk _ _ ih.own.1 (by simp), hk _ _ ih.own.2.1 (by simp), hk _ _ ih.own.2.2 (by simp)⟩, hw', l',
      ⟨hl'.nodup, hl'.opened, hl'.length⟩, fun ho => hall' ho (hall hrun)⟩

/-- Distinct descriptors below `L` are at most `L`. -/
theorem length_le_of_within {L : Nat} (hw : Within L s) {l : List Int} (hn : l.Nodup) (hl : ∀ f ∈ l, s.fds f ≠ none) :
    l.length ≤ L := by
  have hsub : l.toFinset ⊆ Finset.Ico (0 : Int) L := fun f hf => by
    rw [List.mem_toFinset] at hf
    exact Finset.mem_Ico.mpr (hw f (hl f hf))
  have hcard := Finset.card_le_card hsub
  rw [List.toFinset_card_of_nodup hn, Int.card_Ico] at hcard
  omega

/-- Descriptors of its own, of connections and of streams are distinct. -/
theorem Held.nodup {L : Nat} (h : Held P L s) {peers streams : List Int} (hp : peers.Nodup) (hs : streams.Nodup)
    (hpeer : ∀ f ∈ peers, ∃ c, s.fds f = some (.peer c)) (hstream : ∀ f ∈ streams, s.fds f = some .stream) :
    (P.listener :: P.epollfd :: P.dbfd :: (peers ++ streams)).Nodup := by
  have hnot : ∀ {f r}, s.fds f = some r → (∀ c, r ≠ .peer c) → r ≠ .stream → f ∉ peers ++ streams := by
    intro f r hr hne hne' hm
    rcases List.mem_append.mp hm with hm | hm
    · obtain ⟨c, hc⟩ := hpeer f hm
      exact hne c (Option.some.inj (hr.symm.trans hc))
    · exact hne' (Option.some.inj (hr.symm.trans (hstream f hm)))
  have hdisj : peers.Disjoint streams := fun f hf hf' => by
    obtain ⟨c, hc⟩ := hpeer f hf
    have := hc.symm.trans (hstream f hf')
    cases this
  obtain ⟨h₁, h₂, h₃⟩ := h.own
  obtain ⟨d₁, d₂, d₃⟩ := P.distinct
  simp only [List.nodup_cons, List.mem_cons, not_or]
  exact ⟨⟨d₁, d₂, hnot h₁ (by simp) (by simp)⟩, ⟨d₃, hnot h₂ (by simp) (by simp)⟩, hnot h₃ (by simp) (by simp),
    hp.append hs hdisj⟩

/-- In a process whose descriptors are limited to `L`: as long as it runs, the
open streams are as many as the commands it has sent, and at every moment these
commands, the open connections and the three descriptors of its own are at most
`L`. -/
theorem commands_bounded {L : Nat} (h : (limitedServer P L).Reach s) :
    (s.stopped = none → ∃ streams : List Int, streams.Nodup ∧ (∀ f, f ∈ streams ↔ s.fds f = some .stream) ∧
      streams.length = (addressed s.trace).length) ∧
    ∀ peers : List Int, peers.Nodup → (∀ f ∈ peers, ∃ c, s.fds f = some (.peer c)) →
      3 + peers.length + (addressed s.trace).length ≤ L := by
  have hheld := reach_held h
  obtain ⟨l, hl, hall⟩ := hheld.streams
  refine ⟨fun hrun => ⟨l, hl.nodup, fun f => ⟨hl.opened f, hall hrun f⟩, hl.length⟩, fun peers hn hp => ?_⟩
  have hlen := length_le_of_within hheld.within (hheld.nodup hn hl.nodup hp hl.opened) fun f hf => ?_
  · rw [← hl.length]
    simp only [List.length_cons, List.length_append] at hlen
    omega
  · obtain ⟨h₁, h₂, h₃⟩ := hheld.own
    simp only [List.mem_cons, List.mem_append] at hf
    rcases hf with rfl | rfl | rfl | hf | hf
    · simp [h₁]
    · simp [h₂]
    · simp [h₃]
    · obtain ⟨c, hc⟩ := hp f hf
      simp [hc]
    · simp [hl.opened f hf]

/-- A UX client gives the same command twice. -/
def twice : List Action :=
  Flat.connect 6 ++ Flat.speaks 6 0 (Flat.hello "m") ++ Flat.connect 7 ++
    Flat.one 7 (some 1) (Flat.answers (Flat.download "m") 8 9 (.sent 99)) ++
    Flat.one 7 (some 1) (Flat.answers (Flat.download "m") 9 10 (.sent 99))

theorem commands_bounded_twice :
    let s := (limitedServer Flat.params 11).exec (Flat.start .empty) twice
    (addressed s.trace).length = 2 ∧ 3 + [6, 7].length + (addressed s.trace).length ≤ 11 := by
  intro s
  have hs : (addressed s.trace).length = 2 ∧ s.fds 6 = some (.peer 0) ∧ s.fds 7 = some (.peer 1) := by decide +kernel
  have hstart : Within 11 (Flat.start .empty) := fun f hf => by
    simp only [Flat.start, initialFds, Flat.params] at hf
    split_ifs at hf
    · omega
    · omega
    · omega
    · exact absurd rfl hf
  have hreach : (limitedServer Flat.params 11).Reach s :=
    .exec (.init ⟨Flat.initial_start .empty, hstart⟩) (by decide +kernel)
  refine ⟨hs.1, (commands_bounded hreach).2 [6, 7] (by decide) fun f hf => ?_⟩
  simp only [List.mem_cons, List.not_mem_nil, or_false] at hf
  rcases hf with rfl | rfl
  · exact ⟨0, hs.2.1⟩
  · exact ⟨1, hs.2.2⟩

end CmdAgent
