import CmdAgent.Impl.Startup
import CmdAgent.Proof.Restart

/-!
# The start of the process

The first call that fails decides how `main` ends (`failure`), before anything
is written to the table; if none fails, the loop starts in an initial state of
the server (`startup`). Its descriptors are those the kernel has to give, so
that they depend on the descriptors the process inherits only, and are the same
in every process that inherits the same (`Lowest.unique`). The port that is
printed need not be the one the socket is bound to: `htons` takes 16 bits of
the number, and `bind` chooses a port where they are zero.
-/

namespace CmdAgent.Startup

variable {ans : BootAnswers} {inherited : List Int}

/-! ## Descriptors -/

theorem Lowest.unique {taken : List Int} {fd fd' : Int} (h : Lowest taken fd) (h' : Lowest taken fd') : fd = fd' := by
  rcases lt_trichotomy fd fd' with hlt | heq | hlt
  · exact absurd (h'.least fd h.nonneg hlt) h.free
  · exact heq
  · exact absurd (h.least fd' h'.nonneg hlt) h'.free

/-- Where the descriptors below `n` are open, and no other, the next one is `n`. -/
theorem lowest_of_mem_iff {taken : List Int} {n : Int} (hn : 0 ≤ n) (h : ∀ g, g ∈ taken ↔ 0 ≤ g ∧ g < n) :
    Lowest taken n := by
  refine ⟨hn, fun hmem => ?_, fun g h₀ hg => (h g).mpr ⟨h₀, hg⟩⟩
  have := (h n).mp hmem
  omega

/-- The descriptors of the listener, the epoll set and the database, opened in
the order of the start. -/
structure Given (inherited : List Int) (l e d : Int) : Prop where
  database : Lowest inherited d
  listener : Lowest (d :: inherited) l
  epoll : Lowest (l :: d :: inherited) e

theorem Given.distinct {l e d : Int} (h : Given inherited l e d) : l ≠ e ∧ l ≠ d ∧ e ≠ d := by
  have hl := h.listener.free
  have he := h.epoll.free
  simp only [List.mem_cons, not_or] at hl he
  exact ⟨fun hle => he.1 hle.symm, hl.1, he.2.1⟩

theorem Given.unique {l e d l' e' d' : Int} (h : Given inherited l e d) (h' : Given inherited l' e' d') :
    l = l' ∧ e = e' ∧ d = d' := by
  obtain rfl := h.database.unique h'.database
  obtain rfl := h.listener.unique h'.listener
  exact ⟨rfl, h.epoll.unique h'.epoll, rfl⟩

/-! ## Ports -/

theorem uint16_lt (i : Int) : uint16 i < 2 ^ 16 := by
  unfold uint16
  omega

theorem htons_htons {n : Nat} (h : n < 2 ^ 16) : htons (htons n) = n := by
  unfold htons
  omega

/-- The port the socket is bound to is the one that is printed for the port
numbers there are, and for no other number. -/
theorem portOf_eq_iff (hv : ans.Valid inherited) (portnum : Int) :
    (portOf ans (htons (uint16 portnum)) : Int) = portnum ↔ 0 < portnum ∧ portnum < 2 ^ 16 := by
  have hlt := uint16_lt portnum
  obtain ⟨hpos, hmax⟩ := hv.ephemeral
  unfold portOf
  rw [htons_htons hlt]
  unfold uint16
  split
  · omega
  · omega

/-! ## Calls that fail -/

/-- How `main` ends before its loop. -/
inductive Ending where
  | returned (code : Int)
  | died (msg : String)

/-- The calls of the start in order: whether each fails, and how `main` then
ends. -/
def calls (ans : BootAnswers) : List (Bool × Ending) :=
  [(ans.connect.isNone, .returned (-1)),
    (ans.socket.isNone, .died "ERROR opening socket"),
    (ans.setsockoptFails, .died "setsockopt"),
    (ans.bindFails, .died "ERROR on binding"),
    (ans.listenFails, .died "ERROR on listen"),
    (ans.fcntl = .getFailed, .died "fcntl F_GETFL"),
    (ans.fcntl = .setFailed, .died "fcntl F_SETFL O_NONBLOCK"),
    (ans.epollCreate.isNone, .died "epoll_create1"),
    (ans.ctlFails, .died "epoll_ctl EPOLL_CTL_ADD"),
    (ans.callocFails, .died "Unable to allocate memory for epoll_events")]

/-- The first call that fails decides. -/
def failure (ans : BootAnswers) : Option Ending := ((calls ans).find? (·.1)).map (·.2)

/-- A program ends in the given way, with the table as it was and nothing
recorded. -/
def EndsBefore (x : Boot Outcome) (p : Process) (r : Ending) : Prop :=
  ∃ p', (x p = match r with
      | .returned code => .ok (.returned code) p'
      | .died msg => .error (.die msg) p') ∧ p'.server.table = p.server.table ∧ p'.server.trace = p.server.trace

theorem EndsBefore.of_some {x : Boot Outcome} {p : Process} {r r' : Ending} (h : some r' = some r)
    (hx : EndsBefore x p r') : EndsBefore x p r := by
  obtain rfl := Option.some.inj h
  exact hx

/-- The state in which the loop starts. -/
def entered (p : Process) (l e d : Int) : State :=
  { p.server with
    fds := Function.update (Function.update (Function.update p.server.fds d (some .database)) l (some .listener)) e
      (some .epoll)
    epoll := Function.update p.server.epoll l (some ⟨true, false⟩) }

/-- A call that fails after others that do not is the one that `main` ends at. -/
theorem mainStart_failure {r : Ending} (h : failure ans = some r) (argv : List Bytes) (table : Table)
    (session : Session) : EndsBefore (mainStart ans argv) (Process.exec table session) r := by
  obtain ⟨connect, connectError, socket, reuse, bind, ephemeral, listen, fcntl, epollCreate, ctl, calloc⟩ := ans
  -- at each call: it fails, and the rest is not run, or the next one is looked at
  cases connect with
  | none => exact .of_some h ⟨_, rfl, rfl, rfl⟩
  | some d =>
  cases socket with
  | none => exact .of_some h ⟨_, rfl, rfl, rfl⟩
  | some l =>
  cases reuse with
  | true => exact .of_some h ⟨_, rfl, rfl, rfl⟩
  | false =>
  cases bind with
  | true => exact .of_some h ⟨_, rfl, rfl, rfl⟩
  | false =>
  cases listen with
  | true => exact .of_some h ⟨_, rfl, rfl, rfl⟩
  | false =>
  cases fcntl with
  | getFailed => exact .of_some h ⟨_, rfl, rfl, rfl⟩
  | setFailed => exact .of_some h ⟨_, rfl, rfl, rfl⟩
  | done =>
  cases epollCreate with
  | none => exact .of_some h ⟨_, rfl, rfl, rfl⟩
  | some e =>
  cases ctl with
  | true => exact .of_some h ⟨_, rfl, rfl, rfl⟩
  | false =>
  cases calloc with
  | true => exact .of_some h ⟨_, rfl, rfl, rfl⟩
  | false => cases h

/-- If no call fails, the loop starts. -/
theorem mainStart_run (h : failure ans = none) (argv : List Bytes) (table : Table) (session : Session) :
    ∃ d l e, ans.connect = some d ∧ ans.socket = some l ∧ ans.epollCreate = some e ∧
      mainStart ans argv (Process.exec table session) = .ok (.loops l e d)
        { server := entered (Process.exec table session) l e d
          socket :=
            { reuseAddr := true
              port := some (portOf ans (htons (uint16 (portnumOf argv))))
              backlog := some N_BACKLOG
              nonBlocking := true }
          output := ["Serving on port " ++ toString (portnumOf argv) ++ "\n"] } := by
  simp only [failure, Option.map_eq_none_iff, List.find?_eq_none] at h
  simp only [calls, List.mem_cons, List.not_mem_nil, or_false, forall_eq_or_imp, forall_eq, Bool.not_eq_true,
    Option.isNone_eq_false_iff, Option.isSome_iff_exists, decide_eq_false_iff_not] at h
  obtain ⟨⟨d, hd⟩, ⟨l, hl'⟩, hr, hb, hl, hg, hf, ⟨e, he'⟩, ha, hm⟩ := h
  have hdone : ans.fcntl = .done := by
    cases hfc : ans.fcntl with
    | done => rfl
    | getFailed => exact absurd hfc hg
    | setFailed => exact absurd hfc hf
  refine ⟨d, l, e, hd, hl', he', ?_⟩
  unfold mainStart mysqlConn listenInetSocket makeListenerNonBlocking
  rw [hd, hl', he', hr, hb, hl, hdone, ha, hm]
  rfl

/-- The state in which the loop starts is an initial state of the server with
these descriptors. -/
theorem initial_entered {P : Params} (table : Table) (session : Session) :
    Initial P (entered (Process.exec table session) P.listener P.epollfd P.dbfd) := by
  have hle := P.distinct.1
  refine ⟨?_, ?_, rfl, rfl, rfl⟩
  · funext fd
    simp only [entered, Process.exec, initialFds, Function.update_apply]
    -- the epoll set was opened last, but is not the listener
    by_cases hl : fd = P.listener
    · rw [if_neg (fun he => hle (hl.symm.trans he)), if_pos hl, if_pos hl]
    · rw [if_neg hl, if_neg hl]
  · funext fd
    simp only [entered, Process.exec, initialEpoll, Function.update_apply]

/-! ## The start -/

/-- What `main` has set up when its loop starts. -/
structure Started (argv : List Bytes) (table : Table) (l e d : Int) (p : Process) : Prop where
  distinct : l ≠ e ∧ l ≠ d ∧ e ≠ d
  initial : ∀ P : Params, P.listener = l → P.epollfd = e → P.dbfd = d → Initial P p.server
  table : p.server.table = table
  slots : ∀ fd, p.server.slots fd = zeroSlot
  output : p.output = ["Serving on port " ++ toString (portnumOf argv) ++ "\n"]
  socket : ∃ port, p.socket = ⟨true, some port, some N_BACKLOG, true⟩ ∧
    ((port : Int) = portnumOf argv ↔ 0 < portnumOf argv ∧ portnumOf argv < 2 ^ 16)

theorem mainStart_started (hv : ans.Valid inherited) (h : failure ans = none) (argv : List Bytes) (table : Table)
    (session : Session) :
    ∃ l e d p, mainStart ans argv (Process.exec table session) = .ok (.loops l e d) p ∧ Given inherited l e d ∧
      Started argv table l e d p := by
  obtain ⟨d, l, e, hd, hl, he, hrun⟩ := mainStart_run h argv table session
  have hg : Given inherited l e d :=
    ⟨hv.connect d hd, hv.socket d hd l hl, hv.epollCreate d hd l hl e he⟩
  refine ⟨l, e, d, _, hrun, hg, hg.distinct, ?_, rfl, fun _ => rfl, rfl, _, rfl, portOf_eq_iff hv (portnumOf argv)⟩
  rintro P rfl rfl rfl
  exact initial_entered table session

/-- If a call of the start fails, the first one that does decides how `main`
ends, and the table is left as it was. Otherwise the loop starts, with the
lowest descriptors that are free: in an initial state of the server, on the
table as it was and with `global_state` zero; the listener does not block; the
one line printed names the port of the command line; and this is the port it is
bound to exactly for the numbers that a port can have. -/
theorem startup (hv : ans.Valid inherited) (argv : List Bytes) (table : Table) (session : Session) :
    match failure ans with
    | some r => EndsBefore (mainStart ans argv) (Process.exec table session) r
    | none => ∃ l e d p, mainStart ans argv (Process.exec table session) = .ok (.loops l e d) p ∧
      Given inherited l e d ∧ Started argv table l e d p := by
  split
  · rename_i r hr
    exact mainStart_failure hr argv table session
  · rename_i hn
    exact mainStart_started hv hn argv table session

/-- A process with its standard streams open, whose calls all succeed. -/
def standard : BootAnswers where
  connect := some 3
  socket := some 4
  ephemeral := 40000
  epollCreate := some 5

theorem standard_given : Given [0, 1, 2] 4 5 3 where
  database := lowest_of_mem_iff (by omega) fun g => by simp; omega
  listener := lowest_of_mem_iff (by omega) fun g => by simp; omega
  epoll := lowest_of_mem_iff (by omega) fun g => by simp; omega

theorem standard_valid : standard.Valid [0, 1, 2] where
  connect := by simpa [standard] using standard_given.database
  socket := by simpa [standard] using standard_given.listener
  epollCreate := by simpa [standard] using standard_given.epoll
  ephemeral := by decide

/-- The server says that it serves on port 65624, and listens on port 88. -/
theorem startup_wrapped :
    let argv := [ascii "server", ascii "65624"]
    ∃ p, mainStart standard argv (Process.exec .empty Flat.garbage) = .ok (.loops 4 5 3) p ∧
      Started argv .empty 4 5 3 p ∧ p.socket.port = some 88 ∧ p.output = ["Serving on port 65624\n"] := by
  intro argv
  obtain ⟨l, e, d, p, hrun, hg, hs⟩ := startup standard_valid argv .empty Flat.garbage
  obtain ⟨rfl, rfl, rfl⟩ := hg.unique standard_given
  obtain ⟨-, rfl⟩ := EStateM.Result.ok.inj (hrun.symm.trans (rfl : mainStart standard argv _ = .ok _ _))
  exact ⟨_, hrun, hs, by decide +kernel, by decide +kernel⟩

/-! ## Processes -/

/-- One start of the program. -/
structure Attempt where
  argv : List Bytes
  ans : BootAnswers
  session : Session

/-- A process in its loop. -/
structure Running where
  params : Params
  state : State

/-- The loop starts, with the descriptors of the start. -/
def enter (json : JsonC) (db : Database) (l e d : Int) (s : State) : Option Running :=
  if h : l ≠ e ∧ l ≠ d ∧ e ≠ d then some ⟨⟨json, db, l, e, d, h⟩, s⟩ else none

/-- The program is started again and again until it gets to its loop. -/
def boots (json : JsonC) (db : Database) : Table → List Attempt → Option Running
  | _, [] => none
  | table, a :: rest =>
    match mainStart a.ans a.argv (Process.exec table a.session) with
    | .ok (.loops l e d) p => enter json db l e d p.server
    | .ok (.returned _) p | .error _ p => boots json db p.server.table rest

/-- Processes one after another, each started on the table the last one left.
The loops run under the condition `C`. -/
def processes (json : JsonC) (db : Database) (inherited : List Int) (C : Params → State → Action → Prop) :
    Machine (Lives Running) (Action ⊕ List Attempt) where
  init l := (∃ attempts : List Attempt, (∀ a ∈ attempts, a.ans.Valid inherited) ∧
    boots json db .empty attempts = some l.now) ∧ l.past = []
  admits l
    | .inl a => admits l.now.state a ∧ C l.now.params l.now.state a
    | .inr attempts => (∀ a ∈ attempts, a.ans.Valid inherited) ∧
      ∃ r, boots json db l.now.state.table attempts = some r
  next l
    | .inl a => { l with now := { l.now with state := CmdAgent.next l.now.params l.now.state a } }
    | .inr attempts =>
      match boots json db l.now.state.table attempts with
      | some r => ⟨r, l.now :: l.past⟩
      | none => l

variable {json : JsonC} {db : Database} {C : Params → State → Action → Prop}

/-- However often it had to be started, a process in its loop has the
descriptors the kernel has to give, and the table it was started on. -/
theorem boots_running {table : Table} {attempts : List Attempt} (hv : ∀ a ∈ attempts, a.ans.Valid inherited)
    {r : Running} (h : boots json db table attempts = some r) :
    (r.params.json = json ∧ r.params.db = db) ∧
      Given inherited r.params.listener r.params.epollfd r.params.dbfd ∧ Initial r.params r.state ∧
        r.state.table = table := by
  induction attempts generalizing table with
  | nil => cases h
  | cons a rest ih =>
    have hva := hv a (by simp)
    unfold boots at h
    cases hf : failure a.ans with
    | none =>
      obtain ⟨l, e, d, p, hrun, hg, hs⟩ := mainStart_started hva hf a.argv table a.session
      rw [hrun] at h
      simp only [enter, dif_pos hs.distinct] at h
      obtain rfl := Option.some.inj h
      exact ⟨⟨rfl, rfl⟩, hg, hs.initial _ rfl rfl rfl, hs.table⟩
    | some o =>
      obtain ⟨p, hrun, ht, -⟩ := mainStart_failure hf a.argv table a.session
      have hrest : boots json db p.server.table rest = some r := by
        rw [hrun] at h
        cases o with
        | returned code => exact h
        | died msg => exact h
      rw [ht] at hrest
      exact ih (fun a ha => hv a (List.mem_cons_of_mem _ ha)) hrest

/-- Two processes that inherit the same descriptors have the same parameters. -/
theorem params_unique {P P' : Params} (hj : P.json = P'.json) (hd : P.db = P'.db)
    (h : Given inherited P.listener P.epollfd P.dbfd) (h' : Given inherited P'.listener P'.epollfd P'.dbfd) :
    P = P' := by
  obtain ⟨hl, he, hc⟩ := h.unique h'
  cases P
  cases P'
  simp only at hj hd hl he hc
  subst hj hd hl he hc
  rfl

/-- What holds of the processes so far. -/
structure Course (json : JsonC) (db : Database) (inherited : List Int) (C : Params → State → Action → Prop)
    (l : Lives Running) : Prop where
  libraries : l.now.params.json = json ∧ l.now.params.db = db
  given : Given inherited l.now.params.listener l.now.params.epollfd l.now.params.dbfd
  same : ∀ r ∈ l.past, r.params = l.now.params
  runs : (lifetimes l.now.params (C l.now.params)).Reach ⟨l.now.state, l.past.map Running.state⟩

theorem reach_course {l : Lives Running} (h : (processes json db inherited C).Reach l) :
    Course json db inherited C l := by
  refine h.inv ?_ ?_
  · rintro ⟨r, past⟩ ⟨⟨attempts, hv, hboots⟩, rfl⟩
    obtain ⟨hp, hg, hinit, ht⟩ := boots_running hv hboots
    exact ⟨hp, hg, by simp, .init ⟨⟨hinit, ht⟩, rfl⟩⟩
  · rintro ⟨⟨P, s⟩, past⟩ (a | attempts) hc ha
    · have hstep : (lifetimes P (C P)).admits ⟨s, past.map Running.state⟩ (.inl a) := ha
      exact ⟨hc.libraries, hc.given, hc.same, .step hc.runs hstep⟩
    · obtain ⟨hv, ⟨P', s'⟩, hboots⟩ := ha
      obtain ⟨hp, hg, hinit, ht⟩ := boots_running hv hboots
      have hP : P' = P :=
        params_unique (hp.1.trans hc.libraries.1.symm) (hp.2.trans hc.libraries.2.symm) hg hc.given
      subst hP
      have hnext : (processes json db inherited C).next ⟨⟨P', s⟩, past⟩ (.inr attempts) =
          ⟨⟨P', s'⟩, ⟨P', s⟩ :: past⟩ := by
        simp only [processes, hboots]
      rw [hnext]
      refine ⟨hp, hg, fun r hr => ?_, hc.runs.reboot hinit ht⟩
      rcases List.mem_cons.mp hr with rfl | hr
      · rfl
      · exact hc.same r hr

/-- The processes a program goes through, the starts that fail included, are the
runs of one server, one after another on one table: each has the same
descriptors as the first. -/
theorem processes_lifetimes {l : Lives Running} (h : (processes json db inherited C).Reach l) :
    (∀ r ∈ l.past, r.params = l.now.params) ∧
    (lifetimes l.now.params (C l.now.params)).Reach ⟨l.now.state, l.past.map Running.state⟩ := by
  have hc := reach_course h
  exact ⟨hc.same, hc.runs⟩

/-- The port is in use at the first start, and the database is down when the
program is started again. -/
theorem processes_lifetimes_again :
    let busy : Attempt := ⟨[], { standard with bindFails := true }, Flat.garbage⟩
    let down : Attempt := ⟨[], { standard with connect := none }, Flat.garbage⟩
    let works : Attempt := ⟨[], standard, Flat.garbage⟩
    let s := entered (Process.exec .empty Flat.garbage) 4 5 3
    boots Flat.params.json Flat.params.db .empty [busy, works] = some ⟨Flat.params, s⟩ ∧
      boots Flat.params.json Flat.params.db s.table [down, works] = some ⟨Flat.params, s⟩ ∧
        (lifetimes Flat.params (Plainly Flat.params)).Reach ⟨s, [s]⟩ := by
  intro busy down works s
  have hbusy : busy.ans.Valid [0, 1, 2] :=
    ⟨standard_valid.connect, standard_valid.socket, standard_valid.epollCreate, standard_valid.ephemeral⟩
  have hdown : down.ans.Valid [0, 1, 2] :=
    ⟨by simp [down], by simp [down], by simp [down], standard_valid.ephemeral⟩
  have hfirst : boots Flat.params.json Flat.params.db .empty [busy, works] = some ⟨Flat.params, s⟩ := rfl
  have hsecond : boots Flat.params.json Flat.params.db s.table [down, works] = some ⟨Flat.params, s⟩ := rfl
  have hinit : (processes Flat.params.json Flat.params.db [0, 1, 2] Plainly).Reach ⟨⟨Flat.params, s⟩, []⟩ :=
    .init ⟨⟨[busy, works], by simp [hbusy, works, standard_valid], hfirst⟩, rfl⟩
  have hadmits : (processes Flat.params.json Flat.params.db [0, 1, 2] Plainly).admits ⟨⟨Flat.params, s⟩, []⟩
      (.inr [down, works]) := ⟨by simp [hdown, works, standard_valid], _, hsecond⟩
  have hnext : (processes Flat.params.json Flat.params.db [0, 1, 2] Plainly).Reach
      ⟨⟨Flat.params, s⟩, [⟨Flat.params, s⟩]⟩ := .step hinit hadmits
  exact ⟨hfirst, hsecond, (processes_lifetimes hnext).2⟩

end CmdAgent.Startup
