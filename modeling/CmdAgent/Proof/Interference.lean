import CmdAgent.Proof.Broker

/-!
# Macs that do not interfere

The commands for a mac depend on the messages with this mac and on the comings
and goings of the connections that register it, and on nothing else that
happens in a run: neither the traffic for other macs nor the order in which the
two come in, nor which descriptors the connections get (`macs_noninterference`).
Connections are numbered as they are accepted, so that other connections change
the numbers: two runs are compared up to a renaming.

The proof is about brokers, where nothing but keys and clients is left.
-/

namespace CmdAgent

variable {P : Params} {s : State}

/-- What a trace asks of a broker, oldest first. -/
def operations (json : JsonC) : List Obs → List (Broker.Op Bytes Nat)
  | [] => []
  | o :: tr => operations json tr ++ requestsOf json o

theorem brokerOf_eq_run (json : JsonC) (tr : List Obs) : brokerOf json tr = .run (operations json tr) := by
  induction tr with
  | nil => rfl
  | cons o tr ih =>
    rw [brokerOf, operations, ih, Broker.run, Broker.run, List.foldl_append]

/-- The connections that the commands for the mac `k` were sent to, newest
first. -/
def commandsFor (k : Bytes) (tr : List Obs) : List (Option Nat) :=
  (addressed tr).filterMap fun p => if p.1 = k then some p.2 else none

theorem commandsFor_eq (h : Brokers P s) (k : Bytes) :
    commandsFor k s.trace = ((brokerOf P.json s.trace).recipients k).map some := by
  rw [commandsFor, h.delivered, Broker.recipients, List.filterMap_map, List.map_filterMap]
  congr 1
  funext p
  by_cases hp : p.1 = k <;> simp [hp]

/-- What concerns the mac `k`: the messages with it and, of the connections that
register it, the accepts and closes. -/
def concerning (json : JsonC) (k : Bytes) (tr : List Obs) : List (Broker.Op Bytes Nat) :=
  Broker.concerning k (operations json tr)

/-- If what concerns a mac is the same in two runs, up to the numbers of the
connections, then the commands for it go to the same connections, in the same
order: in whatever order the rest comes, whatever it is, and whichever
descriptors the connections get. -/
theorem macs_noninterference {P' : Params} {s' : State} (h : (brokeredServer P).Reach s) (hrun : s.stopped = none)
    (h' : (brokeredServer P').Reach s') (hrun' : s'.stopped = none) {k : Bytes} {ρ : Nat → Nat}
    (hρ : Function.Injective ρ)
    (hsame : concerning P'.json k s'.trace = (concerning P.json k s.trace).map (Broker.Op.rename ρ)) :
    commandsFor k s'.trace = (commandsFor k s.trace).map (Option.map ρ) := by
  have hrecipients : (brokerOf P'.json s'.trace).recipients k = ((brokerOf P.json s.trace).recipients k).map ρ := by
    calc (brokerOf P'.json s'.trace).recipients k
        = (Broker.run (concerning P'.json k s'.trace)).recipients k := by
          rw [brokerOf_eq_run, Broker.recipients_concerning, concerning]
      _ = ((Broker.run (concerning P.json k s.trace)).rename ρ).recipients k := by
          rw [hsame, Broker.run_rename hρ]
      _ = ((Broker.run (concerning P.json k s.trace)).recipients k).map ρ := Broker.recipients_rename _ _
      _ = ((brokerOf P.json s.trace).recipients k).map ρ := by
          rw [brokerOf_eq_run, Broker.recipients_concerning k (operations P.json s.trace), concerning]
  rw [commandsFor_eq (reach_brokers h' hrun'), commandsFor_eq (reach_brokers h hrun), hrecipients, List.map_map,
    List.map_map]
  rfl

/-- A UX client gives a command for an agent. -/
def alone : List Action :=
  Flat.connect 6 ++ Flat.speaks 6 0 (Flat.hello "m") ++ Flat.connect 7 ++
    Flat.one 7 (some 1) (Flat.answers (Flat.download "m") 8 9 (.sent 99))

/-- The same, with another agent there before, which is given commands too. -/
def together : List Action :=
  Flat.connect 6 ++ Flat.speaks 6 0 (Flat.hello "n") ++ Flat.connect 7 ++ Flat.connect 8 ++
    Flat.one 8 (some 2) (Flat.answers (Flat.download "n") 9 10 (.sent 99)) ++ Flat.speaks 7 1 (Flat.hello "m") ++
    Flat.one 8 (some 2) (Flat.answers (Flat.download "n") 11 12 (.sent 99)) ++
    Flat.one 8 (some 2) (Flat.answers (Flat.download "m") 13 14 (.sent 99))

theorem macs_noninterference_together :
    let s := (brokeredServer Flat.params).exec (Flat.start .empty) alone
    let s' := (brokeredServer Flat.params).exec (Flat.start .empty) together
    commandsFor (ascii "m") s.trace = [some 0] ∧ commandsFor (ascii "m") s'.trace = [some 1] := by
  intro s s'
  have hs : commandsFor (ascii "m") s.trace = [some 0] ∧ s.stopped = none ∧ s'.stopped = none := by decide +kernel
  have hreach : (brokeredServer Flat.params).Reach s :=
    .exec (.init ⟨Flat.initial_start .empty, rfl⟩) (by decide +kernel)
  have hreach' : (brokeredServer Flat.params).Reach s' :=
    .exec (.init ⟨Flat.initial_start .empty, rfl⟩) (by decide +kernel)
  have hsame : concerning Flat.params.json (ascii "m") s'.trace =
      (concerning Flat.params.json (ascii "m") s.trace).map (Broker.Op.rename (· + 1)) := by decide +kernel
  refine ⟨hs.1, ?_⟩
  rw [macs_noninterference hreach hs.2.1 hreach' hs.2.2 (add_left_injective 1) hsame, hs.1]
  rfl

end CmdAgent
