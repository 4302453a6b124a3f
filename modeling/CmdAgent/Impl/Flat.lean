import CmdAgent.Impl.Main
import CmdAgent.Framework.JsonText

/-!
# A server that can be run

An instance of the parameters: json-c for objects of strings and numbers,
which is what the server writes (`spaced`); a database that returns rows in
the order it holds them and answers no text of another shape. The descriptors
are the ones the process gets when it starts: first the database, then the
listener, then the epoll set.

`Flat.start` is the state in which the loop starts, and the functions after it
are the actions of a run: a connection, a message, the end of a connection.
-/

namespace CmdAgent.Flat

/-! ## json-c -/

def scalarOf : Json → Option JsonText.Scalar
  | .string s => some (.str s)
  | .int i => some (.int i)
  | _ => none

def ofScalar : JsonText.Scalar → Json
  | .str s => .string s
  | .int i => .int i

def scalarsOf : List Member → Option (List (Bytes × JsonText.Scalar))
  | [] => some []
  | (k, v) :: ms =>
    match scalarOf v, scalarsOf ms with
    | some v, some ms => some ((k, v) :: ms)
    | _, _ => none

/-- json-c for objects of strings and numbers, whose strings may hold any
bytes. -/
def spaced : JsonC where
  tokenerParse text := ((JsonText.read text).map fun ms => ms.map fun m => (m.1, ofScalar m.2)).elim .null .object
  toText
    | .object ms => ((scalarsOf ms).map JsonText.print).getD (ascii "null")
    | _ => ascii "null"

theorem scalarsOf_map (l : List (Bytes × JsonText.Scalar)) :
    scalarsOf (l.map fun m => (m.1, ofScalar m.2)) = some l := by
  induction l with
  | nil => rfl
  | cons m l ih =>
    obtain ⟨k, v⟩ := m
    cases v with
    | str b => rw [List.map_cons, scalarsOf, ih]; rfl
    | int i => rw [List.map_cons, scalarsOf, ih]; rfl

theorem toText_spaced (l : List (Bytes × JsonText.Scalar)) :
    spaced.toText (.object (l.map fun m => (m.1, ofScalar m.2))) = JsonText.print l := by
  show ((scalarsOf _).map JsonText.print).getD _ = _
  rw [scalarsOf_map]
  rfl

theorem tokenerParse_spaced (l : List (Bytes × JsonText.Scalar)) :
    spaced.tokenerParse (JsonText.print l) = .object (l.map fun m => (m.1, ofScalar m.2)) := by
  show ((JsonText.read _).map _).elim _ _ = _
  rw [JsonText.read_print]
  rfl

/-! ## The parameters -/

def db : Database where
  other _ _ := none
  other_select _ h := nomatch h
  arrange := id
  arrange_perm := List.Perm.refl

def params : Params where
  json := spaced
  db := db
  listener := 4
  epollfd := 5
  dbfd := 3
  distinct := by decide

/-- Memory that was never written. -/
def garbage : Session := ⟨0, .reqInvalid, .wild, .wild, .wild, .wild, 0⟩

def start (t : Table) : State where
  fds := initialFds params
  epoll := initialEpoll params
  table := t
  slots := fun _ => ⟨.initialAck, none, 0, 0⟩
  session := garbage
  batch := []
  nextConn := 0
  trace := []
  stopped := none

theorem initial_start (t : Table) : Initial params (start t) := ⟨rfl, rfl, rfl, rfl, rfl⟩

theorem start_table (t : Table) : (start t).table = t := rfl

/-! ## Actions -/

/-- One batch with one event, which is handled with the given answers. -/
def one (fd : Int) (conn : Option Nat) (ans : Answers) : List Action :=
  [.wait garbage [⟨fd, { epollin := true }, conn⟩], .event ans]

/-- A connection is accepted on `fd`. -/
def connect (fd : Int) : List Action := one params.listener none { accept := .accepted fd }

/-- What `recv` gives when a text and its NUL arrive in one piece. -/
def arrives (text : Bytes) : List Recv := [.data (text ++ [0]) 1]

/-- The connection on `fd` sends a text. -/
def speaks (fd : Int) (conn : Nat) (text : Bytes) : List Action := one fd (some conn) { recvs := arrives text }

/-- The connection on `fd` is closed by its peer. -/
def leaves (fd : Int) (conn : Nat) : List Action := one fd (some conn) { recvs := [.eof] }

/-- The text of an object of strings. -/
def text (ms : List (String × String)) : Bytes := JsonText.print (ms.map fun m => (ascii m.1, .str (ascii m.2)))

/-- What the server reads of such a text. -/
theorem parse_text (ms : List (String × String)) (rest : Bytes) :
    parseStringToJson params.json (cstr (text ms ++ 0 :: rest)) =
      .object (ms.map fun m => (ascii m.1, .string (ascii m.2))) := by
  rw [text, cstr_append_nul (JsonText.nul_not_mem_print _)]
  show spaced.tokenerParse _ = _
  rw [tokenerParse_spaced, List.map_map]
  rfl

/-- The message an agent registers its mac with. -/
def hello (mac : String) : Bytes := text [("agent_type", "linux-claymore-nvidia"), ("miner_mac", mac)]

/-- The command to download a file for the agent with the given mac. -/
def download (mac : String) : Bytes :=
  text [("agent_type", "ux"), ("commend_type", "file-download"), ("sequence", "1"), ("miner_mac", mac),
    ("path", "/f"), ("path_install", "/g")]

/-- The answers when a text arrives and each path but the empty one names an
empty file, for which the two streams get the descriptors `a` and `b`. -/
def answers (text : Bytes) (a b : Int) (send : SendAnswer) : Answers where
  recvs := arrives text
  files p := if p = [] then none else some ⟨0, []⟩
  stream₁ := some a
  stream₂ := some b
  send := send

/-- The command that is sent for `download`. -/
def command : Bytes :=
  JsonText.print
    [(ascii "commend_type", .str (ascii "file-download")), (ascii "path", .str (ascii "/f")),
      (ascii "sequence", .int 1), (ascii "content", .str []), (ascii "path_install", .str (ascii "/g"))]

end CmdAgent.Flat
