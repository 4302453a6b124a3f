import CmdAgent.Impl.Log
import CmdAgent.Impl.Parse

/-!
# Reading messages and building commands (`session.c`)

`socketRead` takes the answers to its calls of `recv` from a list, and returns
with the answers it left; it has not returned yet when the list ends first.
The byte past the buffer that its stop test looks at comes with each answer.
`malloc` and `realloc` are taken to succeed.

`msgClientInfo` builds the command for the agent from the session. It writes
past the block it reads the file into, at least the NUL it puts after the
block; how much room there is, is among the answers (`Answers.spare`), and what
does not fit ends the process.
-/

namespace CmdAgent

def INT_MAX : Int := 2 ^ 31 - 1
def LONG_MAX : Int := 2 ^ 63 - 1

/-! ## `socket_read` -/

/-- `realloc`: the bytes it adds are indeterminate. -/
def realloc (buf : Bytes) (n : Nat) : Bytes := buf.take n ++ List.replicate (n - buf.length) 0

/-- `memcpy(buf + offset, src, |src|)` -/
def memcpy (buf : Bytes) (offset : Nat) (src : Bytes) : Bytes :=
  buf.take offset ++ src ++ buf.drop (offset + src.length)

/-- What `socket_read` returns (null or a buffer) and stores in `*ret`. -/
abbrev ReadResult := Option Bytes × Int

/-- The loop of `socket_read`: the result and the answers left. -/
def socketReadLoop (recvData : Bytes) (recvLen : Int) (offset : Nat) :
    List Recv → Option (Except Stop ReadResult × List Recv)
  | [] => none
  | .eof :: rest => some (.ok (none, -1), rest)
  | .wouldBlock :: rest => some (.ok (some recvData, -2), rest)
  | .failed :: rest => some (.ok (some recvData, -3), rest)
  | .data buff stray :: rest =>
    let recvLen' := recvLen + buff.length
    if INT_MAX < recvLen' then some (.error (.undefined "recv_len"), rest)
    else
      let recvData' := memcpy (realloc recvData recvLen'.toNat) offset buff
      let offset' := offset + buff.length
      -- `recv_data[recv_len - 1] == '\0' || recv_data[recv_len] == '\0'`
      if recvData'[(recvLen' - 1).toNat]? = some 0 ∨ stray = 0 then
        some (.ok (some recvData', 0), rest)
      else socketReadLoop recvData' recvLen' offset' rest

def socketRead (recvs : List Recv) : Option (Except Stop ReadResult × List Recv) :=
  socketReadLoop (List.replicate MAX_RECV_BUFF_SIZE 0) 0 0 recvs

/-! ## `msg_client_info` -/

/-- What the code needs of json-c: `json_tokener_parse`, with `Json.null` for
a null pointer, and the text `json_object_get_string` gives of an object. -/
structure JsonC where
  tokenerParse : Bytes → Json
  toText : Json → Bytes

/-- `parse_string_to_json` -/
def parseStringToJson (json : JsonC) (str : Bytes) : Json := json.tokenerParse str

/-- `json_object_new_string`, which takes the length of its argument. -/
def jsonObjectNewString (p : CharPtr) : Proc Json := do
  let s ← readStr "json_object_new_string" p
  pure (.string s)

/-- `fopen(path, "r")`: a stream on a new descriptor. -/
def fopen (files : Bytes → Option File) (stream : Option Int) (path : Bytes) :
    Proc (Option (Int × File)) :=
  match files path, stream with
  | some file, some fd => do
    modify fun s => { s with fds := Function.update s.fds fd (some .stream) }
    pure (some (fd, file))
  | _, _ => pure none

def fclose (fp : Option Int) : Proc PUnit :=
  match fp with
  | some fd => modify fun s => { s with fds := Function.update s.fds fd none }
  | none => undefined "fclose"

/-- The conversion of a `long` to a `size_t`. -/
def toSizeT (v : Int) : Nat := (v % 2 ^ 64).toNat

/-- The sum of two values of type `long`, unless it overflows. -/
def addLong (a b : Int) : Option Int :=
  if -(2 ^ 63) ≤ a + b ∧ a + b ≤ LONG_MAX then some (a + b) else none

/-- `malloc((size_t)file_size + 1)` -/
def fileAlloc (fileSize : Int) : Nat := (toSizeT fileSize + 1) % 2 ^ 64

/-- `memset(file_buff, 0x0, file_size + 1)` -/
def memsetLen (fileSize : Int) : Option Nat := (addLong fileSize 1).map toSizeT

/-- `fread(file_buff, sizeof(char), (size_t)file_size, fp)` -/
def freadCount (fileSize : Int) : Nat := toSizeT fileSize

/-- The bytes `fread` reads. -/
def File.fread (file : File) : Bytes := file.contents.take (freadCount file.size)

/-- `file_buff[file_size + 1] = '\0'` -/
def nulIndex (fileSize : Int) : Option Int := addLong fileSize 1

/-- The C string in the block the file is read into. What `memset` clears,
`fread` fills and the last store writes has to fit the block and the bytes
after it that nothing uses. -/
def fileBuff (ans : Answers) (file : File) : Proc Bytes :=
  match memsetLen file.size, nulIndex file.size with
  | some len, some index =>
    let room := fileAlloc file.size + ans.spare
    if room < len ∨ room < file.fread.length ∨ index < 0 ∨ (room : Int) ≤ index then undefined "file_buff"
    -- what was cleared and not filled is NUL, and so is the byte at `index`
    else pure (cstr (file.fread.take index.toNat))
  -- at `LONG_MAX` the sum overflows
  | _, _ => undefined "file_size"

/-- The two calls of `fopen` and the reading of the file, for the command type
`file-download`: the stream left in `fp` and the contents. -/
def readFile (ans : Answers) (path : Bytes) : Proc (Option Int × CharPtr) := do
  match ← fopen ans.files ans.stream₁ path with
  | none => pure (none, .null)
  | some _ =>
    match ← fopen ans.files ans.stream₂ path with
    | none => undefined "fseek"
    | some (fp, file) => do
      let buff ← fileBuff ans file
      pure (some fp, .str buff)

/-- The switch on the command type. -/
def switchCmdType (ans : Answers) (cmdType path : Bytes) : Proc (Option Int × CharPtr) :=
  if parseCmdType cmdType = 1 then readFile ans path else pure (none, .null)

/-- `msg_client_info`: the buffer it returns and what it stores in `*len`. -/
def msgClientInfo (json : JsonC) (ans : Answers) : Proc (Bytes × Nat) := do
  let s ← get
  let session := s.session
  let cmd ← jsonObjectNewString session.cmdType
  let path ← jsonObjectNewString session.path
  let cmdType ← readStr "strcmp" session.cmdType
  let pathText ← readStr "fopen" session.path
  let file ← switchCmdType ans cmdType pathText
  let content ← jsonObjectNewString file.2
  let pathInstall ← jsonObjectNewString session.pathInstall
  let str := json.toText (.object
    [(ascii "commend_type", cmd), (ascii "path", path), (ascii "sequence", .int session.sequence),
      (ascii "content", content), (ascii "path_install", pathInstall)])
  let len := strlen str
  let buff := strndup str len
  fclose file.1
  pure (buff, len)

end CmdAgent
