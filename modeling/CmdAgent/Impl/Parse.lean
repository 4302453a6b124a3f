import CmdAgent.Impl.Types

/-!
# Parsing messages (`parse.c`)

JSON values as json-c holds them. A null pointer is the value `null`: it is
what `json_tokener_parse` returns for malformed text and for the text `null`,
and what a member bound to `null` holds. A string has its own length and may
hold NULs; read as a C string (`json_object_get_string`) it ends at the first.

`json_object_object_foreach` reads the head of `json_object_get_object`'s
result, which is null unless its argument is an object.
-/

namespace CmdAgent

inductive Json where
  | null
  | boolean (b : Bool)
  | double (text : Bytes)
  | int (i : Int)
  | string (s : Bytes)
  | array (vs : List Json)
  | object (ms : List (Bytes × Json))
  deriving Repr

abbrev Member := Bytes × Json

/-- `json_object_get_object` -/
def jsonObjectGetObject : Json → Option (List Member)
  | .object ms => some ms
  | _ => none

/-- `json_object_object_foreach(json, key, val)`: the members to iterate over,
read through the pointer that `json_object_get_object` returns. -/
def jsonObjectObjectForeach (json : Json) : Except Stop (List Member) :=
  match jsonObjectGetObject json with
  | some ms => .ok ms
  | none => .error (.undefined "json_object_object_foreach")

/-- The loop of `get_agent_type`: the first member with a string value
decides; members of other types are passed over. -/
def agentTypeOf : List Member → AgentType
  | [] => .reqInvalid
  | (_, .string s) :: _ =>
    if cstr s = agentTypeLinuxNvidia then .reqLinuxClaymore
    else if cstr s = agentTypeUx then .reqUx
    else .reqInvalid
  | _ :: ms => agentTypeOf ms

def getAgentType (json : Json) : Except Stop AgentType := do
  let ms ← jsonObjectObjectForeach json
  pure (agentTypeOf ms)

/-- The body of the loop of `parse_json_cmd`. -/
def cmdMember (session : Session) : Member → Session
  | (key, .string s) =>
    if key = ascii "commend_type" then { session with cmdType := .str (cstr s) }
    else if key = ascii "sequence" then { session with sequence := atoi (cstr s) }
    else if key = ascii "miner_mac" then { session with minerMac := .str (cstr s) }
    else if key = ascii "path" then
      if s.length ≠ 0 then { session with path := .str (cstr s) }
      else { session with path := .str [] }
    else if key = ascii "path_install" then
      if s.length ≠ 0 then { session with pathInstall := .str (cstr s) }
      else { session with pathInstall := .null }
    else session
  | _ => session

def parseJsonCmd (json : Json) (session : Session) : Except Stop Session := do
  let ms ← jsonObjectObjectForeach json
  pure (ms.foldl cmdMember session)

/-- The body of the loop of `parse_json_agent`. -/
def agentMember (session : Session) : Member → Session
  | (key, .string s) =>
    if key = ascii "miner_mac" then { session with minerMac := .str (cstr s) } else session
  | _ => session

def parseJsonAgent (json : Json) (session : Session) : Except Stop Session := do
  let ms ← jsonObjectObjectForeach json
  pure (ms.foldl agentMember session)

/-- `parse_cmd_type`, of a C string. -/
def parseCmdType (cmdType : Bytes) : Int :=
  if cmdType = ascii "file-download" then 1 else -1

end CmdAgent
