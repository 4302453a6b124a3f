import CmdAgent.Impl.Session

/-!
# What the parsers do with the members of an object

`parse_json_cmd` and `parse_json_agent` fold over the members. Each field of
the session is set by the last member with its key and a string value
(`lastString`), and by no other member: `foldl_field` is the induction, once
for all fields; `Session.cmdFields` and `Session.agentFields` put the fields
together.
-/

namespace CmdAgent

/-- The string a member binds `key` to. -/
def stringOf (key : Bytes) : Member → Option Bytes
  | (k, .string s) => if k = key then some s else none
  | _ => none

/-- The string the last member with `key` and a string value binds. -/
def lastString (key : Bytes) : List Member → Option Bytes
  | [] => none
  | m :: ms => (lastString key ms).or (stringOf key m)

/-- The C string that a message's `miner_mac` member binds. -/
def macOf (ms : List Member) : Option Bytes := (lastString (ascii "miner_mac") ms).map cstr

/-- A key that no member has. -/
theorem lastString_eq_none {key : Bytes} {ms : List Member} (h : key ∉ ms.map Prod.fst) :
    lastString key ms = none := by
  induction ms with
  | nil => rfl
  | cons m ms ih =>
    obtain ⟨k, v⟩ := m
    rw [List.map_cons, List.mem_cons, not_or] at h
    have hm : stringOf key (k, v) = none := by
      cases v with
      | string s => exact if_neg (Ne.symm h.1)
      | _ => rfl
    rw [lastString, ih h.2, hm]
    rfl

/-- With distinct keys, a member with a string value is the one that counts. -/
theorem lastString_of_mem {key s : Bytes} {ms : List Member} (hn : (ms.map Prod.fst).Nodup)
    (h : (key, .string s) ∈ ms) : lastString key ms = some s := by
  induction ms with
  | nil => cases h
  | cons m ms ih =>
    rw [List.map_cons, List.nodup_cons] at hn
    rw [lastString]
    rcases List.mem_cons.mp h with rfl | h
    · rw [lastString_eq_none hn.1, Option.none_or, stringOf, if_pos rfl]
    · rw [ih hn.2 h]
      rfl

/-- A field that every step sets from the members with `key`, and only from
them, is set by the last of them. -/
theorem foldl_field {β : Type} {step : Session → Member → Session} {g : Session → β} {key : Bytes}
    {f : Bytes → β} (h : ∀ σ m, g (step σ m) = ((stringOf key m).map f).getD (g σ)) (ms : List Member)
    (σ : Session) : g (ms.foldl step σ) = ((lastString key ms).map f).getD (g σ) := by
  induction ms generalizing σ with
  | nil => rfl
  | cons m ms ih =>
    rw [List.foldl_cons, ih, h, lastString]
    cases lastString key ms <;> rfl

theorem foldl_keeps {β : Type} {step : Session → Member → Session} {g : Session → β}
    (h : ∀ σ m, g (step σ m) = g σ) (ms : List Member) (σ : Session) : g (ms.foldl step σ) = g σ := by
  induction ms generalizing σ with
  | nil => rfl
  | cons m ms ih => rw [List.foldl_cons, ih, h]

/-! ## `parse_json_cmd` -/

/-- What an empty or non-empty `path_install` is stored as. -/
def pathInstallPtr (s : Bytes) : CharPtr := if s.length ≠ 0 then .str (cstr s) else .null

/-- The session after `parse_json_cmd`, field by field. -/
def Session.cmdFields (σ : Session) (ms : List Member) : Session :=
  { σ with
    cmdType := ((lastString (ascii "commend_type") ms).map (.str ∘ cstr)).getD σ.cmdType
    sequence := ((lastString (ascii "sequence") ms).map (atoi ∘ cstr)).getD σ.sequence
    minerMac := ((lastString (ascii "miner_mac") ms).map (.str ∘ cstr)).getD σ.minerMac
    path := ((lastString (ascii "path") ms).map (.str ∘ cstr)).getD σ.path
    pathInstall := ((lastString (ascii "path_install") ms).map pathInstallPtr).getD σ.pathInstall }

/-- A member whose value is no string changes nothing. -/
theorem cmdMember_of_not_string (σ : Session) {k : Bytes} {v : Json} (h : ∀ s, v ≠ .string s) :
    cmdMember σ (k, v) = σ := by
  cases v <;> first | rfl | exact absurd rfl (h _)

theorem stringOf_of_not_string (key : Bytes) {k : Bytes} {v : Json} (h : ∀ s, v ≠ .string s) :
    stringOf key (k, v) = none := by
  cases v <;> first | rfl | exact absurd rfl (h _)

/-- The five keys of a command are distinct, so one member sets one field. -/
theorem cmdMember_fields (σ : Session) (m : Member) :
    cmdMember σ m = σ.cmdFields [m] := by
  obtain ⟨k, v⟩ := m
  by_cases hv : ∃ s, v = .string s
  · obtain ⟨s, rfl⟩ := hv
    have hempty : s.length = 0 → cstr s = [] := fun h => by rw [List.length_eq_zero_iff.mp h]; rfl
    simp only [cmdMember, Session.cmdFields, lastString, stringOf, Option.none_or]
    by_cases h₁ : k = ascii "commend_type"
    · subst h₁; rfl
    by_cases h₂ : k = ascii "sequence"
    · subst h₂; rfl
    by_cases h₃ : k = ascii "miner_mac"
    · subst h₃; rfl
    by_cases h₄ : k = ascii "path"
    · have h₅ : k ≠ ascii "path_install" := by subst h₄; decide
      subst h₄
      by_cases hs : s.length = 0
      · simp [h₁, h₂, h₃, h₅, hs, hempty hs]
      · simp [h₁, h₂, h₃, h₅, hs]
    by_cases h₅ : k = ascii "path_install"
    · subst h₅
      by_cases hs : s.length = 0 <;> simp [h₁, h₂, h₃, h₄, hs, pathInstallPtr]
    · simp [h₁, h₂, h₃, h₄, h₅]
  · have hv' : ∀ s, v ≠ .string s := fun s e => hv ⟨s, e⟩
    rw [cmdMember_of_not_string σ hv']
    simp [Session.cmdFields, lastString, stringOf_of_not_string _ hv']

theorem foldl_cmdMember (ms : List Member) (σ : Session) : ms.foldl cmdMember σ = σ.cmdFields ms := by
  have one : ∀ key m, lastString key [m] = stringOf key m := fun key m => by
    rw [lastString, lastString, Option.none_or]
  have field {β : Type} (g : Session → β) (key : Bytes) (f : Bytes → β)
      (h : ∀ σ m, g (Session.cmdFields σ [m]) = ((stringOf key m).map f).getD (g σ)) :
      g (ms.foldl cmdMember σ) = ((lastString key ms).map f).getD (g σ) :=
    foldl_field (fun σ m => by rw [cmdMember_fields]; exact h σ m) ms σ
  have keep {β : Type} (g : Session → β) (h : ∀ σ m, g (Session.cmdFields σ [m]) = g σ) :
      g (ms.foldl cmdMember σ) = g σ :=
    foldl_keeps (fun σ m => by rw [cmdMember_fields]; exact h σ m) ms σ
  have e₁ := field Session.cmdType (ascii "commend_type") (.str ∘ cstr) fun σ m => by
    simp only [Session.cmdFields, one]
  have e₂ := field Session.sequence (ascii "sequence") (atoi ∘ cstr) fun σ m => by
    simp only [Session.cmdFields, one]
  have e₃ := field Session.minerMac (ascii "miner_mac") (.str ∘ cstr) fun σ m => by
    simp only [Session.cmdFields, one]
  have e₄ := field Session.path (ascii "path") (.str ∘ cstr) fun σ m => by
    simp only [Session.cmdFields, one]
  have e₅ := field Session.pathInstall (ascii "path_install") pathInstallPtr fun σ m => by
    simp only [Session.cmdFields, one]
  have e₆ := keep Session.fd fun _ _ => rfl
  have e₇ := keep Session.agentType fun _ _ => rfl
  generalize ms.foldl cmdMember σ = τ at e₁ e₂ e₃ e₄ e₅ e₆ e₇
  cases τ
  simp only at e₁ e₂ e₃ e₄ e₅ e₆ e₇
  simp only [Session.cmdFields, e₁, e₂, e₃, e₄, e₅, e₆, e₇]

/-! ## `parse_json_agent` -/

def Session.agentFields (σ : Session) (ms : List Member) : Session :=
  { σ with minerMac := ((lastString (ascii "miner_mac") ms).map (.str ∘ cstr)).getD σ.minerMac }

theorem agentMember_eq (σ : Session) (m : Member) :
    agentMember σ m =
      { σ with minerMac := ((stringOf (ascii "miner_mac") m).map (.str ∘ cstr)).getD σ.minerMac } := by
  obtain ⟨k, v⟩ := m
  cases v <;> try rfl
  rename_i s
  simp only [agentMember, stringOf]
  split <;> rfl

theorem foldl_agentMember (ms : List Member) (σ : Session) :
    ms.foldl agentMember σ = σ.agentFields ms := by
  induction ms generalizing σ with
  | nil => rfl
  | cons m ms ih =>
    rw [List.foldl_cons, ih, agentMember_eq]
    simp only [Session.agentFields, lastString]
    cases lastString (ascii "miner_mac") ms <;> rfl

/-! ## Objects and other values -/

/-- The value is an object. -/
def Json.IsObject (j : Json) : Prop := ∃ ms, j = .object ms

theorem foreach_of_not_object {j : Json} (h : ¬ j.IsObject) :
    jsonObjectObjectForeach j = .error (.undefined "json_object_object_foreach") := by
  cases j <;> first | rfl | exact absurd ⟨_, rfl⟩ h

theorem getAgentType_object (ms : List Member) : getAgentType (.object ms) = .ok (agentTypeOf ms) := rfl

theorem getAgentType_of_not_object {j : Json} (h : ¬ j.IsObject) :
    getAgentType j = .error (.undefined "json_object_object_foreach") := by
  rw [getAgentType, foreach_of_not_object h]; rfl

theorem parseJsonCmd_object (ms : List Member) (σ : Session) :
    parseJsonCmd (.object ms) σ = .ok (σ.cmdFields ms) := by
  rw [← foldl_cmdMember]; rfl

theorem parseJsonAgent_object (ms : List Member) (σ : Session) :
    parseJsonAgent (.object ms) σ = .ok (σ.agentFields ms) := by
  rw [← foldl_agentMember]; rfl

theorem agentTypeOf_ne_window (ms : List Member) : agentTypeOf ms ≠ .reqWindowClaymore := by
  fun_induction agentTypeOf ms <;> simp_all

/-! ## The agent type -/

def stringValue : Member → Option Bytes
  | (_, .string s) => some s
  | _ => none

/-- The string of the first member with a string value. -/
def firstString : List Member → Option Bytes
  | [] => none
  | m :: ms => (stringValue m).or (firstString ms)

/-- One of the agreed names, as a C string. -/
def Agreed (s : Bytes) : Prop := cstr s = agentTypeLinuxNvidia ∨ cstr s = agentTypeUx

instance (s : Bytes) : Decidable (Agreed s) := inferInstanceAs (Decidable (_ ∨ _))

/-- The type a name stands for. -/
def typeOfName (s : Bytes) : AgentType :=
  if cstr s = agentTypeLinuxNvidia then .reqLinuxClaymore
  else if cstr s = agentTypeUx then .reqUx
  else .reqInvalid

theorem typeOfName_eq_invalid {s : Bytes} : typeOfName s = .reqInvalid ↔ ¬ Agreed s := by
  unfold typeOfName Agreed
  split
  · rename_i h; simp [h]
  · split
    · rename_i h; simp [h]
    · rename_i h₁ h₂; simp [h₁, h₂]

/-- The loop of `get_agent_type` stops at the first member with a string
value, wherever it stands. -/
theorem agentTypeOf_eq (ms : List Member) :
    agentTypeOf ms = ((firstString ms).map typeOfName).getD .reqInvalid := by
  induction ms with
  | nil => rfl
  | cons m ms ih =>
    obtain ⟨k, v⟩ := m
    cases v with
    | string s => rfl
    | _ => exact ih

theorem agentTypeOf_eq_invalid {ms : List Member} :
    agentTypeOf ms = .reqInvalid ↔ ∀ s ∈ firstString ms, ¬ Agreed s := by
  rw [agentTypeOf_eq]
  cases firstString ms with
  | none => simp
  | some s => simp [typeOfName_eq_invalid]

/-- The first member `m` alone decides the type of two objects that start with
it: the type is the same, and invalid unless `m` has an agreed name. -/
structure FirstDecides (m : Member) (r₁ r₂ : List Member) : Prop where
  same : getAgentType (.object (m :: r₁)) = getAgentType (.object (m :: r₂))
  invalid : (∀ s ∈ stringValue m, ¬ Agreed s) → ∀ r ∈ [r₁, r₂], getAgentType (.object (m :: r)) = .ok .reqInvalid

/-- The first member decides if and only if it has a string value, or the first
string value of neither object is an agreed name. -/
theorem firstDecides_iff {m : Member} {r₁ r₂ : List Member} :
    FirstDecides m r₁ r₂ ↔ stringValue m ≠ none ∨ ∀ r ∈ [r₁, r₂], ∀ s ∈ firstString r, ¬ Agreed s := by
  have hok : ∀ r, getAgentType (.object (m :: r)) = .ok .reqInvalid ↔ agentTypeOf (m :: r) = .reqInvalid :=
    fun r => by rw [getAgentType_object, Except.ok.injEq]
  cases hm : stringValue m with
  | some s =>
    have hr : ∀ r, agentTypeOf (m :: r) = typeOfName s := fun r => by
      rw [agentTypeOf_eq, firstString, hm]; rfl
    refine ⟨fun _ => .inl (by simp), fun _ => ⟨?_, fun h r _ => ?_⟩⟩
    · rw [getAgentType_object, getAgentType_object, hr, hr]
    · rw [hok, hr]
      exact typeOfName_eq_invalid.mpr (h s hm)
  | none =>
    have hr : ∀ r, agentTypeOf (m :: r) = .reqInvalid ↔ ∀ s ∈ firstString r, ¬ Agreed s := fun r => by
      rw [agentTypeOf_eq_invalid, firstString, hm, Option.none_or]
    constructor
    · intro h
      refine .inr fun r hmem => ?_
      exact (hr r).mp ((hok r).mp (h.invalid (by simp [hm]) r hmem))
    · intro h
      have h := h.resolve_left (by simp)
      have hall : ∀ r ∈ [r₁, r₂], getAgentType (.object (m :: r)) = .ok .reqInvalid := fun r hmem =>
        (hok r).mpr ((hr r).mpr (h r hmem))
      exact ⟨(hall r₁ (by simp)).trans (hall r₂ (by simp)).symm, fun _ => hall⟩

/-- A member without a string value is passed over. -/
theorem firstDecides_passedOver :
    ¬ ∀ (m : Member) (r₁ r₂ : List Member), FirstDecides m r₁ r₂ := by
  intro h
  have hs := (h (ascii "version", .int 1) [(ascii "agent_type", .string (ascii "ux"))] []).same
  cases hs

end CmdAgent
