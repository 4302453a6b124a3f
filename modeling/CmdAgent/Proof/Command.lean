import CmdAgent.Proof.Leakage

/-!
# The command that is forwarded

What `msg_client_info` makes of a UX message.

* It returns for the messages that download a file that fits its buffer and
  name a place to install it, and for no others (`returns_iff_buildable`): a
  file that is missing, another command type or an empty `path_install` ends in
  a read through a null pointer.
* If it returns, the receiver decodes the members of the request, whatever
  their order (`decodes_of_binds`).
* The content it decodes ends at the first NUL of the file
  (`content_iff_nul_free`).

json-c is taken to read back the members of an object it wrote
(`JsonC.RoundTrips`).
-/

namespace CmdAgent

variable {json : JsonC} {ans : Answers} {ms : List Member} {σ : Session} {s s' : State}

/-! ## Messages that can be forwarded -/

/-- The message binds the mac and all members of the command to strings. -/
def Complete (ms : List Member) : Prop := ∀ key ∈ ascii "miner_mac" :: commandKeys, lastString key ms ≠ none

instance (ms : List Member) : Decidable (Complete ms) := inferInstanceAs (Decidable (∀ _ ∈ _, _))

theorem Complete.exists_lastString (h : Complete ms) (key : Bytes) (hk : key ∈ commandKeys) :
    ∃ b, lastString key ms = some b :=
  Option.ne_none_iff_exists'.mp (h key (List.mem_cons_of_mem _ hk))

theorem Complete.forwardable (h : Complete ms) (hb : Buildable ans ms) (σ : Session) :
    Forwardable ans (σ.cmdFields ms) := by
  obtain ⟨c, hc⟩ := h.exists_lastString (ascii "commend_type") (by simp [commandKeys])
  obtain ⟨b, hb'⟩ := h.exists_lastString (ascii "path") (by simp [commandKeys])
  obtain ⟨pi, hpi⟩ := h.exists_lastString (ascii "path_install") (by simp [commandKeys])
  obtain ⟨p, file, hp, hfile, hsize⟩ := hb.path
  have hne : pi.length ≠ 0 := fun h₀ => hb.pathInstall (by rw [hpi, List.length_eq_zero_iff.mp h₀])
  refine ⟨?_, ⟨p, file, ?_, hfile, hsize⟩, ⟨cstr pi, ?_⟩, hb.stream₁, hb.stream₂⟩
  · simp only [Session.cmdFields, hc, Option.map_some, Option.getD_some, Function.comp_apply, hb.cmdType c hc]
  · simp only [Session.cmdFields, hb', Option.map_some, Option.getD_some, Function.comp_apply, hp b hb']
  · simp only [Session.cmdFields, hpi, Option.map_some, Option.getD_some, pathInstallPtr, ne_eq, hne,
      not_false_eq_true, if_true]

/-- `msg_client_info` returns if and only if the session can be forwarded. -/
theorem returns_iff_forwardable (json : JsonC) :
    (∃ r s', msgClientInfo json ans s = .ok r s') ↔ Forwardable ans s.session := by
  have hend := msgClientInfo_ends json ans s
  constructor
  · intro hreturns
    obtain ⟨r, s', h⟩ := hreturns
    exact (hend.ok h).1
  · intro hf
    cases hrun : msgClientInfo json ans s with
    | ok r s' => exact ⟨r, s', rfl⟩
    | error e s' => exact absurd hf (hend.error hrun).1

/-- Of the messages that bind all members, `msg_client_info` returns for those
that download a file it can open twice and that fits its buffer, to a place
that is not empty. -/
theorem returns_iff_buildable (h : Complete ms) (hp : parseJsonCmd (.object ms) σ = .ok s.session) :
    (∃ r s', msgClientInfo json ans s = .ok r s') ↔ Buildable ans ms := by
  rw [parseJsonCmd_object, Except.ok.injEq] at hp
  rw [returns_iff_forwardable, ← hp]
  exact ⟨Buildable.of_forwardable, fun hb => h.forwardable hb σ⟩

/-- The members of a command to download `/f`, to be installed at `pi`. -/
def Flat.downloadTo (pi : String) : List Member :=
  [(ascii "agent_type", .string (ascii "ux")), (ascii "commend_type", .string (ascii "file-download")),
    (ascii "sequence", .string (ascii "1")), (ascii "miner_mac", .string (ascii "m")),
    (ascii "path", .string (ascii "/f")), (ascii "path_install", .string (ascii pi))]

/-- The state in which the session holds the members `ms`. -/
def Flat.parsed (ms : List Member) : State :=
  { Flat.start .empty with session := Flat.garbage.cmdFields ms }

theorem parseJsonCmd_parsed (ms : List Member) :
    parseJsonCmd (.object ms) Flat.garbage = .ok (Flat.parsed ms).session := parseJsonCmd_object ms _

/-- A download to a named place is forwarded. -/
theorem returns_download :
    Complete (Flat.downloadTo "/g") ∧
      ∃ r s', msgClientInfo Flat.spaced (Flat.answers [] 8 9 (.sent 1)) (Flat.parsed (Flat.downloadTo "/g")) =
        .ok r s' :=
  have hc : Complete (Flat.downloadTo "/g") := by decide +kernel
  ⟨hc, (returns_iff_buildable hc (parseJsonCmd_parsed _)).mpr
    ⟨by decide +kernel, ⟨ascii "/f", ⟨0, []⟩, by decide +kernel, by decide +kernel, by decide⟩, by decide +kernel,
      by simp [Flat.answers], by simp [Flat.answers]⟩⟩

/-- An empty `path_install` is stored as a null pointer, and read through. -/
theorem returns_emptyInstall :
    ¬ ∀ (json : JsonC) (ans : Answers) (ms : List Member) (σ : Session) (s : State), Complete ms →
      parseJsonCmd (.object ms) σ = .ok s.session → ∃ r s', msgClientInfo json ans s = .ok r s' := by
  intro h
  have hr := h Flat.spaced (Flat.answers [] 8 9 (.sent 1)) (Flat.downloadTo "") Flat.garbage
    (Flat.parsed (Flat.downloadTo "")) (by decide +kernel) (parseJsonCmd_parsed _)
  obtain ⟨pi, hpi⟩ := ((returns_iff_forwardable _).mp hr).pathInstall
  cases hpi

/-! ## What the receiver decodes -/

/-- `json_object_object_get` -/
def jsonObjectObjectGet (json : Json) (key : Bytes) : Option Json :=
  (jsonObjectGetObject json).bind (List.lookup key)

/-- A member json-c reads back as it was written: its key and its value are
C strings, or its value is an `int`. -/
def Readable : Bytes × JsonText.Scalar → Prop
  | (k, .str s) => (0 : Byte) ∉ k ∧ (0 : Byte) ∉ s
  | (k, .int i) => (0 : Byte) ∉ k ∧ IsInt32 i

/-- The object with the given members. -/
def ofScalars (ms : List (Bytes × JsonText.Scalar)) : Json := .object (ms.map fun m => (m.1, Flat.ofScalar m.2))

/-- json-c reads back the members of an object it wrote. -/
def JsonC.RoundTrips (json : JsonC) : Prop :=
  ∀ ms : List (Bytes × JsonText.Scalar), (ms.map Prod.fst).Nodup → (∀ m ∈ ms, Readable m) →
    json.tokenerParse (cstr (json.toText (ofScalars ms))) = ofScalars ms

/-- What is read through the session's pointers are C strings, and its sequence
number is an `int`. -/
structure Session.Valid (σ : Session) : Prop where
  path : ∀ p, σ.path = .str p → (0 : Byte) ∉ p
  pathInstall : ∀ p, σ.pathInstall = .str p → (0 : Byte) ∉ p
  sequence : IsInt32 σ.sequence

/-- The members of a command, as the receiver decodes them. -/
def decoded (σ : Session) (p pi : Bytes) (file : File) : Json :=
  .object [(ascii "commend_type", .string (ascii "file-download")), (ascii "path", .string p),
    (ascii "sequence", .int σ.sequence),
    (ascii "content", .string (cstr (file.contents.take file.size.toNat))),
    (ascii "path_install", .string pi)]

/-- The members of a command, in order. -/
def sentKeys : List Bytes :=
  [ascii "commend_type", ascii "path", ascii "sequence", ascii "content", ascii "path_install"]

theorem nodup_sentKeys : sentKeys.Nodup := by decide +kernel

theorem nul_not_mem_sentKeys : ∀ key ∈ sentKeys, (0 : Byte) ∉ key := by decide +kernel

theorem tokenerParse_command (hj : json.RoundTrips) (hσ : σ.Valid) {p pi : Bytes} (hp : σ.path = .str p)
    (hpi : σ.pathInstall = .str pi) (file : File) :
    json.tokenerParse (command json σ p pi file) = decoded σ p pi file := by
  have hk := nul_not_mem_sentKeys
  simp only [sentKeys, List.forall_mem_cons, List.not_mem_nil, false_imp_iff, implies_true, and_true] at hk
  obtain ⟨h₁, h₂, h₃, h₄, h₅⟩ := hk
  let members : List (Bytes × JsonText.Scalar) :=
    [(ascii "commend_type", .str (ascii "file-download")), (ascii "path", .str p),
      (ascii "sequence", .int σ.sequence), (ascii "content", .str (cstr (file.contents.take file.size.toNat))),
      (ascii "path_install", .str pi)]
  have hread : ∀ m ∈ members, Readable m := by
    simp only [members, List.forall_mem_cons, List.not_mem_nil, false_imp_iff, implies_true, and_true, Readable]
    exact ⟨⟨h₁, by decide +kernel⟩, ⟨h₂, hσ.path p hp⟩, ⟨h₃, hσ.sequence⟩, ⟨h₄, nul_not_mem_cstr _⟩,
      h₅, hσ.pathInstall pi hpi⟩
  exact hj members nodup_sentKeys hread

/-- The text `msg_client_info` returns, decoded. -/
theorem msgClientInfo_decoded (hj : json.RoundTrips) (hσ : s.session.Valid) {text : Bytes} {len : Nat}
    (hrun : msgClientInfo json ans s = .ok (text, len) s') :
    ∃ p file pi, s.session.path = .str p ∧ ans.files p = some file ∧ s.session.pathInstall = .str pi ∧
      s.session.cmdType = .str (ascii "file-download") ∧ text.length = len ∧
      json.tokenerParse text = decoded s.session p pi file := by
  obtain ⟨hf, -, p, file, pi, hp, hfile, hpi, hdata⟩ := (msgClientInfo_ends json ans s).ok hrun
  obtain ⟨rfl, rfl⟩ := Prod.mk.inj hdata
  exact ⟨p, file, pi, hp, hfile, hpi, hf.cmdType, rfl, tokenerParse_command hj hσ hp hpi file⟩

/-- The message has distinct keys, and binds the fields of a command: the
strings `c`, `m`, `p` and `pi`, and the integer `i` by its decimal text. -/
structure Binds (ms : List Member) (c m p pi : Bytes) (i : Int) : Prop where
  keys : (ms.map Prod.fst).Nodup
  cmdType : (ascii "commend_type", .string c) ∈ ms
  minerMac : (ascii "miner_mac", .string m) ∈ ms
  path : (ascii "path", .string p) ∈ ms
  pathInstall : (ascii "path_install", .string pi) ∈ ms
  sequence : ∃ t, (ascii "sequence", .string t) ∈ ms ∧ DecimalOf t i
  nulFree : ∀ b ∈ [c, m, p, pi], (0 : Byte) ∉ b
  isInt32 : IsInt32 i

section

variable {c m p pi : Bytes} {i : Int}

theorem Binds.perm {ms' : List Member} (h : Binds ms c m p pi i) (hp : ms'.Perm ms) :
    Binds ms' c m p pi i where
  keys := (hp.map Prod.fst).nodup_iff.mpr h.keys
  cmdType := hp.mem_iff.mpr h.cmdType
  minerMac := hp.mem_iff.mpr h.minerMac
  path := hp.mem_iff.mpr h.path
  pathInstall := hp.mem_iff.mpr h.pathInstall
  sequence := h.sequence.imp fun _ ht => ⟨hp.mem_iff.mpr ht.1, ht.2⟩
  nulFree := h.nulFree
  isInt32 := h.isInt32

/-- Each field is set by its own member, wherever it stands. -/
theorem Binds.cmdFields (h : Binds ms c m p pi i) (σ : Session) :
    σ.cmdFields ms = { σ with
      cmdType := .str c, minerMac := .str m, path := .str p, pathInstall := pathInstallPtr pi, sequence := i } := by
  obtain ⟨t, ht, hd⟩ := h.sequence
  have hseq : atoi (cstr t) = i := by rw [cstr_of_nul_free hd.nul_free, hd.atoi h.isInt32]
  have hc : cstr c = c := cstr_of_nul_free (h.nulFree c (by simp))
  have hm : cstr m = m := cstr_of_nul_free (h.nulFree m (by simp))
  have hp : cstr p = p := cstr_of_nul_free (h.nulFree p (by simp))
  simp only [Session.cmdFields, lastString_of_mem h.keys h.cmdType, lastString_of_mem h.keys h.minerMac,
    lastString_of_mem h.keys h.path, lastString_of_mem h.keys h.pathInstall, lastString_of_mem h.keys ht,
    Option.map_some, Option.getD_some, Function.comp_apply, hseq, hc, hm, hp]

theorem Binds.pathInstall_eq (h : Binds ms c m p pi i) {b : Bytes} (hb : pathInstallPtr pi = .str b) : b = pi := by
  unfold pathInstallPtr at hb
  split at hb
  · rw [cstr_of_nul_free (h.nulFree pi (by simp))] at hb
    exact (CharPtr.str.inj hb).symm
  · cases hb

theorem Binds.valid (h : Binds ms c m p pi i) (σ : Session) : (σ.cmdFields ms).Valid := by
  rw [h.cmdFields]
  refine ⟨fun b hb => ?_, fun b hb => ?_, h.isInt32⟩
  · obtain rfl := CharPtr.str.inj hb
    exact h.nulFree p (by simp)
  · rw [h.pathInstall_eq hb]
    exact h.nulFree pi (by simp)

/-- `msg_client_info` reads four fields of the session, and of the rest of the
state nothing. -/
theorem msgClientInfo_fields {r : Bytes × Nat} (hrun : msgClientInfo json ans s = .ok r s') {u : State}
    (h₁ : u.session.cmdType = s.session.cmdType) (h₂ : u.session.path = s.session.path)
    (h₃ : u.session.pathInstall = s.session.pathInstall) (h₄ : u.session.sequence = s.session.sequence) :
    ∃ a b, ans.stream₁ = some a ∧ ans.stream₂ = some b ∧ s' = { s with fds := afterStreams s.fds a b } ∧
      msgClientInfo json ans u = .ok r { u with fds := afterStreams u.fds a b } := by
  obtain ⟨hf, ⟨a, b, ha, hb, rfl⟩, p, file, pi, hp, hfile, hpi, rfl⟩ := (msgClientInfo_ends json ans s).ok hrun
  have hf' : Forwardable ans u.session :=
    ⟨h₁.trans hf.cmdType, by rw [h₂]; exact hf.path, by rw [h₃]; exact hf.pathInstall, hf.stream₁, hf.stream₂⟩
  obtain ⟨r', s'', hrun'⟩ := (returns_iff_forwardable json).mpr hf'
  obtain ⟨-, ⟨a', b', ha', hb', rfl⟩, p', file', pi', hp', hfile', hpi', rfl⟩ :=
    (msgClientInfo_ends json ans u).ok hrun'
  obtain rfl : a = a' := Option.some.inj (ha.symm.trans ha')
  obtain rfl : b = b' := Option.some.inj (hb.symm.trans hb')
  obtain rfl : p = p' := CharPtr.str.inj ((hp.symm.trans h₂.symm).trans hp')
  obtain rfl : pi = pi' := CharPtr.str.inj ((hpi.symm.trans h₃.symm).trans hpi')
  obtain rfl : file = file' := Option.some.inj (hfile.symm.trans hfile')
  have hcmd : command json u.session p pi file = command json s.session p pi file := by
    rw [command, command, h₄]
  rw [hcmd] at hrun'
  exact ⟨a, b, ha, hb, rfl, hrun'⟩

/-- The command decodes to the members of the request, and is the same for
every order of them and every session they are parsed into. -/
theorem decodes_of_binds {text : Bytes} {len : Nat} (hj : json.RoundTrips) (h : Binds ms c m p pi i)
    (hp : parseJsonCmd (.object ms) σ = .ok s.session) (hrun : msgClientInfo json ans s = .ok (text, len) s') :
    text.length = len ∧
      jsonObjectObjectGet (json.tokenerParse text) (ascii "commend_type") = some (.string c) ∧
      jsonObjectObjectGet (json.tokenerParse text) (ascii "path") = some (.string p) ∧
      jsonObjectObjectGet (json.tokenerParse text) (ascii "path_install") = some (.string pi) ∧
      jsonObjectObjectGet (json.tokenerParse text) (ascii "sequence") = some (.int i) ∧
      ∀ (ms' : List Member) (σ' τ : Session), ms'.Perm ms → parseJsonCmd (.object ms') σ' = .ok τ →
        msgClientInfo json ans { s with session := τ } = .ok (text, len) { s' with session := τ } := by
  rw [parseJsonCmd_object, Except.ok.injEq] at hp
  have hs : s.session = { σ with
      cmdType := .str c, minerMac := .str m, path := .str p, pathInstall := pathInstallPtr pi, sequence := i } := by
    rw [← hp, h.cmdFields]
  have hvalid : s.session.Valid := hp ▸ h.valid σ
  obtain ⟨p', file, pi', hpath, -, hinstall, hcmd, hlen, htext⟩ := msgClientInfo_decoded hj hvalid hrun
  rw [hs] at hpath hinstall hcmd
  obtain rfl := CharPtr.str.inj hpath
  obtain rfl := h.pathInstall_eq hinstall
  obtain rfl := CharPtr.str.inj hcmd
  have hseq : s.session.sequence = i := by rw [hs]
  rw [htext]
  refine ⟨hlen, rfl, rfl, rfl, ?_, fun ms' σ' τ hperm hτ => ?_⟩
  · rw [← hseq]
    rfl
  · rw [parseJsonCmd_object, (h.perm hperm).cmdFields, Except.ok.injEq] at hτ
    obtain ⟨a, b, -, -, rfl, hrun'⟩ := msgClientInfo_fields hrun (u := { s with session := τ })
      (by rw [← hτ, hs]) (by rw [← hτ, hs]) (by rw [← hτ, hs]) (by rw [← hτ, hs])
    exact hrun'

end

theorem roundTrips_spaced : Flat.spaced.RoundTrips := by
  intro l _ _
  rw [ofScalars, Flat.toText_spaced, cstr_of_nul_free (JsonText.nul_not_mem_print l), Flat.tokenerParse_spaced]

theorem forwardable_download (file : File) (hfits : file.Fits 1) :
    Forwardable { Flat.answers [] 8 9 (.sent 1) with files := fun _ => some file }
      (Flat.parsed (Flat.downloadTo "/g")).session :=
  ⟨by decide +kernel, ⟨ascii "/f", file, by decide +kernel, rfl, hfits⟩, ⟨ascii "/g", by decide +kernel⟩,
    by simp [Flat.answers], by simp [Flat.answers]⟩

theorem returns_download_of (file : File) (hfits : file.Fits 1) :
    ∃ text len s', msgClientInfo Flat.spaced
      { Flat.answers [] 8 9 (.sent 1) with files := fun _ => some file }
      (Flat.parsed (Flat.downloadTo "/g")) = .ok (text, len) s' := by
  obtain ⟨r, s', hrun⟩ := (returns_iff_forwardable Flat.spaced).mpr (forwardable_download file hfits)
  exact ⟨r.1, r.2, s', hrun⟩

theorem path_download : (Flat.parsed (Flat.downloadTo "/g")).session.path = .str (ascii "/f") := by decide +kernel

theorem binds_download :
    Binds (Flat.downloadTo "/g") (ascii "file-download") (ascii "m") (ascii "/f") (ascii "/g") 1 where
  keys := by decide +kernel
  cmdType := by simp [Flat.downloadTo]
  minerMac := by simp [Flat.downloadTo]
  path := by simp [Flat.downloadTo]
  pathInstall := by simp [Flat.downloadTo]
  sequence := ⟨ascii "1", by simp [Flat.downloadTo], decimalOf_printD 1⟩
  nulFree := by decide +kernel
  isInt32 := by decide

theorem decodes_download :
    ∃ text len s', msgClientInfo Flat.spaced
        { Flat.answers [] 8 9 (.sent 1) with files := fun _ => some ⟨2, [104, 105]⟩ }
        (Flat.parsed (Flat.downloadTo "/g")) = .ok (text, len) s' ∧
      text.length = len ∧
      jsonObjectObjectGet (Flat.spaced.tokenerParse text) (ascii "path_install") = some (.string (ascii "/g")) ∧
      jsonObjectObjectGet (Flat.spaced.tokenerParse text) (ascii "sequence") = some (.int 1) := by
  obtain ⟨text, len, s', hrun⟩ := returns_download_of ⟨2, [104, 105]⟩ (by decide)
  obtain ⟨hlen, -, -, hi, hseq, -⟩ :=
    decodes_of_binds roundTrips_spaced binds_download (parseJsonCmd_parsed _) hrun
  exact ⟨text, len, s', hrun, hlen, hi, hseq⟩

/-! ## The content of the file -/

/-- The content the receiver decodes: what is read of a regular file ends at
its first NUL. -/
theorem content_decoded {p text : Bytes} {len : Nat} {file : File} (hj : json.RoundTrips)
    (hσ : s.session.Valid) (hp : s.session.path = .str p) (hfile : ans.files p = some file)
    (hsize : file.size = file.contents.length) (hrun : msgClientInfo json ans s = .ok (text, len) s') :
    jsonObjectObjectGet (json.tokenerParse text) (ascii "content") = some (.string (cstr file.contents)) := by
  obtain ⟨p', file', pi, hp', hfile', -, -, -, htext⟩ := msgClientInfo_decoded hj hσ hrun
  obtain rfl : p = p' := CharPtr.str.inj (hp.symm.trans hp')
  obtain rfl : file = file' := Option.some.inj (hfile.symm.trans hfile')
  have hall : file.contents.take file.size.toNat = file.contents := by
    rw [hsize, Int.toNat_natCast, List.take_length]
  rw [htext, ← hall]
  rfl

theorem cstr_eq_self {b : Bytes} : cstr b = b ↔ (0 : Byte) ∉ b :=
  ⟨fun h => h ▸ nul_not_mem_cstr b, cstr_of_nul_free⟩

/-- The content of a regular file arrives intact if and only if it holds no
NUL. -/
theorem content_iff_nul_free {p text : Bytes} {len : Nat} {file : File} (hj : json.RoundTrips)
    (hσ : s.session.Valid) (hp : s.session.path = .str p) (hfile : ans.files p = some file)
    (hsize : file.size = file.contents.length) (hrun : msgClientInfo json ans s = .ok (text, len) s') :
    jsonObjectObjectGet (json.tokenerParse text) (ascii "content") = some (.string file.contents) ↔
      (0 : Byte) ∉ file.contents := by
  rw [content_decoded hj hσ hp hfile hsize hrun, Option.some.injEq, Json.string.injEq, cstr_eq_self]

/-- A file that holds the text `hi`. -/
theorem content_download :
    ∃ text len s', msgClientInfo Flat.spaced
        { Flat.answers [] 8 9 (.sent 1) with files := fun _ => some ⟨2, [104, 105]⟩ }
        (Flat.parsed (Flat.downloadTo "/g")) = .ok (text, len) s' ∧
      jsonObjectObjectGet (Flat.spaced.tokenerParse text) (ascii "content") = some (.string [104, 105]) := by
  obtain ⟨text, len, s', hrun⟩ := returns_download_of ⟨2, [104, 105]⟩ (by decide)
  exact ⟨text, len, s', hrun,
    (content_iff_nul_free roundTrips_spaced (binds_download.valid _) path_download rfl rfl hrun).mpr (by decide)⟩

/-- Of a file whose first byte is a NUL, nothing arrives. -/
theorem content_nul :
    ¬ ∀ (json : JsonC) (ans : Answers) (s s' : State) (p text : Bytes) (len : Nat) (file : File),
      json.RoundTrips → s.session.Valid → s.session.path = .str p → ans.files p = some file →
      file.size = file.contents.length → msgClientInfo json ans s = .ok (text, len) s' →
      jsonObjectObjectGet (json.tokenerParse text) (ascii "content") = some (.string file.contents) := by
  intro h
  obtain ⟨text, len, s', hrun⟩ := returns_download_of ⟨2, [0, 105]⟩ (by decide)
  have hall := h _ _ _ _ _ _ _ _ roundTrips_spaced (binds_download.valid _) path_download rfl rfl hrun
  rw [content_decoded roundTrips_spaced (binds_download.valid _) path_download rfl rfl hrun] at hall
  cases hall

end CmdAgent
