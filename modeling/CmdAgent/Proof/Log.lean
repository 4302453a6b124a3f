import CmdAgent.Proof.Serve
import CmdAgent.Impl.Flat

/-!
# What the functions of the session table tell

The texts of the statements mean what was asked if and only if the mac stands
for itself between quotes (`meant_iff_verbatim`): a quote in it ends the
literal, and a backslash takes the byte after it along.

`mysql_insert_fd` takes any failure of the insertion for a mac that is present
already, and the success of an update for a row that was stored. Its result is
true unless the insertion of an absent mac fails for another reason and the
update, which then finds no row, does not (`truthful_iff`).

The length of a mac is checked nowhere between the message and the buffers of
the texts. The insertion is the longest of them, and leaves a mac 178 to 182
bytes, depending on the digits of the descriptor (`queriesFit_iff`).
-/

namespace CmdAgent

open SqlText

variable {db : Database} {ans : Answers} {mac : Bytes} {fd : Int} {t : AgentType} {s : State}

/-! ## The texts -/

/-- The text has the given shape, with these literals in its open places. -/
def HasShape (text : Bytes) (shape : List Place) (args : List Bytes) : Prop :=
  (tokenize text).bind (matchShape shape) = some args

instance (text : Bytes) (shape : List Place) (args : List Bytes) : Decidable (HasShape text shape args) :=
  inferInstanceAs (Decidable (_ = _))

theorem hasShape_of_tokenize {text : Bytes} {shape : List Place} {args : List Bytes}
    (h : tokenize text = some (fill shape args)) (hlen : shape.count .arg = args.length) :
    HasShape text shape args := by
  rw [HasShape, h, Option.bind_some, matchShape_fill hlen]

/-- The four texts with a mac in them have the shape of their template, with
the given values as literals, and are the statements that were meant. -/
structure Meant (mac : Bytes) (fd : Int) (t : AgentType) : Prop where
  insert : HasShape (insertText mac fd t) insertShape [mac, printD fd, printD t.toInt]
  update : HasShape (updateText mac fd t) updateShape [printD fd, printD t.toInt, mac]
  select : HasShape (selectFdText mac) selectFdShape [mac]
  delete : HasShape (deleteMacText mac) deleteMacShape [mac]
  insertRow : parseStatement (insertText mac fd t) = some (.insert ⟨mac, fd, t.toInt⟩)
  updateRow : parseStatement (updateText mac fd t) = some (.update ⟨mac, fd, t.toInt⟩)
  selectMac : parseStatement (selectFdText mac) = some (.selectFd mac)
  deleteMac : parseStatement (deleteMacText mac) = some (.deleteMac mac)

/-- A `select` whose only literal is the mac itself. -/
theorem verbatim_of_select (h : HasShape (selectFdText mac) selectFdShape [mac]) : Verbatim mac := by
  obtain ⟨toks, htoks, hshape⟩ := Option.bind_eq_some_iff.mp h
  rw [eq_fill_of_matchShape hshape, tokenize, selectFdText, List.append_assoc, List.foldl_append,
    lex_selectFd] at htoks
  exact verbatim_of_closed htoks

/-- The texts mean what was asked if and only if the mac stands for itself. -/
theorem meant_iff_verbatim (hf : IsInt32 fd) : Meant mac fd t ↔ Verbatim mac := by
  constructor
  · intro h
    exact verbatim_of_select h.select
  · intro hm
    exact
      { insert := hasShape_of_tokenize (tokenize_insertText hm fd t) rfl
        update := hasShape_of_tokenize (tokenize_updateText hm fd t) rfl
        select := hasShape_of_tokenize (tokenize_selectFdText hm) rfl
        delete := hasShape_of_tokenize (tokenize_deleteMacText hm) rfl
        insertRow := parse_insertText hm hf t
        updateRow := parse_updateText hm hf t
        selectMac := parse_selectFdText hm
        deleteMac := parse_deleteMacText hm }

/-- A mac address has neither quotes nor backslashes. -/
theorem meant_address : Meant (ascii "00:1b:44:11:3a:b7") 6 .reqLinuxClaymore :=
  (meant_iff_verbatim (by decide)).mpr (Plain.verbatim (by decide +kernel))

/-- A mac with quotes in it turns the condition of a `select` into one that
every row meets. -/
theorem meant_quotes :
    ¬ ∀ (mac : Bytes) (fd : Int) (t : AgentType), (0 : Byte) ∉ mac → IsInt32 fd → Meant mac fd t := by
  intro h
  have hm := (h (ascii "x' or '1'='1") 6 .reqLinuxClaymore (by decide +kernel) (by decide)).select
  exact absurd hm (by decide +kernel)

/-! ## The result of `mysql_insert_fd` -/

/-- `mysql_insert_fd` returns, and tells what it did. If it returns `fd`, the
table holds one row for the mac, with this descriptor and agent type, and the
rows of other macs as before, and the mac can be looked up; if the result is
negative, the table is as before. -/
def Truthful (db : Database) (ans : Answers) (mac : Bytes) (fd : Int) (t : AgentType) (s : State) : Prop :=
  ∃ ret s', mysqlInsertFd db ans (.str mac) fd t s = .ok ret s' ∧
    (ret = fd →
      s'.table.rowsFor mac = [⟨mac, fd, t.toInt⟩] ∧
      (∀ k ≠ mac, s'.table.rowsFor k = s.table.rowsFor k) ∧
      ∀ ans' : Answers, ans'.select = .answered → returned (mysqlSelectFd db ans' (.str mac)) s' = some fd) ∧
    (ret < 0 → s'.table = s.table)

/-- The insertion failed although the mac is absent, and the update did not
fail. -/
def Unstored (ans : Answers) (mac : Bytes) (tbl : Table) : Prop :=
  ans.insert = .failed ∧ tbl.lookup mac = none ∧ ans.update ≠ .failed

/-- The text of a `select` is shorter than that of an update. -/
theorem Fits.select (h : Fits mac fd t) : (selectFdText mac).length + 1 ≤ QUERY_LEN := by
  have h₂ := h.2
  rw [length_updateText] at h₂
  rw [length_selectFdText]
  omega

/-- A table that holds the row answers the lookup of its mac. -/
theorem returned_select (hm : Verbatim mac) (hf : IsInt32 fd) (hfit : Fits mac fd t)
    (hl : s.table.lookup mac = some ⟨mac, fd, t.toInt⟩) (ha : ans.select = .answered) :
    returned (mysqlSelectFd db ans (.str mac)) s = some fd := by
  have hfound := (firstRow_selectFd db hm ans.select s.table).1 ha
  rw [hl] at hfound
  rw [returned_of_run (mysqlSelectFd_run db ans s hfit.select), found, hfound]
  exact congrArg some (atoi_printD hf)

/-- The result is true for a table into which the row was put. -/
theorem truthful_of_put (hm : Verbatim mac) (hf : IsInt32 fd) (hfit : Fits mac fd t) (h₀ : 0 ≤ fd)
    (hput : insertTable db ans mac fd t s.table = s.table.put ⟨mac, fd, t.toInt⟩)
    (hret : (insertQueries db ans mac fd t s.table).1 = fd) : Truthful db ans mac fd t s := by
  refine ⟨_, _, mysqlInsertFd_run db ans hfit s, fun _ => ⟨?_, fun k hk => ?_, fun ans' ha => ?_⟩, fun hneg => ?_⟩
  · show (insertTable db ans mac fd t s.table).rowsFor mac = _
    rw [hput, KeyedTable.rowsFor_eq, KeyedTable.lookup_put, if_pos rfl]
    rfl
  · show (insertTable db ans mac fd t s.table).rowsFor k = _
    rw [hput, KeyedTable.rowsFor_eq, KeyedTable.lookup_put, if_neg (Ne.symm hk), KeyedTable.rowsFor_eq]
  · refine returned_select hm hf hfit ?_ ha
    show (insertTable db ans mac fd t s.table).lookup mac = _
    rw [hput, KeyedTable.lookup_put, if_pos rfl]
  · rw [hret] at hneg
    exact absurd h₀ (not_le.mpr hneg)

/-- For a mac that stands for itself, the result is true if and only if the
texts fit their buffers and no row was lost. -/
theorem truthful_iff (hm : Verbatim mac) (hf : IsInt32 fd) (h₀ : 0 ≤ fd) :
    Truthful db ans mac fd t s ↔ Fits mac fd t ∧ ¬ Unstored ans mac s.table := by
  by_cases hfit : Fits mac fd t
  · have hrun := mysqlInsertFd_run db ans hfit s
    rcases insertQueries_cases db ans hm hf t s.table with
      ⟨hi, -, hret, htbl⟩ | ⟨hwhy, hu, hret, htbl⟩ | ⟨-, hu, hret, htbl⟩
    · exact ⟨fun _ => ⟨hfit, fun h => hi h.1⟩, fun _ => truthful_of_put hm hf hfit h₀ htbl hret⟩
    · by_cases hl : s.table.lookup mac = none
      · -- the update has found no row
        have hun : Unstored ans mac s.table := ⟨hwhy.resolve_right (not_not.mpr hl), hl, hu⟩
        refine ⟨fun htruthful => ?_, fun h => absurd hun h.2⟩
        obtain ⟨ret, s', hrun', htrue, -⟩ := htruthful
        obtain ⟨rfl, rfl⟩ := EStateM.Result.ok.inj (hrun.symm.trans hrun')
        have hrow : (insertTable db ans mac fd t s.table).rowsFor mac = _ := (htrue hret).1
        rw [htbl, KeyedTable.rowsFor_eq, KeyedTable.lookup_replace, if_neg fun h => h.2 hl, hl] at hrow
        cases hrow
      · refine ⟨fun _ => ⟨hfit, fun h => hl h.2.1⟩, fun _ => truthful_of_put hm hf hfit h₀ ?_ hret⟩
        rw [htbl, KeyedTable.put, dif_neg hl]
    · refine ⟨fun _ => ⟨hfit, fun h => h.2.2 hu⟩, fun _ => ⟨_, _, hrun, fun hfd => ?_, fun _ => htbl⟩⟩
      rw [hret] at hfd
      exact absurd h₀ (by omega)
  · refine ⟨fun htruthful => ?_, fun h => absurd h.1 hfit⟩
    obtain ⟨ret, s', hrun, -⟩ := htruthful
    have hstop : mysqlInsertFd db ans (.str mac) fd t s = .error (.undefined "sprintf") s :=
      mysqlInsertFd_stop db ans (fun m hm' => CharPtr.str.inj hm' ▸ hfit) s
    rw [hstop] at hrun
    cases hrun

/-- A new mac is stored. -/
theorem truthful_stored : Truthful Flat.db {} (ascii "m") 6 .reqLinuxClaymore (Flat.start .empty) :=
  (truthful_iff (Plain.verbatim (by decide +kernel)) (by decide) (by decide)).mpr
    ⟨⟨by decide +kernel, by decide +kernel⟩, fun h => by cases h.1⟩

/-- A mac that the table does not take, and an update that finds no row: the
result is the descriptor, and nothing is stored. -/
theorem truthful_rejected :
    ¬ ∀ (db : Database) (ans : Answers) (mac : Bytes) (fd : Int) (t : AgentType) (s : State), Plain mac →
      Fits mac fd t → IsInt32 fd → 0 ≤ fd → Truthful db ans mac fd t s := by
  intro h
  have hfit : Fits (ascii "m") 6 .reqLinuxClaymore := ⟨by decide +kernel, by decide +kernel⟩
  obtain ⟨ret, s', hrun, htrue, -⟩ := h Flat.db { insert := .failed } (ascii "m") 6 .reqLinuxClaymore
    (Flat.start .empty) (by decide +kernel) hfit (by decide) (by decide)
  obtain ⟨rfl, rfl⟩ := EStateM.Result.ok.inj ((mysqlInsertFd_run Flat.db _ hfit _).symm.trans hrun)
  have hrow := (htrue (by decide +kernel)).1
  exact absurd hrow (by decide +kernel)

/-! ## The buffers of the texts -/

/-- What `mysql_insert_fd` and `mysql_select_fd` print into their buffers. -/
def queryTexts (mac : Bytes) (fd : Int) (t : AgentType) : List Bytes :=
  [insertText mac fd t, updateText mac fd t, selectFdText mac]

/-- The mac can be read, and the texts with it fit their buffers, each with its
terminating NUL. -/
def QueriesFit (minerMac : CharPtr) (fd : Int) (t : AgentType) : Prop :=
  ∃ mac, minerMac = .str mac ∧ ∀ text ∈ queryTexts mac fd t, text.length + 1 ≤ QUERY_LEN

/-- The bytes the texts leave for a mac. -/
def macRoom (fd : Int) : Nat :=
  if fd < 10 then 182 else if fd < 100 then 181 else if fd < 1000 then 180 else if fd < 10000 then 179 else 178

/-- The insertion has the longest text. -/
theorem queriesFit_str : QueriesFit (.str mac) fd t ↔ 72 + mac.length + (printD fd).length + 1 ≤ 256 := by
  constructor
  · intro hfit
    obtain ⟨mac', hmac, h⟩ := hfit
    obtain rfl := CharPtr.str.inj hmac
    have hins := h (insertText mac fd t) (by simp [queryTexts])
    rwa [length_insertText] at hins
  · intro h
    refine ⟨mac, rfl, fun text htext => ?_⟩
    simp only [queryTexts, List.mem_cons, List.not_mem_nil, or_false] at htext
    show text.length + 1 ≤ 256
    obtain rfl | rfl | rfl := htext
    · rw [length_insertText]; exact h
    · rw [length_updateText]; omega
    · rw [length_selectFdText]; omega

/-- The digits of a descriptor and the room they leave. -/
theorem length_printD_add_macRoom (h₀ : 0 ≤ fd) (hmax : fd < MAXFDS) : (printD fd).length + macRoom fd = 183 := by
  have hmax' : fd < 16384 := hmax
  have h₁ := length_dec_le_iff (n := fd.toNat) (k := 1) (by decide)
  have h₂ := length_dec_le_iff (n := fd.toNat) (k := 2) (by decide)
  have h₃ := length_dec_le_iff (n := fd.toNat) (k := 3) (by decide)
  have h₄ := length_dec_le_iff (n := fd.toNat) (k := 4) (by decide)
  have h₅ := length_dec_le_iff (n := fd.toNat) (k := 5) (by decide)
  have hpos := List.length_pos_iff.mpr (dec_ne_nil fd.toNat)
  rw [printD_of_nonneg h₀]
  unfold macRoom
  split_ifs <;> omega

/-- The mac of a message, in the session. -/
theorem minerMac_of_parse {ms : List Member} {σ σ' : Session} {mac : Bytes}
    (hmac : lastString (ascii "miner_mac") ms = some mac)
    (hparse : parseJsonCmd (.object ms) σ = .ok σ' ∨ parseJsonAgent (.object ms) σ = .ok σ') :
    σ'.minerMac = .str (cstr mac) := by
  rw [parseJsonCmd_object, parseJsonAgent_object] at hparse
  obtain h | h := hparse
  · cases h
    simp only [Session.cmdFields, hmac]; rfl
  · cases h
    simp only [Session.agentFields, hmac]; rfl

/-- Once a message with a mac has been parsed, the texts fit their buffers if
and only if the mac, up to its first NUL, fits the room they leave. -/
theorem queriesFit_iff {ms : List Member} {σ σ' : Session} (hmac : lastString (ascii "miner_mac") ms = some mac)
    (hparse : parseJsonCmd (.object ms) σ = .ok σ' ∨ parseJsonAgent (.object ms) σ = .ok σ')
    (h₀ : 0 ≤ fd) (hmax : fd < MAXFDS) : QueriesFit σ'.minerMac fd t ↔ (cstr mac).length ≤ macRoom fd := by
  have hroom := length_printD_add_macRoom h₀ hmax
  rw [minerMac_of_parse hmac hparse, queriesFit_str]
  omega

/-- A message with a mac of `n` bytes. -/
def macMessage (n : Nat) : List Member := [(ascii "miner_mac", .string (List.replicate n 97))]

theorem cstr_replicate (n : Nat) : cstr (List.replicate n 97) = List.replicate n 97 :=
  cstr_of_nul_free fun h => absurd (List.eq_of_mem_replicate h) (by decide)

theorem lastString_macMessage (n : Nat) :
    lastString (ascii "miner_mac") (macMessage n) = some (List.replicate n 97) := rfl

/-- A mac of 178 bytes fits with every descriptor. -/
theorem queriesFit_room :
    QueriesFit (Flat.garbage.agentFields (macMessage 178)).minerMac 16383 .reqLinuxClaymore := by
  refine (queriesFit_iff (lastString_macMessage 178) (.inr (parseJsonAgent_object _ _)) (by decide)
    (by decide)).mpr ?_
  rw [cstr_replicate, List.length_replicate]
  decide

/-- One of 183 bytes fits with none. -/
theorem queriesFit_long :
    ¬ ∀ (ms : List Member) (σ σ' : Session) (mac : Bytes) (fd : Int) (t : AgentType),
      lastString (ascii "miner_mac") ms = some mac →
      (parseJsonCmd (.object ms) σ = .ok σ' ∨ parseJsonAgent (.object ms) σ = .ok σ') →
      0 ≤ fd → fd < MAXFDS → QueriesFit σ'.minerMac fd t := by
  intro h
  have hparse := parseJsonAgent_object (macMessage 183) Flat.garbage
  have hfit := h _ _ _ _ 6 .reqLinuxClaymore (lastString_macMessage 183) (.inr hparse) (by decide) (by decide)
  rw [minerMac_of_parse (lastString_macMessage 183) (.inr hparse), queriesFit_str, cstr_replicate,
    List.length_replicate, printD_of_nonneg (by decide)] at hfit
  have hone := List.length_pos_iff.mpr (dec_ne_nil (6 : Int).toNat)
  omega

end CmdAgent
