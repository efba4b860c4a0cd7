import HathorLedger.App
import HathorLedger.Client.Token
import HathorLedger.Client.Transaction
import HathorLedger.Library.Dialogue

/-!
# Commands of the client

The functions of `app_client/cmd_builder.py` and of `app_client/cmd.py`. A generator of commands is
a list; where building a command raises an exception, the list has `none` in its place. The client
sends a command and waits for its answer, a status word and data.

## Main definitions

* `chunkify`, `CommandBuilder`: the bytes of the commands.
* `Method`: programs of the client. `signTx`, `getXpub` and the others: the methods of `Command`.

## Main results

* `exists_chunkify`, `flatten_take_chunkify`: the chunks are the data, cut into pieces that fit.
* `serialize_eq_some_iff`, `exists_of_pathData`: the bytes of commands and of paths.
* `runs_exchange_ok_iff`, `runs_dataCommand_iff`: commands that are answered with `SW_OK`.
-/

namespace HathorLedger.Client

open Dialogue (Runs runs_bind_ok_iff runs_pure_iff runs_ofOption_ok_iff)

/-! ### The command builder -/

def maxApduLen : ℕ := 255

/-- `chunkify`: the chunks, each with the truth value of its flag `is_last`. -/
def chunkify (data : Bytes) (chunkLen : ℕ) : List (Bool × Bytes) :=
  if data.length ≤ chunkLen then [(true, data)]
  else
    let chunk := data.length / chunkLen
    let remaining := data.length % chunkLen
    let full := (List.range chunk).map fun i =>
      (decide (i = chunk - 1 ∧ remaining ≠ 0), (data.drop (i * chunkLen)).take chunkLen)
    if remaining ≠ 0 then full ++ [(true, data.drop (chunk * chunkLen))] else full

section Chunks

variable {data : Bytes} {chunkLen : ℕ}

theorem chunkify_of_le (h : data.length ≤ chunkLen) : chunkify data chunkLen = [(true, data)] :=
  if_pos h

/-- The chunks of data that are not empty: full ones, and the rest. -/
theorem map_snd_chunkify (hpos : 0 < chunkLen) (hne : data ≠ []) :
    (chunkify data chunkLen).map Prod.snd =
      (List.range (data.length / chunkLen)).map (fun i => (data.drop (i * chunkLen)).take chunkLen) ++
        if data.length % chunkLen ≠ 0 then [data.drop (data.length / chunkLen * chunkLen)] else [] := by
  rw [chunkify]
  split_ifs with hle hrest hrest
  · rcases hle.lt_or_eq with hlt | heq
    · simp [Nat.div_eq_of_lt hlt]
    · rw [heq, Nat.mod_self] at hrest
      exact absurd rfl hrest
  · have hlen := List.length_pos_iff.2 hne
    have heq : data.length = chunkLen := by
      by_contra hlt
      rw [not_not, Nat.mod_eq_of_lt (lt_of_le_of_ne hle hlt)] at hrest
      omega
    subst heq
    simp [Nat.div_self hpos]
  · rw [if_pos hrest, List.map_append, List.map_map]
    rfl
  · rw [if_neg hrest, List.map_map, List.append_nil]
    rfl

/-- A chunk is split off in front of the rest. -/
theorem chunkify_of_lt (hpos : 0 < chunkLen) (h : chunkLen < data.length) :
    (chunkify data chunkLen).map Prod.snd =
      data.take chunkLen :: (chunkify (data.drop chunkLen) chunkLen).map Prod.snd := by
  have hne : data ≠ [] := List.ne_nil_of_length_pos (by omega)
  have hne' : data.drop chunkLen ≠ [] := List.ne_nil_of_length_pos (by rw [List.length_drop]; omega)
  have hdiv : data.length / chunkLen = (data.length - chunkLen) / chunkLen + 1 := by
    rw [← Nat.add_div_right _ hpos, Nat.sub_add_cancel h.le]
  have hmod : (data.length - chunkLen) % chunkLen = data.length % chunkLen := by
    rw [← Nat.mod_eq_sub_mod h.le]
  rw [map_snd_chunkify hpos hne, map_snd_chunkify hpos hne', List.length_drop, hdiv, hmod,
    List.range_succ_eq_map, List.map_cons, List.map_map, List.cons_append]
  simp only [List.drop_drop, Nat.zero_mul, List.drop_zero, Function.comp_def, Nat.succ_eq_add_one,
    Nat.add_mul, Nat.one_mul, Nat.add_comm chunkLen]

/-- The chunks: the first one holds as much as fits, and the later ones the rest in order. None of
them is empty, and all but the last are full. -/
theorem exists_chunkify (hpos : 0 < chunkLen) (data : Bytes) :
    ∃ later, (chunkify data chunkLen).map Prod.snd = data.take chunkLen :: later ∧
      later.flatten = data.drop chunkLen ∧ (∀ c ∈ later, 1 ≤ c.length ∧ c.length ≤ chunkLen) ∧
      later.length * chunkLen ≤ data.length := by
  induction hn : data.length using Nat.strong_induction_on generalizing data with
  | _ n ih =>
    rcases Nat.lt_or_ge chunkLen data.length with hlt | hle
    · obtain ⟨later, hchunks, hflatten, hlen, hcount⟩ :=
        ih (data.length - chunkLen) (by omega) (data.drop chunkLen) List.length_drop
      refine ⟨(data.drop chunkLen).take chunkLen :: later, ?_, ?_, ?_, ?_⟩
      · rw [chunkify_of_lt hpos hlt, hchunks]
      · rw [List.flatten_cons, hflatten, List.take_append_drop]
      · refine List.forall_mem_cons.2 ⟨?_, hlen⟩
        rw [List.length_take, List.length_drop]
        omega
      · rw [List.length_cons, Nat.succ_mul]
        omega
    · refine ⟨[], ?_, ?_, by simp, by simp⟩
      · rw [chunkify_of_le hle, List.take_of_length_le hle]
        rfl
      · rw [List.drop_of_length_le hle, List.flatten_nil]

/-- The first `k` chunks hold what fits into them. -/
theorem flatten_take_chunkify (hpos : 0 < chunkLen) (data : Bytes) (k : ℕ) :
    (((chunkify data chunkLen).map Prod.snd).take k).flatten = data.take (chunkLen * k) := by
  induction k generalizing data with
  | zero => rfl
  | succ k ih =>
    rcases Nat.lt_or_ge chunkLen data.length with hlt | hle
    · rw [chunkify_of_lt hpos hlt, List.take_succ_cons, List.flatten_cons, ih, Nat.mul_succ,
        Nat.add_comm, List.take_add]
    · have hall : data.length ≤ chunkLen * (k + 1) := by
        rw [Nat.mul_succ]
        omega
      rw [chunkify_of_le hle, List.take_of_length_le hall]
      simp

end Chunks

namespace CommandBuilder

/-- `serialize`, or `none` where `struct.pack` raises an error. -/
def serialize (cla ins p1 p2 : ℤ) (cdata : Bytes) : Option Bytes := do
  return (← toBytes cla 1) ++ (← toBytes ins 1) ++ (← toBytes p1 1) ++ (← toBytes p2 1) ++
    (← toBytes cdata.length 1) ++ cdata

/-- A path as it is sent: the number of components and the components. -/
def pathData (path : List Char) : Option Bytes := do
  let bip32Paths ← bip32PathFromString path
  return (← toBytes bip32Paths.length 1) ++ bip32Paths.flatten

/-- `get_version`. -/
def getVersion : Option Bytes := serialize cla Ins.getVersion 0 0 []

/-- `get_address`. -/
def getAddress (bip32Path : List Char) : Option Bytes := do
  serialize cla Ins.getAddress 0 0 (← pathData bip32Path)

/-- `get_xpub`. -/
def getXpub (bip32Path : List Char) : Option Bytes := do
  serialize cla Ins.getXpub 0 0 (← pathData bip32Path)

/-- The change information in front of a transaction. The old protocol ignores all entries but the
first. -/
def changeData (changeList : List ChangeInfo) (useOldProtocol : Bool) : Option Bytes :=
  if useOldProtocol then
    match changeList with
    | c :: _ => c.oldProtoBytes
    | [] => some [0]
  else do
    let length ← toBytes changeList.length 1
    let changes ← changeList.mapM ChangeInfo.serialize
    return [1] ++ length ++ changes.flatten

/-- The data of `sign_tx_send_data` before it is cut into chunks. -/
def signTxData (transaction : Transaction) (changeList : List ChangeInfo) (useOldProtocol : Bool) :
    Option Bytes := do
  return (← changeData changeList useOldProtocol) ++ (← transaction.serialize)

/-- `sign_tx_send_data`. -/
def signTxSendData (transaction : Transaction) (changeList : List ChangeInfo)
    (useOldProtocol : Bool) : List (Option Bytes) :=
  match signTxData transaction changeList useOldProtocol with
  | none => [none]
  | some cdata => (chunkify cdata maxApduLen).mapIdx fun i c => serialize cla Ins.signTx 0 i c.2

/-- The command for the signature of an input. The client asserts that the input has a path. -/
def signTxSignature (input : TxInput) : Option Bytes := do
  serialize cla Ins.signTx 1 0 (← pathData (← input.bip32Path))

/-- `sign_tx_signatures`. -/
def signTxSignatures (transaction : Transaction) : List (Option Bytes) :=
  transaction.inputs.map signTxSignature

/-- `sign_tx_end`. -/
def signTxEnd : Option Bytes := serialize cla Ins.signTx 2 0 []

/-- `sign_token_data`. -/
def signTokenData (token : Token) : Option Bytes := do
  serialize cla Ins.signTokenData 0 0 (← token.serialize none)

/-- `send_token_with_signature`. -/
def sendTokenWithSignature (ins : ℕ) (token : Token) (signature : Bytes) (num : ℤ) :
    Option Bytes := do
  serialize cla ins num 0 (← token.serialize (some signature))

/-- `send_token_data`. -/
def sendTokenData (token : Token) (signature : Bytes) (num : ℤ) : Option Bytes :=
  sendTokenWithSignature Ins.sendTokenData token signature num

/-- `verify_token_signature`. -/
def verifyTokenSignature (token : Token) (signature : Bytes) : Option Bytes :=
  sendTokenWithSignature Ins.verifyTokenSignature token signature 0

/-- `reset_token_signatures`. -/
def resetTokenSignatures : Option Bytes := serialize cla Ins.resetTokenSignatures 0 0 []

end CommandBuilder

/-! ### The client -/

/-- What the client raises: a `DeviceException` for an answer, or another exception of its own. -/
inductive Error
  | device (errorCode ins : ℕ)
  | python
  deriving DecidableEq

/-- The methods of the client. They send commands; an answer is a status word and data. -/
abbrev Method (α : Type) := Dialogue Bytes (ℕ × Bytes) Error α

/-- Send a command and expect the status word 0x9000. -/
def exchange (ins : ℕ) (command : Option Bytes) : Method Bytes := do
  let apdu ← Dialogue.ofOption .python command
  let (sw, response) ← Dialogue.send apdu
  if sw ≠ 0x9000 then .throw (.device sw ins) else return response

/-- `get_version`: the name and the three parts of the version. -/
def getVersion : Method (Bytes × UInt8 × UInt8 × UInt8) := do
  let response ← exchange Ins.getVersion CommandBuilder.getVersion
  match response with
  | [h, t, r, major, minor, patch] => return ([h, t, r], major, minor, patch)
  | _ => .throw .python

/-- `get_address`. -/
def getAddress (bip32Path : List Char) : Method Unit := do
  let _ ← exchange Ins.getAddress (CommandBuilder.getAddress bip32Path)

/-- `get_xpub`: the public key, the chain code and the fingerprint. -/
def getXpub (bip32Path : List Char) : Method (Bytes × Bytes × Bytes) := do
  let response ← exchange Ins.getXpub (CommandBuilder.getXpub bip32Path)
  if response.length ≠ 65 + 32 + 4 then .throw .python
  else return (response.take 65, (response.drop 65).take 32, (response.drop (65 + 32)).take 4)

/-- `sign_tx`: the signatures of the inputs. -/
def signTx (transaction : Transaction) (changeList : List ChangeInfo) (useOldProtocol : Bool) :
    Method (List Bytes) := do
  let _ ← Dialogue.each (exchange Ins.signTx)
    (CommandBuilder.signTxSendData transaction changeList useOldProtocol)
  let signatures ← Dialogue.each (exchange Ins.signTx) (CommandBuilder.signTxSignatures transaction)
  let _ ← exchange Ins.signTx CommandBuilder.signTxEnd
  return signatures

/-- `sign_token_data`: the signature. -/
def signTokenData (token : Token) : Method Bytes :=
  exchange Ins.getAddress (CommandBuilder.signTokenData token)

/-- `send_token_data`. -/
def sendTokenData (token : Token) (signature : Bytes) (num : ℤ) : Method Unit := do
  let _ ← exchange Ins.getAddress (CommandBuilder.sendTokenData token signature num)

/-- `send_token_data_list`, with one signature for each token. -/
def sendTokenDataList (tokens : List (Token × Bytes)) : Method Unit := do
  let _ ← Dialogue.each (fun p : ℕ × Token × Bytes => sendTokenData p.2.1 p.2.2 p.1)
    (tokens.mapIdx fun i p => (i, p))

/-- `verify_token_signature`. -/
def verifyTokenSignature (token : Token) (signature : Bytes) : Method Unit := do
  let _ ← exchange Ins.getAddress (CommandBuilder.verifyTokenSignature token signature)

/-- `reset_token_signatures`. -/
def resetTokenSignatures : Method Unit := do
  let _ ← exchange Ins.getAddress CommandBuilder.resetTokenSignatures

/-! ### What the client sends -/

/-- The commands that the client can build, as bytes. -/
theorem serialize_eq_some_iff {cla ins p1 p2 : ℕ} {data apdu : Bytes} :
    CommandBuilder.serialize cla ins p1 p2 data = some apdu ↔
      (cla < 256 ∧ ins < 256 ∧ p1 < 256 ∧ p2 < 256 ∧ data.length < 256) ∧
        apdu = Command.encode ⟨cla, ins, p1, p2, data⟩ := by
  simp only [CommandBuilder.serialize, Option.bind_eq_bind, Option.bind_eq_some_iff,
    toBytes_one_eq_some_iff, Option.pure_def, Option.some.injEq]
  constructor
  · rintro ⟨_, ⟨h₁, rfl⟩, _, ⟨h₂, rfl⟩, _, ⟨h₃, rfl⟩, _, ⟨h₄, rfl⟩, _, ⟨h₅, rfl⟩, rfl⟩
    exact ⟨⟨h₁, h₂, h₃, h₄, h₅⟩, rfl⟩
  · rintro ⟨⟨h₁, h₂, h₃, h₄, h₅⟩, rfl⟩
    exact ⟨_, ⟨h₁, rfl⟩, _, ⟨h₂, rfl⟩, _, ⟨h₃, rfl⟩, _, ⟨h₄, rfl⟩, _, ⟨h₅, rfl⟩, rfl⟩

/-- A serialised list consists of the serialised elements. -/
theorem forall₂_of_mapM {α β : Type} {f : α → Option β} {as : List α} {bs : List β}
    (h : as.mapM f = some bs) : List.Forall₂ (fun a b => f a = some b) as bs := by
  induction as generalizing bs with
  | nil =>
    cases h
    exact .nil
  | cons a as ih =>
    simp only [List.mapM_cons, Option.bind_eq_bind, Option.bind_eq_some_iff, Option.pure_def,
      Option.some.injEq] at h
    obtain ⟨b, hb, bs, hbs, rfl⟩ := h
    exact .cons hb (ih hbs)

/-- A component takes four bytes. -/
theorem length_of_componentFromString {text : List Char} {part : Bytes}
    (h : componentFromString text = some part) : part.length = 4 := by
  unfold componentFromString at h
  split_ifs at h
  · split at h
    · exact (toBytes_eq_some_iff.1 h).1
    · cases h
  · obtain ⟨n, -, hn⟩ := Option.bind_eq_some_iff.1 h
    exact (toBytes_eq_some_iff.1 hn).1

/-- The bytes of a path that the client reads. -/
theorem exists_components {path : List Char} {parts : List Bytes}
    (h : bip32PathFromString path = some parts) :
    ∃ components : List ℕ, (∀ c ∈ components, c < 2 ^ 32) ∧ parts = components.map (beBytes 4) := by
  have hlen : ∀ part ∈ parts, part.length = 4 := by
    intro part hpart
    obtain ⟨i, hi, rfl⟩ := List.getElem_of_mem hpart
    have hparts := forall₂_of_mapM h
    exact length_of_componentFromString (hparts.get (by rwa [hparts.length_eq]) hi)
  refine ⟨parts.map beValue, ?_, ?_⟩
  · intro c hc
    obtain ⟨part, hpart, rfl⟩ := List.mem_map.1 hc
    have hlt := beValue_lt part
    rw [hlen part hpart] at hlt
    exact hlt
  · rw [List.map_map]
    refine (List.map_id parts).symm.trans (List.map_congr_left fun part hpart => ?_)
    change part = beBytes 4 (beValue part)
    rw [← hlen part hpart, beBytes_beValue]

theorem exists_of_pathData {path : List Char} {data : Bytes}
    (h : CommandBuilder.pathData path = some data) :
    ∃ components : List ℕ, (∀ c ∈ components, c < 2 ^ 32) ∧
      bip32PathFromString path = some (components.map (beBytes 4)) ∧
      data = UInt8.ofNat components.length :: components.flatMap (beBytes 4) := by
  simp only [CommandBuilder.pathData, Option.bind_eq_bind, Option.bind_eq_some_iff,
    Option.pure_def, Option.some.injEq, toBytes_one_eq_some_iff] at h
  obtain ⟨parts, hparts, _, ⟨-, rfl⟩, rfl⟩ := h
  obtain ⟨components, hlt, rfl⟩ := exists_components hparts
  exact ⟨components, hlt, hparts, by simp [List.flatMap_def]⟩

/-- A path that the device can hold is sent in its serialised form. -/
theorem pathData_eq_some {path : List Char} {p : WirePath}
    (h : bip32PathFromString path = some (p.components.map (beBytes 4))) :
    CommandBuilder.pathData path = some p.bytes := by
  have hcount : toBytes (p.components.length : ℤ) 1 = some [UInt8.ofNat p.components.length] := by
    refine toBytes_one_eq_some_iff.2 ⟨?_, rfl⟩
    rw [← p.toNat_length]
    exact UInt8.toNat_lt _
  rw [CommandBuilder.pathData, h]
  simp [hcount, WirePath.bytes, List.flatMap_def]

/-- A command that is answered with `SW_OK`. -/
theorem runs_exchange_ok_iff {σ : Type} {serve : σ → Bytes → ℕ × Bytes → σ → Prop} {ins : ℕ}
    {command : Option Bytes} {response : Bytes} {s s' : σ} :
    Runs serve (exchange ins command) s (.ok response) s' ↔
      ∃ apdu, command = some apdu ∧ serve s apdu (Sw.ok, response) s' := by
  simp only [exchange, runs_bind_ok_iff, runs_ofOption_ok_iff, Dialogue.runs_send_ok_iff]
  constructor
  · rintro ⟨apdu, _, ⟨hcommand, rfl⟩, ⟨sw, data⟩, s₁, hserve, hnext⟩
    dsimp only at hnext
    split_ifs at hnext with hsw
    · exact absurd (Dialogue.runs_throw_iff.1 hnext).1 nofun
    · obtain ⟨hdata, rfl⟩ := runs_pure_iff.1 hnext
      rw [Except.ok.injEq] at hdata
      subst hdata
      exact ⟨apdu, hcommand, by rwa [not_not.1 hsw] at hserve⟩
  · rintro ⟨apdu, hcommand, hserve⟩
    exact ⟨apdu, s, ⟨hcommand, rfl⟩, (Sw.ok, response), s', hserve,
      runs_pure_iff.2 ⟨rfl, rfl⟩⟩

/-- A command with data that is answered with `SW_OK`. -/
theorem runs_dataCommand_iff {σ : Type} {serve : σ → Bytes → ℕ × Bytes → σ → Prop}
    {error ins : ℕ} (p1 : ℕ) {cdata : Option Bytes} {response : Bytes} {s s' : σ}
    (hins : ins < 256) :
    Runs serve (exchange error (do CommandBuilder.serialize cla ins p1 0 (← cdata))) s
        (.ok response) s' ↔
      p1 < 256 ∧ ∃ data, cdata = some data ∧ data.length ≤ 255 ∧
        serve s (Command.encode ⟨cla, ins, p1, 0, data⟩) (Sw.ok, response) s' := by
  have hcla : cla < 256 := by decide
  rw [runs_exchange_ok_iff]
  constructor
  · rintro ⟨apdu, hcommand, hserve⟩
    obtain ⟨data, hdata, hserialize⟩ := Option.bind_eq_some_iff.1 hcommand
    obtain ⟨⟨-, -, hp1, -, hlen⟩, rfl⟩ := (@serialize_eq_some_iff cla ins p1 0 data apdu).1 hserialize
    exact ⟨hp1, data, hdata, Nat.le_of_lt_succ hlen, hserve⟩
  · rintro ⟨hp1, data, hdata, hlen, hserve⟩
    refine ⟨_, Option.bind_eq_some_iff.2 ⟨data, hdata, ?_⟩, hserve⟩
    exact (@serialize_eq_some_iff cla ins p1 0 data _).2
      ⟨⟨hcla, hins, hp1, by decide, Nat.lt_succ_of_le hlen⟩, rfl⟩

end HathorLedger.Client
