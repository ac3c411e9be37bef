import EtherVal.Lib.Rlp
import EtherVal.Rr03.Rlp

/-!
# The three record formats (`rr03/research/substate_rlp.go`)

Records from before Berlin have neither access list nor caps, records from between Berlin and London
have no caps; neither has a base fee.  A record does not say which format it has: the readers try
the three decoders from the newest to the oldest.
-/

namespace EtherVal.Rr03
open EtherVal.Lib EtherVal.Lib.Rlp EtherVal.Research

structure LegacySubstateEnvRLP where
  coinbase : Address
  difficulty : Int
  gasLimit : Nat
  number : Nat
  timestamp : Nat
  blockHashes : List (Word × Word)

structure LegacySubstateMessageRLP where
  nonce : Nat
  checkNonce : Bool
  gasPrice : Int
  gas : Nat
  sender : Address
  toAddr : Option Address
  value : Int
  data : Bytes
  initCodeHash : Option Word

structure BerlinSubstateMessageRLP where
  nonce : Nat
  checkNonce : Bool
  gasPrice : Int
  gas : Nat
  sender : Address
  toAddr : Option Address
  value : Int
  data : Bytes
  initCodeHash : Option Word
  accessList : AccessList

structure LegacySubstateRLP where
  inputAlloc : SubstateAllocRLP
  outputAlloc : SubstateAllocRLP
  env : LegacySubstateEnvRLP
  message : LegacySubstateMessageRLP
  result : SubstateResult

structure BerlinSubstateRLP where
  inputAlloc : SubstateAllocRLP
  outputAlloc : SubstateAllocRLP
  env : LegacySubstateEnvRLP
  message : BerlinSubstateMessageRLP
  result : SubstateResult

def SubstateEnvRLP.setLegacyRLP (lenvRLP : LegacySubstateEnvRLP) : SubstateEnvRLP where
  coinbase := lenvRLP.coinbase
  difficulty := lenvRLP.difficulty
  gasLimit := lenvRLP.gasLimit
  number := lenvRLP.number
  timestamp := lenvRLP.timestamp
  blockHashes := lenvRLP.blockHashes
  baseFee := none

def SubstateMessageRLP.setLegacyRLP (lmsgRLP : LegacySubstateMessageRLP) : SubstateMessageRLP where
  nonce := lmsgRLP.nonce
  checkNonce := lmsgRLP.checkNonce
  gasPrice := lmsgRLP.gasPrice
  gas := lmsgRLP.gas
  sender := lmsgRLP.sender
  toAddr := lmsgRLP.toAddr
  value := lmsgRLP.value
  data := lmsgRLP.data
  initCodeHash := lmsgRLP.initCodeHash
  accessList := []
  gasFeeCap := lmsgRLP.gasPrice
  gasTipCap := lmsgRLP.gasPrice

def SubstateMessageRLP.setBerlinRLP (bmsgRLP : BerlinSubstateMessageRLP) : SubstateMessageRLP where
  nonce := bmsgRLP.nonce
  checkNonce := bmsgRLP.checkNonce
  gasPrice := bmsgRLP.gasPrice
  gas := bmsgRLP.gas
  sender := bmsgRLP.sender
  toAddr := bmsgRLP.toAddr
  value := bmsgRLP.value
  data := bmsgRLP.data
  initCodeHash := bmsgRLP.initCodeHash
  -- `msgRLP.AccessList = nil`, although the Berlin message has one
  accessList := []
  gasFeeCap := bmsgRLP.gasPrice
  gasTipCap := bmsgRLP.gasPrice

def SubstateRLP.setLegacyRLP (lsubstateRLP : LegacySubstateRLP) : SubstateRLP where
  inputAlloc := lsubstateRLP.inputAlloc
  outputAlloc := lsubstateRLP.outputAlloc
  env := .setLegacyRLP lsubstateRLP.env
  message := .setLegacyRLP lsubstateRLP.message
  result := lsubstateRLP.result

def SubstateRLP.setBerlinRLP (bsubstateRLP : BerlinSubstateRLP) : SubstateRLP where
  inputAlloc := bsubstateRLP.inputAlloc
  outputAlloc := bsubstateRLP.outputAlloc
  env := .setLegacyRLP bsubstateRLP.env
  message := .setBerlinRLP bsubstateRLP.message
  result := bsubstateRLP.result

def addressRLP : Codec Address := .fixed 20

def hashRLP : Codec Word := .fixed 32

def hashPairRLP : Codec (Word × Word) := .struct ((Fields.one hashRLP).and (.one hashRLP))

def accountRLP : Codec SubstateAccountRLP := .struct <|
  ((Fields.one .uint64).and <| (Fields.one .big).and <| (Fields.one hashRLP).and <|
    .one (.listOf hashPairRLP)).record
    (fun (nonce, balance, codeHash, storage) => ⟨nonce, balance, codeHash, storage⟩)
    (fun r => (r.nonce, r.balance, r.codeHash, r.storage)) (fun _ => rfl)

def allocRLP : Codec SubstateAllocRLP := .struct <|
  ((Fields.one (.listOf addressRLP)).and <| .one (.listOf accountRLP)).record
    (fun (addresses, accounts) => ⟨addresses, accounts⟩)
    (fun r => (r.addresses, r.accounts)) (fun _ => rfl)

def envFields : Fields LegacySubstateEnvRLP :=
  ((Fields.one addressRLP).and <| (Fields.one .big).and <| (Fields.one .uint64).and <|
    (Fields.one .uint64).and <| (Fields.one .uint64).and <| .one (.listOf hashPairRLP)).record
    (fun (coinbase, difficulty, gasLimit, number, timestamp, blockHashes) =>
      ⟨coinbase, difficulty, gasLimit, number, timestamp, blockHashes⟩)
    (fun r => (r.coinbase, r.difficulty, r.gasLimit, r.number, r.timestamp, r.blockHashes))
    (fun _ => rfl)

def londonEnvFields : Fields SubstateEnvRLP :=
  (envFields.and <| .one (.nilPtr hashRLP)).record
    (fun (e, baseFee) =>
      ⟨e.coinbase, e.difficulty, e.gasLimit, e.number, e.timestamp, e.blockHashes, baseFee⟩)
    (fun r => (⟨r.coinbase, r.difficulty, r.gasLimit, r.number, r.timestamp, r.blockHashes⟩,
      r.baseFee))
    (fun _ => rfl)

def accessListRLP : Codec AccessList :=
  .listOf <| .struct <| ((Fields.one addressRLP).and (.one (.listOf hashRLP))).record
    (fun (address, storageKeys) => ⟨address, storageKeys⟩)
    (fun t => (t.address, t.storageKeys)) (fun _ => rfl)

def messageFields : Fields LegacySubstateMessageRLP :=
  ((Fields.one .uint64).and <| (Fields.one .bool).and <| (Fields.one .big).and <|
    (Fields.one .uint64).and <| (Fields.one addressRLP).and <|
    (Fields.one (.nilPtr addressRLP)).and <|
    (Fields.one .big).and <| (Fields.one .bytes).and <| .one (.nilPtr hashRLP)).record
    (fun (nonce, checkNonce, gasPrice, gas, sender, toAddr, value, data, initCodeHash) =>
      ⟨nonce, checkNonce, gasPrice, gas, sender, toAddr, value, data, initCodeHash⟩)
    (fun r => (r.nonce, r.checkNonce, r.gasPrice, r.gas, r.sender, r.toAddr, r.value, r.data,
      r.initCodeHash))
    (fun _ => rfl)

def berlinMessageFields : Fields BerlinSubstateMessageRLP :=
  (messageFields.and <| .one accessListRLP).record
    (fun (m, accessList) => ⟨m.nonce, m.checkNonce, m.gasPrice, m.gas, m.sender, m.toAddr, m.value,
      m.data, m.initCodeHash, accessList⟩)
    (fun r => (⟨r.nonce, r.checkNonce, r.gasPrice, r.gas, r.sender, r.toAddr, r.value, r.data,
      r.initCodeHash⟩, r.accessList))
    (fun _ => rfl)

def londonMessageFields : Fields SubstateMessageRLP :=
  (berlinMessageFields.and <| (Fields.one .big).and <| .one .big).record
    (fun (m, gasFeeCap, gasTipCap) => ⟨m.nonce, m.checkNonce, m.gasPrice, m.gas, m.sender, m.toAddr,
      m.value, m.data, m.initCodeHash, m.accessList, gasFeeCap, gasTipCap⟩)
    (fun r => (⟨r.nonce, r.checkNonce, r.gasPrice, r.gas, r.sender, r.toAddr, r.value, r.data,
      r.initCodeHash, r.accessList⟩, r.gasFeeCap, r.gasTipCap))
    (fun _ => rfl)

def logRLP : Codec ConsensusLog := .struct <|
  ((Fields.one addressRLP).and <| (Fields.one (.listOf hashRLP)).and <| .one .bytes).record
    (fun (address, topics, data) => ⟨address, topics, data⟩)
    (fun r => (r.address, r.topics, r.data)) (fun _ => rfl)

def resultRLP : Codec SubstateResult := .struct <|
  ((Fields.one .uint64).and <| (Fields.one (.sized 256)).and <| (Fields.one (.listOf logRLP)).and <|
    (Fields.one addressRLP).and <| .one .uint64).record
    (fun (status, bloom, logs, contractAddress, gasUsed) =>
      ⟨status, bloom, logs, contractAddress, gasUsed⟩)
    (fun r => (r.status, r.bloom, r.logs, r.contractAddress, r.gasUsed)) (fun _ => rfl)

def substateFields {ε μ : Type} (env : Fields ε) (message : Fields μ) :
    Fields (SubstateAllocRLP × SubstateAllocRLP × ε × μ × SubstateResult) :=
  (Fields.one allocRLP).and <| (Fields.one allocRLP).and <| (Fields.one (.struct env)).and <|
    (Fields.one (.struct message)).and <| .one resultRLP

def legacySubstateRLP : Codec LegacySubstateRLP := .struct <|
  (substateFields envFields messageFields).record
    (fun (inputAlloc, outputAlloc, env, message, result) =>
      ⟨inputAlloc, outputAlloc, env, message, result⟩)
    (fun r => (r.inputAlloc, r.outputAlloc, r.env, r.message, r.result)) (fun _ => rfl)

def berlinSubstateRLP : Codec BerlinSubstateRLP := .struct <|
  (substateFields envFields berlinMessageFields).record
    (fun (inputAlloc, outputAlloc, env, message, result) =>
      ⟨inputAlloc, outputAlloc, env, message, result⟩)
    (fun r => (r.inputAlloc, r.outputAlloc, r.env, r.message, r.result)) (fun _ => rfl)

def substateRLP : Codec SubstateRLP := .struct <|
  (substateFields londonEnvFields londonMessageFields).record
    (fun (inputAlloc, outputAlloc, env, message, result) =>
      ⟨inputAlloc, outputAlloc, env, message, result⟩)
    (fun r => (r.inputAlloc, r.outputAlloc, r.env, r.message, r.result)) (fun _ => rfl)

inductive StoredRLP where
  | legacy (r : LegacySubstateRLP)
  | berlin (r : BerlinSubstateRLP)
  | london (r : SubstateRLP)

def StoredRLP.item : StoredRLP → Item
  | .legacy r => legacySubstateRLP.enc r
  | .berlin r => berlinSubstateRLP.enc r
  | .london r => substateRLP.enc r

def StoredRLP.Valid : StoredRLP → Prop
  | .legacy r => legacySubstateRLP.Valid r
  | .berlin r => berlinSubstateRLP.Valid r
  | .london r => substateRLP.Valid r

def StoredRLP.toRLP : StoredRLP → SubstateRLP
  | .legacy r => .setLegacyRLP r
  | .berlin r => .setBerlinRLP r
  | .london r => r

def decodeStored (item : Item) : Option StoredRLP :=
  match substateRLP.dec item with
  | some r => some (.london r)
  | none =>
    match berlinSubstateRLP.dec item with
    | some r => some (.berlin r)
    | none => (legacySubstateRLP.dec item).map .legacy

section apart
variable {ε ε' μ μ' : Type} {env : Fields ε} {env' : Fields ε'} {message : Fields μ}
  {message' : Fields μ'}

theorem substateFields_apart_env (h : env.arity ≠ env'.arity)
    (p : SubstateAllocRLP × SubstateAllocRLP × ε × μ × SubstateResult) :
    (substateFields env' message').dec ((substateFields env message).enc p) = none := by
  apply Fields.one_and_dec_tail
  apply Fields.one_and_dec_tail
  apply Fields.one_and_dec_head
  exact Codec.struct_apart h p.2.2.1

theorem substateFields_apart_message (h : message.arity ≠ message'.arity)
    (p : SubstateAllocRLP × SubstateAllocRLP × ε × μ × SubstateResult) :
    (substateFields env' message').dec ((substateFields env message).enc p) = none := by
  apply Fields.one_and_dec_tail
  apply Fields.one_and_dec_tail
  apply Fields.one_and_dec_tail
  apply Fields.one_and_dec_head
  exact Codec.struct_apart h p.2.2.2.1

end apart

theorem substateRLP_dec_berlin (r : BerlinSubstateRLP) :
    substateRLP.dec (berlinSubstateRLP.enc r) = none := by
  apply Codec.struct_dec_eq_none
  rw [Fields.record, Option.map_eq_none_iff]
  exact substateFields_apart_env (by decide) _

theorem substateRLP_dec_legacy (r : LegacySubstateRLP) :
    substateRLP.dec (legacySubstateRLP.enc r) = none := by
  apply Codec.struct_dec_eq_none
  rw [Fields.record, Option.map_eq_none_iff]
  exact substateFields_apart_env (by decide) _

theorem berlinSubstateRLP_dec_legacy (r : LegacySubstateRLP) :
    berlinSubstateRLP.dec (legacySubstateRLP.enc r) = none := by
  apply Codec.struct_dec_eq_none
  rw [Fields.record, Option.map_eq_none_iff]
  exact substateFields_apart_message (by decide) _

theorem decodeStored_item {s : StoredRLP} (h : s.Valid) : decodeStored s.item = some s := by
  cases s with
  | london r =>
    simp only [decodeStored, StoredRLP.item, substateRLP.dec_enc r h]
  | berlin r =>
    simp only [decodeStored, StoredRLP.item, substateRLP_dec_berlin, berlinSubstateRLP.dec_enc r h]
  | legacy r =>
    simp only [decodeStored, StoredRLP.item, substateRLP_dec_legacy, berlinSubstateRLP_dec_legacy,
      legacySubstateRLP.dec_enc r h, Option.map_some]

end EtherVal.Rr03
