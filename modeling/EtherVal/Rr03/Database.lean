import EtherVal.Rr03.Formats

/-!
# Reading the old database (`rr03/research/substate_db.go`)

The backend is a map from keys to values, walked in key order.  `rlpItem` splits a value into RLP
items and `keccak` hashes code; both are parameters.
-/

namespace EtherVal.Rr03
open EtherVal.Lib EtherVal.Lib.Rlp EtherVal.Research List

variable {block : BitVec 64}

abbrev Backend := GoMap Bytes Bytes

inductive KeyError where
  | length (n : Nat)
  | start (b : Bytes)

inductive DBPanic where
  | gettingSubstate (block tx : BitVec 64)
  | decodingSubstate (block tx : BitVec 64)
  | gettingCode (codeHash : Word)
  | invalidKey (block : BitVec 64) (err : KeyError)
  | otherBlock (block b : BitVec 64)
  | go (p : GoPanic)

def stage1SubstateStart : Bytes := [0x31, 0x73]

def stage1SubstateKey (block tx : BitVec 64) : Bytes :=
  stage1SubstateStart ++ (beBytes 8 block.toNat ++ beBytes 8 tx.toNat)

def decodeStage1SubstateKey (key : Bytes) : Except KeyError (BitVec 64 × BitVec 64) :=
  if key.length ≠ 2 + 8 + 8 then .error (.length key.length)
  else if key.take 2 ≠ stage1SubstateStart then .error (.start (key.take 2))
  else
    let blockTx := key.drop 2
    .ok (BitVec.ofNat 64 (beVal (blockTx.take 8)), BitVec.ofNat 64 (beVal (blockTx.drop 8)))

def stage1SubstateBlockStart (block : BitVec 64) : Bytes :=
  stage1SubstateStart ++ beBytes 8 block.toNat

def stage1CodeKey (codeHash : Word) : Bytes := [0x31, 0x63] ++ beBytes 32 codeHash.toNat

section read
variable (keccak : Bytes → Word) (rlpItem : Bytes → Option Item) (db : Backend)

def getCode (codeHash : Word) : Except DBPanic Bytes :=
  if codeHash = keccak [] then .ok []
  else
    match db[stage1CodeKey codeHash]? with
    | some code => .ok code
    | none => .error (.gettingCode codeHash)

def SubstateAccount.setRLP (saRLP : SubstateAccountRLP) : Except DBPanic SubstateAccount := do
  let code ← getCode keccak db saRLP.codeHash
  return { nonce := saRLP.nonce, balance := saRLP.balance, code,
           storage := saRLP.storage.foldl (fun m e => m.insert e.1 e.2) ∅ }

/-- The loop over `Addresses`; `Accounts[i]` is out of range if there are too few accounts. -/
def setAllocRLP : SubstateAlloc → List Address → List SubstateAccountRLP →
    Except DBPanic SubstateAlloc
  | alloc, [], _ => .ok alloc
  | _, _ :: _, [] => .error (.go .indexOutOfRange)
  | alloc, addr :: addrs, saRLP :: accounts => do
    let sa ← SubstateAccount.setRLP keccak db saRLP
    setAllocRLP (alloc.insert addr sa) addrs accounts

def SubstateEnv.setRLP (envRLP : SubstateEnvRLP) : SubstateEnv where
  coinbase := envRLP.coinbase
  difficulty := envRLP.difficulty
  gasLimit := envRLP.gasLimit
  number := envRLP.number
  timestamp := envRLP.timestamp
  blockHashes := envRLP.blockHashes.foldl (fun m pair => m.insert (pair.1.setWidth 64) pair.2) ∅
  baseFee := envRLP.baseFee.map fun h => (h.toNat : Int)

def messageData (msgRLP : SubstateMessageRLP) : Except DBPanic Bytes :=
  match msgRLP.toAddr, msgRLP.initCodeHash with
  | some _, _ => .ok msgRLP.data
  | none, none => .error (.go .nilDereference)
  | none, some h => getCode keccak db h

def SubstateMessage.setRLP (msgRLP : SubstateMessageRLP) : Except DBPanic SubstateMessage := do
  let data ← messageData keccak db msgRLP
  return { nonce := msgRLP.nonce, checkNonce := msgRLP.checkNonce, gasPrice := msgRLP.gasPrice,
           gas := msgRLP.gas, sender := msgRLP.sender, toAddr := msgRLP.toAddr,
           value := msgRLP.value, data, dataHash := none, accessList := msgRLP.accessList,
           gasFeeCap := msgRLP.gasFeeCap, gasTipCap := msgRLP.gasTipCap }

def Substate.setRLP (r : SubstateRLP) : Except DBPanic Substate := do
  let inputAlloc ← setAllocRLP keccak db ∅ r.inputAlloc.addresses r.inputAlloc.accounts
  let outputAlloc ← setAllocRLP keccak db ∅ r.outputAlloc.addresses r.outputAlloc.accounts
  let message ← SubstateMessage.setRLP keccak db r.message
  return { inputAlloc, outputAlloc, env := .setRLP r.env, message, result := r.result }

def readSubstate (block tx : BitVec 64) (value : Bytes) : Except DBPanic Substate :=
  match (rlpItem value).bind decodeStored with
  | some s => Substate.setRLP keccak db s.toRLP
  | none => .error (.decodingSubstate block tx)

def getSubstate (block tx : BitVec 64) : Except DBPanic Substate :=
  match db[stage1SubstateKey block tx]? with
  | some value => readSubstate keccak rlpItem db block tx value
  | none => .error (.gettingSubstate block tx)

def blockStep (block : BitVec 64) (txSubstate : GoMap (BitVec 64) Substate) (e : Bytes × Bytes) :
    Except DBPanic (GoMap (BitVec 64) Substate) :=
  match decodeStage1SubstateKey e.1 with
  | .error err => .error (.invalidKey block err)
  | .ok (b, tx) =>
    if block ≠ b then .error (.otherBlock block b)
    else do
      let substate ← readSubstate keccak rlpItem db block tx e.2
      return txSubstate.insert tx substate

def getBlockSubstates (block : BitVec 64) : Except DBPanic (GoMap (BitVec 64) Substate) :=
  (db.toList.filter fun e => (stage1SubstateBlockStart block).isPrefixOf e.1).foldlM
    (blockStep keccak rlpItem db block) ∅

end read

theorem stage1SubstateKey_length (block tx : BitVec 64) :
    (stage1SubstateKey block tx).length = 18 := by
  simp [stage1SubstateKey, stage1SubstateStart]

theorem ofNat_beVal_beBytes (x : BitVec 64) : BitVec.ofNat 64 (beVal (beBytes 8 x.toNat)) = x := by
  have hlt : x.toNat < 256 ^ 8 := by
    have h := x.isLt
    norm_num at h ⊢
    exact h
  rw [beVal_beBytes hlt, BitVec.ofNat_toNat, BitVec.setWidth_eq]

theorem decodeStage1SubstateKey_key (block tx : BitVec 64) :
    decodeStage1SubstateKey (stage1SubstateKey block tx) = .ok (block, tx) := by
  have htake : (stage1SubstateKey block tx).take 2 = stage1SubstateStart := rfl
  have hdrop : (stage1SubstateKey block tx).drop 2 =
      beBytes 8 block.toNat ++ beBytes 8 tx.toNat := rfl
  have hblock := beBytes_length 8 block.toNat
  simp only [decodeStage1SubstateKey, stage1SubstateKey_length, htake, hdrop, ne_eq,
    not_true_eq_false,
    if_false]
  rw [take_append_of_le_length (by omega), take_of_length_le (by omega),
    drop_append_of_le_length (by omega), drop_of_length_le (by omega), nil_append,
    ofNat_beVal_beBytes, ofNat_beVal_beBytes]

theorem blockStart_isPrefixOf (block tx : BitVec 64) :
    (stage1SubstateBlockStart block).isPrefixOf (stage1SubstateKey block tx) = true := by
  refine isPrefixOf_iff_prefix.mpr ?_
  rw [stage1SubstateKey, ← append_assoc]
  exact prefix_append _ _

section
variable {keccak : Bytes → Word} {rlpItem : Bytes → Option Item} {db : Backend}

def HasCode (keccak : Bytes → Word) (db : Backend) (codeHash : Word) : Prop :=
  codeHash = keccak [] ∨ ∃ code, db[stage1CodeKey codeHash]? = some code

theorem HasCode.getCode {codeHash : Word} (h : HasCode keccak db codeHash) :
    ∃ code, getCode keccak db codeHash = .ok code := by
  by_cases hempty : codeHash = keccak []
  · exact ⟨[], by simp only [Rr03.getCode, hempty, if_true]⟩
  · obtain ⟨code, hcode⟩ := h.resolve_left hempty
    exact ⟨code, by simp only [Rr03.getCode, hempty, if_false, hcode]⟩

structure SubstateAllocRLP.Complete (keccak : Bytes → Word) (db : Backend) (r : SubstateAllocRLP) :
    Prop where
  accounts : r.addresses.length ≤ r.accounts.length
  code : ∀ sa ∈ r.accounts, HasCode keccak db sa.codeHash

structure SubstateRLP.Complete (keccak : Bytes → Word) (db : Backend) (r : SubstateRLP) : Prop where
  inputAlloc : r.inputAlloc.Complete keccak db
  outputAlloc : r.outputAlloc.Complete keccak db
  initCode : r.message.toAddr = none → ∃ h, r.message.initCodeHash = some h ∧ HasCode keccak db h

theorem setAllocRLP_ok (alloc : SubstateAlloc) {addrs : List Address}
    {accounts : List SubstateAccountRLP} (hlen : addrs.length ≤ accounts.length)
    (hcode : ∀ sa ∈ accounts, HasCode keccak db sa.codeHash) :
    ∃ alloc', setAllocRLP keccak db alloc addrs accounts = .ok alloc' := by
  induction addrs generalizing alloc accounts with
  | nil => exact ⟨alloc, by simp only [setAllocRLP]⟩
  | cons addr addrs ih =>
    cases accounts with
    | nil => simp at hlen
    | cons saRLP accounts =>
      obtain ⟨code, hget⟩ := (hcode saRLP mem_cons_self).getCode
      simp only [setAllocRLP, SubstateAccount.setRLP, hget]
      apply ih
      · simpa using hlen
      · intro sa hsa
        exact hcode sa (mem_cons_of_mem saRLP hsa)

theorem messageData_ok {msgRLP : SubstateMessageRLP}
    (h : msgRLP.toAddr = none → ∃ h, msgRLP.initCodeHash = some h ∧ HasCode keccak db h) :
    ∃ data, messageData keccak db msgRLP = .ok data := by
  cases hto : msgRLP.toAddr with
  | some addr => exact ⟨msgRLP.data, by simp only [messageData, hto]⟩
  | none =>
    obtain ⟨hash, hinit, hcode⟩ := h hto
    obtain ⟨code, hget⟩ := hcode.getCode
    exact ⟨code, by simp only [messageData, hto, hinit, hget]⟩

theorem Substate.setRLP_ok {r : SubstateRLP} (h : r.Complete keccak db) :
    ∃ substate, Substate.setRLP keccak db r = .ok substate ∧
      SubstateMessage.setRLP keccak db r.message = .ok substate.message := by
  obtain ⟨inputAlloc, hin⟩ := setAllocRLP_ok ∅ h.inputAlloc.accounts h.inputAlloc.code
  obtain ⟨outputAlloc, hout⟩ := setAllocRLP_ok ∅ h.outputAlloc.accounts h.outputAlloc.code
  obtain ⟨data, hdata⟩ := messageData_ok h.initCode
  simp only [Substate.setRLP, SubstateMessage.setRLP, hin, hout, hdata]
  exact ⟨_, rfl, rfl⟩

theorem stage1SubstateKey_inj {tx tx' : BitVec 64}
    (h : stage1SubstateKey block tx = stage1SubstateKey block tx') : tx = tx' := by
  have hdec := decodeStage1SubstateKey_key block tx
  rw [h, decodeStage1SubstateKey_key] at hdec
  exact (Prod.mk.inj (Except.ok.inj hdec)).2.symm

theorem blockStep_key {tx : BitVec 64} {value : Bytes} {substate : Substate}
    (h : readSubstate keccak rlpItem db block tx value = .ok substate)
    (txSubstate : GoMap (BitVec 64) Substate) :
    blockStep keccak rlpItem db block txSubstate (stage1SubstateKey block tx, value) =
      .ok (txSubstate.insert tx substate) := by
  simp only [blockStep, decodeStage1SubstateKey_key, ne_eq, not_true_eq_false, if_false, h]
  rfl

theorem foldlM_blockStep {entries : List (Bytes × Bytes)} (hnodup : (entries.map Prod.fst).Nodup)
    (hread : ∀ e ∈ entries, ∃ tx substate, e.1 = stage1SubstateKey block tx ∧
      readSubstate keccak rlpItem db block tx e.2 = .ok substate)
    (txSubstate : GoMap (BitVec 64) Substate) :
    ∃ m, entries.foldlM (blockStep keccak rlpItem db block) txSubstate = .ok m ∧
      (∀ tx value substate, (stage1SubstateKey block tx, value) ∈ entries →
        readSubstate keccak rlpItem db block tx value = .ok substate → m[tx]? = some substate) ∧
      ∀ tx, stage1SubstateKey block tx ∉ entries.map Prod.fst → m[tx]? = txSubstate[tx]? := by
  induction entries generalizing txSubstate with
  | nil =>
    refine ⟨txSubstate, rfl, ?_, fun _ _ => rfl⟩
    intro tx value substate hmem
    cases hmem
  | cons e entries ih =>
    obtain ⟨key, value⟩ := e
    obtain ⟨tx, substate, hkey, hsub⟩ := hread _ mem_cons_self
    dsimp only at hkey hsub
    subst hkey
    rw [map_cons, nodup_cons] at hnodup
    obtain ⟨m, hrun, hmem, hother⟩ := ih hnodup.2
      (fun e he => hread e (mem_cons_of_mem _ he)) (txSubstate.insert tx substate)
    refine ⟨m, ?_, ?_, ?_⟩
    · rw [foldlM_cons, blockStep_key hsub]
      exact hrun
    · intro tx' value' substate' hin hsub'
      rcases mem_cons.mp hin with heq | hin
      · -- the entry at the head: no later one has its key
        obtain ⟨hkey, rfl⟩ := Prod.mk.inj heq
        obtain rfl := stage1SubstateKey_inj hkey
        rw [hsub] at hsub'
        rw [hother tx' hnodup.1, GoMap.get_insert, if_pos rfl, Except.ok.inj hsub']
      · exact hmem tx' value' substate' hin hsub'
    · intro tx' hnotin
      rw [map_cons, mem_cons, not_or] at hnotin
      have hne : tx ≠ tx' := fun h => hnotin.1 (by rw [h])
      rw [hother tx' hnotin.2, GoMap.get_insert, if_neg hne]

structure StoredAt (keccak : Bytes → Word) (rlpItem : Bytes → Option Item) (db : Backend)
    (value : Bytes) (s : StoredRLP) : Prop where
  item : rlpItem value = some s.item
  valid : s.Valid
  complete : s.toRLP.Complete keccak db

theorem StoredAt.read {value : Bytes} {s : StoredRLP} (h : StoredAt keccak rlpItem db value s)
    (block tx : BitVec 64) :
    ∃ substate, readSubstate keccak rlpItem db block tx value = .ok substate ∧
      SubstateMessage.setRLP keccak db s.toRLP.message = .ok substate.message := by
  obtain ⟨substate, hset, hmessage⟩ := Substate.setRLP_ok h.complete
  refine ⟨substate, ?_, hmessage⟩
  simp only [readSubstate, h.item, Option.bind_some, decodeStored_item h.valid, hset]

/-- Every entry under the keys of the block is a stored record, as `PutSubstate` leaves it. -/
def BlockStored (keccak : Bytes → Word) (rlpItem : Bytes → Option Item) (db : Backend)
    (block : BitVec 64) : Prop :=
  ∀ key value, db[key]? = some value → (stage1SubstateBlockStart block).isPrefixOf key = true →
    ∃ tx s, key = stage1SubstateKey block tx ∧ StoredAt keccak rlpItem db value s

theorem getBlockSubstates_stored (h : BlockStored keccak rlpItem db block) :
    ∃ m, getBlockSubstates keccak rlpItem db block = .ok m ∧
      ∀ tx value substate, db[stage1SubstateKey block tx]? = some value →
        readSubstate keccak rlpItem db block tx value = .ok substate → m[tx]? = some substate := by
  have hnodup : ((db.toList.filter fun e =>
      (stage1SubstateBlockStart block).isPrefixOf e.1).map Prod.fst).Nodup :=
    (GoMap.toList_keys_nodup db).sublist (filter_sublist.map Prod.fst)
  have hread : ∀ e ∈ db.toList.filter fun e => (stage1SubstateBlockStart block).isPrefixOf e.1,
      ∃ tx substate, e.1 = stage1SubstateKey block tx ∧
        readSubstate keccak rlpItem db block tx e.2 = .ok substate := by
    intro e he
    obtain ⟨hmem, hstart⟩ := mem_filter.mp he
    obtain ⟨tx, s, hkey, hstored⟩ := h e.1 e.2 (GoMap.mem_toList.mp hmem) hstart
    obtain ⟨substate, hsub, -⟩ := hstored.read block tx
    exact ⟨tx, substate, hkey, hsub⟩
  obtain ⟨m, hrun, hmem, -⟩ := foldlM_blockStep hnodup hread ∅
  refine ⟨m, hrun, ?_⟩
  intro tx value substate hvalue hsub
  refine hmem tx value substate (mem_filter.mpr ⟨GoMap.mem_toList.mpr hvalue, ?_⟩) hsub
  exact blockStart_isPrefixOf block tx

end

end EtherVal.Rr03
