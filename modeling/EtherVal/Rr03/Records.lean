import EtherVal.Lib.ZeroPad
import EtherVal.Rr03.Database

/-!
# Old records read without loss

What a stored record says about its message, and when both readers return it.
-/

namespace EtherVal.Rr03
open EtherVal.Lib EtherVal.Lib.Rlp EtherVal.Research

def StoredRLP.message : StoredRLP → LegacySubstateMessageRLP
  | .legacy r => r.message
  | .berlin ⟨_, _, _, m, _⟩ =>
      ⟨m.nonce, m.checkNonce, m.gasPrice, m.gas, m.sender, m.toAddr, m.value,
      m.data, m.initCodeHash⟩
  | .london ⟨_, _, _, m, _⟩ =>
      ⟨m.nonce, m.checkNonce, m.gasPrice, m.gas, m.sender, m.toAddr, m.value,
      m.data, m.initCodeHash⟩

def StoredRLP.accessList : StoredRLP → Option AccessList
  | .legacy _ => none
  | .berlin r => some r.message.accessList
  | .london r => some r.message.accessList

def StoredRLP.caps : StoredRLP → Int × Int
  | .legacy r => (r.message.gasPrice, r.message.gasPrice)
  | .berlin r => (r.message.gasPrice, r.message.gasPrice)
  | .london r => (r.message.gasFeeCap, r.message.gasTipCap)

structure StoredRLP.Kept (keccak : Bytes → Word) (db : Backend) (s : StoredRLP)
    (msg : SubstateMessage) : Prop where
  nonce : msg.nonce = s.message.nonce
  checkNonce : msg.checkNonce = s.message.checkNonce
  gasPrice : msg.gasPrice = s.message.gasPrice
  gas : msg.gas = s.message.gas
  sender : msg.sender = s.message.sender
  toAddr : msg.toAddr = s.message.toAddr
  value : msg.value = s.message.value
  data : s.message.toAddr ≠ none → msg.data = s.message.data
  initCode : s.message.toAddr = none →
    ∃ h, s.message.initCodeHash = some h ∧ getCode keccak db h = .ok msg.data
  accessList : ∀ l ∈ s.accessList, msg.accessList = l
  caps : (msg.gasFeeCap, msg.gasTipCap) = s.caps

def StoredRLP.NothingToLose : StoredRLP → Prop
  | .berlin r => r.message.accessList = []
  | _ => True

section
variable {keccak : Bytes → Word} {rlpItem : Bytes → Option Item} {db : Backend}

theorem messageData_spec {msgRLP : SubstateMessageRLP} {data : Bytes}
    (h : messageData keccak db msgRLP = .ok data) :
    (msgRLP.toAddr ≠ none → data = msgRLP.data) ∧
      (msgRLP.toAddr = none →
        ∃ hash, msgRLP.initCodeHash = some hash ∧ getCode keccak db hash = .ok data) := by
  unfold messageData at h
  split at h
  · next addr hto =>
    refine ⟨fun _ => (Except.ok.inj h).symm, ?_⟩
    intro hnone
    rw [hto] at hnone
    cases hnone
  · cases h
  · next hash hto hinit =>
    exact ⟨fun hne => absurd hto hne, fun _ => ⟨hash, hinit, h⟩⟩

theorem SubstateMessage.setRLP_spec {msgRLP : SubstateMessageRLP} {msg : SubstateMessage}
    (h : SubstateMessage.setRLP keccak db msgRLP = .ok msg) :
    ∃ data, messageData keccak db msgRLP = .ok data ∧
      msg = ⟨msgRLP.nonce, msgRLP.checkNonce, msgRLP.gasPrice, msgRLP.gas, msgRLP.sender,
        msgRLP.toAddr, msgRLP.value, data, none, msgRLP.accessList, msgRLP.gasFeeCap,
        msgRLP.gasTipCap⟩ := by
  obtain ⟨data, hdata, hmsg⟩ := bind_ok h
  exact ⟨data, hdata, (Except.ok.inj hmsg).symm⟩

theorem kept_iff {s : StoredRLP} {msg : SubstateMessage}
    (h : SubstateMessage.setRLP keccak db s.toRLP.message = .ok msg) :
    s.Kept keccak db msg ↔ s.NothingToLose := by
  obtain ⟨data, hdata, rfl⟩ := SubstateMessage.setRLP_spec h
  obtain ⟨hcall, hcreate⟩ := messageData_spec hdata
  cases s with
  | legacy r =>
    refine iff_of_true ⟨rfl, rfl, rfl, rfl, rfl, rfl, rfl, hcall, hcreate, ?_, rfl⟩ trivial
    intro l hl
    cases hl
  | berlin r =>
    constructor
    · intro hkept
      exact (hkept.accessList _ rfl).symm
    · intro hempty
      refine ⟨rfl, rfl, rfl, rfl, rfl, rfl, rfl, hcall, hcreate, ?_, rfl⟩
      intro l hl
      rw [← Option.some.inj hl]
      exact hempty.symm
  | london r =>
    refine iff_of_true ⟨rfl, rfl, rfl, rfl, rfl, rfl, rfl, hcall, hcreate, ?_, rfl⟩ trivial
    intro l hl
    exact Option.some.inj hl

structure ReadWithoutLoss (keccak : Bytes → Word) (rlpItem : Bytes → Option Item) (db : Backend)
    (block tx : BitVec 64) (s : StoredRLP) : Prop where
  format : decodeStored s.item = some s
  one : ∃ substate, getSubstate keccak rlpItem db block tx = .ok substate ∧
    s.Kept keccak db substate.message
  all : ∃ m substate, getBlockSubstates keccak rlpItem db block = .ok m ∧ m[tx]? = some substate ∧
    s.Kept keccak db substate.message

/-- A record is read without loss unless it is a Berlin record with an access list. -/
theorem readWithoutLoss_iff {block tx : BitVec 64} {value : Bytes} {s : StoredRLP}
    (hvalue : db[stage1SubstateKey block tx]? = some value)
    (hstored : StoredAt keccak rlpItem db value s) (hblock : BlockStored keccak rlpItem db block) :
    ReadWithoutLoss keccak rlpItem db block tx s ↔ s.NothingToLose := by
  obtain ⟨substate, hread, hmessage⟩ := hstored.read block tx
  have hget : getSubstate keccak rlpItem db block tx = .ok substate := by
    simp only [getSubstate, hvalue, hread]
  constructor
  · intro h
    obtain ⟨substate', hget', hkept⟩ := h.one
    rw [hget] at hget'
    cases hget'
    exact (kept_iff hmessage).mp hkept
  · intro h
    have hkept := (kept_iff hmessage).mpr h
    obtain ⟨m, hrun, hmem⟩ := getBlockSubstates_stored hblock
    exact ⟨decodeStored_item hstored.valid, ⟨substate, hget, hkept⟩,
      ⟨m, substate, hrun, hmem tx value substate hvalue hread, hkept⟩⟩

end

/-- The account of a contract, with the code that is stored under `0x60`. -/
def contractAlloc : SubstateAllocRLP := ⟨[1], [⟨0, 5, 0x60, [(1, 2)]⟩]⟩

def berlinTransfer (accessList : AccessList) : StoredRLP := .berlin
  { inputAlloc := contractAlloc, outputAlloc := contractAlloc, env := ⟨0, 0, 0, 0, 0, []⟩
    message := ⟨0, true, 1, 21000, 0, some 1, 0, [], none, accessList⟩
    result := ⟨1, List.replicate 256 0, [], 0, 21000⟩ }

def legacyTransfer : StoredRLP := .legacy
  { inputAlloc := contractAlloc, outputAlloc := contractAlloc, env := ⟨0, 0, 0, 0, 0, []⟩
    message := ⟨0, true, 1, 21000, 0, some 1, 0, [], none⟩
    result := ⟨1, List.replicate 256 0, [], 0, 21000⟩ }

/-- Two transactions of block 1, one of block 2 that cannot be read, and the contract's code. -/
def records : Backend :=
  ((((∅ : Backend).insert (stage1SubstateKey 1 0) [0]).insert (stage1SubstateKey 1 1) [1]).insert
    (stage1SubstateKey 2 0) [2]).insert (stage1CodeKey 0x60) [0x60]

def recordItem (accessList : AccessList) : Bytes → Option Item
  | [0] => some (berlinTransfer accessList).item
  | [1] => some legacyTransfer.item
  | _ => none

def byteHash (b : Bytes) : Word := BitVec.ofNat 256 (beVal b)

theorem records_stored {accessList : AccessList} (h : accessListRLP.Valid accessList) :
    StoredAt byteHash (recordItem accessList) records [0] (berlinTransfer accessList) ∧
      StoredAt byteHash (recordItem accessList) records [1] legacyTransfer := by
  have huint : ∀ n < 2 ^ 64, Codec.uint64.Valid n := by
    rintro n hn m ⟨⟩
    exact hn
  have hto : (Codec.nilPtr addressRLP).Valid (some 1) := by
    rintro a ⟨⟩
    refine ⟨trivial, ?_⟩
    intro heq
    have hlen := congrArg List.length (Item.str.inj heq)
    rw [beBytes_length] at hlen
    cases hlen
  have halloc : allocRLP.Valid contractAlloc := by
    refine ⟨fun _ _ => trivial, List.forall_mem_singleton.mpr ?_⟩
    exact ⟨huint 0 (by norm_num), Int.natCast_nonneg 5, trivial, fun _ _ => ⟨trivial, trivial⟩⟩
  have henv : (Codec.struct envFields).Valid ⟨0, 0, 0, 0, 0, []⟩ :=
    ⟨trivial, Int.le_refl 0, huint 0 (by norm_num), huint 0 (by norm_num), huint 0 (by norm_num),
      List.forall_mem_nil _⟩
  have hmessage : messageFields.Valid ⟨0, true, 1, 21000, 0, some 1, 0, [], none⟩ :=
    ⟨huint 0 (by norm_num), trivial, Int.one_nonneg, huint 21000 (by norm_num), trivial, hto,
      Int.le_refl 0, trivial, fun _ ha => nomatch ha⟩
  have hresult : resultRLP.Valid ⟨1, List.replicate 256 0, [], 0, 21000⟩ :=
    ⟨huint 1 (by norm_num), List.length_replicate, List.forall_mem_nil _, trivial,
      huint 21000 (by norm_num)⟩
  have hcode : records[stage1CodeKey 0x60]? = some [0x60] := by decide +kernel
  have hcomplete : contractAlloc.Complete byteHash records :=
    ⟨Nat.le_refl _, List.forall_mem_singleton.mpr (.inr ⟨[0x60], hcode⟩)⟩
  exact ⟨⟨rfl, ⟨halloc, halloc, henv, ⟨hmessage, h⟩, hresult⟩, hcomplete, hcomplete, nofun⟩,
    ⟨rfl, ⟨halloc, halloc, henv, hmessage, hresult⟩, hcomplete, hcomplete, nofun⟩⟩

theorem records_blockStored {accessList : AccessList} (h : accessListRLP.Valid accessList) :
    BlockStored byteHash (recordItem accessList) records 1 := by
  intro key value hvalue hstart
  simp only [records, GoMap.get_insert] at hvalue
  split_ifs at hvalue with hcode hother hone hzero
  · subst hcode
    exact absurd hstart (by decide +kernel)
  · subst hother
    exact absurd hstart (by decide +kernel)
  · cases hvalue
    exact ⟨1, legacyTransfer, hone.symm, (records_stored h).2⟩
  · cases hvalue
    exact ⟨0, berlinTransfer accessList, hzero.symm, (records_stored h).1⟩
  · simp at hvalue

theorem records_get : records[stage1SubstateKey 1 0]? = some [0] := by
  decide +kernel

theorem readWithoutLoss_no_list :
    ReadWithoutLoss byteHash (recordItem []) records 1 0 (berlinTransfer []) :=
  have hvalid : accessListRLP.Valid [] := List.forall_mem_nil _
  (readWithoutLoss_iff records_get (records_stored hvalid).1 (records_blockStored hvalid)).mpr rfl

/-- One entry in the access list of a stored Berlin record, and it is gone. -/
theorem berlin_list_lost :
    StoredAt byteHash (recordItem [⟨5, []⟩]) records [0] (berlinTransfer [⟨5, []⟩]) ∧
      BlockStored byteHash (recordItem [⟨5, []⟩]) records 1 ∧
      ¬ ReadWithoutLoss byteHash (recordItem [⟨5, []⟩]) records 1 0 (berlinTransfer [⟨5, []⟩]) := by
  have hvalid : accessListRLP.Valid [⟨5, []⟩] :=
    List.forall_mem_singleton.mpr ⟨trivial, List.forall_mem_nil _⟩
  have hstored := (records_stored hvalid).1
  refine ⟨hstored, records_blockStored hvalid, ?_⟩
  intro h
  obtain ⟨substate, hget, hkept⟩ := h.one
  obtain ⟨substate', hread, hmessage⟩ := hstored.read 1 0
  simp only [getSubstate, records_get, hread] at hget
  cases hget
  have hempty : [(⟨5, []⟩ : AccessTuple)] = [] := (kept_iff hmessage).mp hkept
  cases hempty

section
variable {keccak : Bytes → Word} {rlpItem : Bytes → Option Item} {db : Backend} {block : BitVec 64}

theorem key_of_decode {key : Bytes} {tx : BitVec 64}
    (h : decodeStage1SubstateKey key = .ok (block, tx)) : key = stage1SubstateKey block tx := by
  unfold decodeStage1SubstateKey at h
  split_ifs at h with hlen hstart
  cases h
  have hword : ∀ b : Bytes, b.length = 8 → beBytes 8 (BitVec.ofNat 64 (beVal b)).toNat = b := by
    intro b hb
    have hlt : beVal b < 2 ^ 64 := by simpa [hb] using beVal_lt b
    rw [BitVec.toNat_ofNat, Nat.mod_eq_of_lt hlt, ← hb, beBytes_beVal]
  rw [stage1SubstateKey, hword _ (by simp; omega), hword _ (by simp; omega), List.take_append_drop,
    ← not_not.mp hstart, List.take_append_drop]

theorem entries_of_fold {entries : List (Bytes × Bytes)} {m m' : GoMap (BitVec 64) Substate}
    (h : entries.foldlM (blockStep keccak rlpItem db block) m = .ok m') :
    ∀ e ∈ entries, ∃ tx substate, e.1 = stage1SubstateKey block tx ∧
      readSubstate keccak rlpItem db block tx e.2 = .ok substate := by
  induction entries generalizing m with
  | nil => simp
  | cons e entries ih =>
    rw [List.foldlM_cons] at h
    obtain ⟨m1, hstep, h⟩ := bind_ok h
    refine List.forall_mem_cons.mpr ⟨?_, ih h⟩
    unfold blockStep at hstep
    split at hstep
    · cases hstep
    · next b tx hdec =>
      split_ifs at hstep with hb
      obtain ⟨substate, hread, -⟩ := bind_ok hstep
      exact ⟨tx, substate, key_of_decode (not_not.mp hb ▸ hdec), hread⟩

/-- Reading a block at once and reading its transactions one by one agree, whatever is stored. -/
theorem getBlockSubstates_agree {m : GoMap (BitVec 64) Substate}
    (h : getBlockSubstates keccak rlpItem db block = .ok m) (tx : BitVec 64) :
    m[tx]? = (getSubstate keccak rlpItem db block tx).toOption := by
  have hnodup : ((db.toList.filter fun e =>
      (stage1SubstateBlockStart block).isPrefixOf e.1).map Prod.fst).Nodup :=
    (GoMap.toList_keys_nodup db).sublist (List.filter_sublist.map Prod.fst)
  obtain ⟨m', hrun, hmem, hother⟩ := foldlM_blockStep hnodup (entries_of_fold h) ∅
  cases h.symm.trans hrun
  unfold getSubstate
  cases hvalue : db[stage1SubstateKey block tx]? with
  | none =>
    refine (hother tx fun hin => ?_).trans (by simp; rfl)
    obtain ⟨e, he, hkey⟩ := List.mem_map.mp hin
    have hsome := GoMap.mem_toList.mp (List.mem_of_mem_filter he)
    simp [hkey, hvalue] at hsome
  | some value =>
    have hin : (stage1SubstateKey block tx, value) ∈ db.toList.filter fun e =>
        (stage1SubstateBlockStart block).isPrefixOf e.1 :=
      List.mem_filter.mpr ⟨GoMap.mem_toList.mpr hvalue, blockStart_isPrefixOf block tx⟩
    obtain ⟨tx', substate, hkey, hread⟩ := entries_of_fold h _ hin
    obtain rfl := stage1SubstateKey_inj hkey
    dsimp only
    rw [hread, hmem tx value substate hin hread]
    rfl

end

/-- The two transactions of block 1 are read as one by one, and no other is. -/
theorem records_agree : ∃ m a b, getBlockSubstates byteHash (recordItem []) records 1 = .ok m ∧
    getSubstate byteHash (recordItem []) records 1 0 = .ok a ∧ m[(0 : BitVec 64)]? = some a ∧
    getSubstate byteHash (recordItem []) records 1 1 = .ok b ∧ m[(1 : BitVec 64)]? = some b ∧
    m[(2 : BitVec 64)]? = none := by
  have hvalid : accessListRLP.Valid [] := List.forall_mem_nil _
  obtain ⟨m, hm, -⟩ := getBlockSubstates_stored (records_blockStored hvalid)
  obtain ⟨a, ha, -⟩ := (records_stored hvalid).1.read 1 0
  obtain ⟨b, hb, -⟩ := (records_stored hvalid).2.read 1 1
  have hone : records[stage1SubstateKey 1 1]? = some [1] := by decide +kernel
  have hnone : records[stage1SubstateKey 1 2]? = none := by decide +kernel
  refine ⟨m, a, b, hm, ?_⟩
  simp only [getBlockSubstates_agree hm, getSubstate, records_get, hone, hnone, ha, hb]
  exact ⟨trivial, rfl, trivial, rfl, rfl⟩

end EtherVal.Rr03
