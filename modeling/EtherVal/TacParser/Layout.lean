import EtherVal.TacParser.TransformFunction

/-!
# What the transformer emits
-/

namespace EtherVal.TacParser
open EtherVal.Lib List

variable {k n p : Nat}

def TACOp.operands : TACOp → Nat
  | .THROW | .STOP | .BLOCK_FLAG | .PHI_END => 0
  | .ADDRESS | .ORIGIN | .CALLER | .CALLVALUE | .CALLDATASIZE | .CODESIZE | .GASPRICE
  | .RETURNDATASIZE | .COINBASE | .TIMESTAMP | .NUMBER | .DIFFICULTY | .GASLIMIT | .MSIZE
  | .GAS | .CHAINID | .SELFBALANCE | .JUMP | .SELFDESTRUCT | .CONST | .JUMP_VAR => 1
  | .ISZERO | .BALANCE | .CALLDATALOAD | .EXTCODESIZE | .EXTCODEHASH | .BLOCKHASH | .MLOAD
  | .SLOAD | .NOT | .MSTORE | .MSTORE8 | .SSTORE | .JUMPI | .REVERT | .RETURN | .LOG0
  | .JUMPI_VAR => 2
  | .ADD | .MUL | .SUB | .DIV | .SDIV | .MOD | .SMOD | .EXP | .SIGNEXTEND | .LT | .GT | .SLT
  | .SGT | .EQ | .AND | .OR | .XOR | .BYTE | .SHL | .SHR | .SAR | .SHA3 | .CALLDATACOPY
  | .CODECOPY | .RETURNDATACOPY | .LOG1 => 3
  | .ADDMOD | .MULMOD | .CREATE | .EXTCODECOPY | .LOG2 => 4
  | .LOG3 | .CREATE2 => 5
  | .LOG4 => 6
  | .DELEGATECALL | .STATICCALL => 7
  | .CALL | .CALLCODE => 8
  | .PHI_START | .PHI | .CALLPRIVATE | .RETURNPRIVATE | .ILLPHI => 0

def jumpsToConstant (s : AstStatement) : Bool := s.args.head?.any (fun a => a.typ = .CONSTANT)

def opcodeOf (s : AstStatement) : TACOp :=
  match s.operation with
  | .JUMP => if jumpsToConstant s then .JUMP else .JUMP_VAR
  | .JUMPI => if jumpsToConstant s then .JUMPI else .JUMPI_VAR
  | .CONST => .CONST
  | .STOP => .STOP
  | .CALLPRIVATE => .CALLPRIVATE
  | .RETURNPRIVATE => .RETURNPRIVATE
  | .ADDRESS => .ADDRESS
  | .ORIGIN => .ORIGIN
  | .CALLER => .CALLER
  | .CALLVALUE => .CALLVALUE
  | .CALLDATASIZE => .CALLDATASIZE
  | .CODESIZE => .CODESIZE
  | .GASPRICE => .GASPRICE
  | .RETURNDATASIZE => .RETURNDATASIZE
  | .COINBASE => .COINBASE
  | .TIMESTAMP => .TIMESTAMP
  | .NUMBER => .NUMBER
  | .DIFFICULTY => .DIFFICULTY
  | .GASLIMIT => .GASLIMIT
  | .MSIZE => .MSIZE
  | .GAS => .GAS
  | .CHAINID => .CHAINID
  | .SELFBALANCE => .SELFBALANCE
  | .ISZERO => .ISZERO
  | .BALANCE => .BALANCE
  | .CALLDATALOAD => .CALLDATALOAD
  | .EXTCODESIZE => .EXTCODESIZE
  | .EXTCODEHASH => .EXTCODEHASH
  | .BLOCKHASH => .BLOCKHASH
  | .MLOAD => .MLOAD
  | .SLOAD => .SLOAD
  | .SELFDESTRUCT => .SELFDESTRUCT
  | .NOT => .NOT
  | .ADD => .ADD
  | .MUL => .MUL
  | .SUB => .SUB
  | .DIV => .DIV
  | .SDIV => .SDIV
  | .MOD => .MOD
  | .SMOD => .SMOD
  | .ADDMOD => .ADDMOD
  | .MULMOD => .MULMOD
  | .EXP => .EXP
  | .SIGNEXTEND => .SIGNEXTEND
  | .LT => .LT
  | .GT => .GT
  | .SLT => .SLT
  | .SGT => .SGT
  | .EQ => .EQ
  | .AND => .AND
  | .OR => .OR
  | .XOR => .XOR
  | .BYTE => .BYTE
  | .SHL => .SHL
  | .SHR => .SHR
  | .SAR => .SAR
  | .SHA3 => .SHA3
  | .MSTORE => .MSTORE
  | .MSTORE8 => .MSTORE8
  | .SSTORE => .SSTORE
  | .REVERT => .REVERT
  | .RETURN => .RETURN
  | .LOG0 => .LOG0
  | .CALLDATACOPY => .CALLDATACOPY
  | .CODECOPY => .CODECOPY
  | .RETURNDATACOPY => .RETURNDATACOPY
  | .LOG1 => .LOG1
  | .CREATE => .CREATE
  | .EXTCODECOPY => .EXTCODECOPY
  | .LOG2 => .LOG2
  | .LOG3 => .LOG3
  | .LOG4 => .LOG4
  | .CALL => .CALL
  | .CALLCODE => .CALLCODE
  | .DELEGATECALL => .DELEGATECALL
  | .CREATE2 => .CREATE2
  | .STATICCALL => .STATICCALL
  | _ => .THROW

/-- One instruction: its opcode, its number of cells, the statement it comes from and the
cells whose content gives the sizes of its parts, by their offsets. -/
structure Item where
  opcode : TACOp
  size : Nat
  stmt : Option AstStatement
  known : List (Nat × Int)
  deriving DecidableEq

def passedArgs (s : AstStatement) : Nat := s.args.length - s.numAssignee - 1

def stmtSize (s : AstStatement) : Nat :=
  match s.operation with
  | .CALLPRIVATE => 3 + s.numAssignee + passedArgs s
  | .RETURNPRIVATE => s.args.length + 1
  | _ => 1 + (opcodeOf s).operands

def stmtKnown (s : AstStatement) : List (Nat × Int) :=
  match s.operation with
  | .CALLPRIVATE => [(1, s.numAssignee)]
  | _ => []

def stmtItem (s : AstStatement) : Item := ⟨opcodeOf s, stmtSize s, some s, stmtKnown s⟩

def Item.jump (it : Item) : Option AstStatement :=
  it.stmt.filter (fun s => s.operation = .JUMP || s.operation = .JUMPI)

def phiSize (s : AstStatement) : Nat := 3 + (s.args.length - 1)

def phiGroupSize (phis : List AstStatement) : Nat := 3 + (phis.map phiSize).sum

def phiCounts : Nat → List AstStatement → List (Nat × Int)
  | _, [] => []
  | off, s :: phis => (off + 1, ((s.args.length - 1 : Nat) : Int)) :: phiCounts
      (off + phiSize s) phis

namespace AstBlock

def phiItems (block : AstBlock) : List Item :=
  if block.phiStatements = [] then []
  else [⟨.PHI_START, phiGroupSize block.phiStatements, none,
    (1, block.phiStatements.length) :: phiCounts 2 block.phiStatements⟩]

def items (block : AstBlock) : List Item :=
  ⟨.BLOCK_FLAG, 1, none, []⟩ :: block.constStatements.map stmtItem ++ block.phiItems ++
    block.otherStatements.map stmtItem

end AstBlock

def totalSize (items : List Item) : Nat := (items.map Item.size).sum

@[simp] theorem totalSize_nil : totalSize [] = 0 := rfl

@[simp] theorem totalSize_cons (it : Item) (items : List Item) :
    totalSize (it :: items) = it.size + totalSize items := by
  simp [totalSize]

@[simp] theorem totalSize_append (items items' : List Item) :
    totalSize (items ++ items') = totalSize items + totalSize items' := by
  simp [totalSize]

structure SameTables (f f' : TACFunction) : Prop where
  blockByName : f'.blockByName = f.blockByName
  blockByIndex : f'.blockByIndex = f.blockByIndex
  uniqueBlockAddr : f'.uniqueBlockAddr = f.uniqueBlockAddr
  uniqueJumpVarSucc : f'.uniqueJumpVarSucc = f.uniqueJumpVarSucc

theorem SameTables.refl (f : TACFunction) : SameTables f f := ⟨rfl, rfl, rfl, rfl⟩

variable {f : TACFunction}
variable {g h : TACFunction}

theorem SameTables.trans (hg : SameTables f g) (hh : SameTables g h) :
    SameTables f h :=
  ⟨hh.1.trans hg.1, hh.2.trans hg.2, hh.3.trans hg.3, hh.4.trans hg.4⟩

structure Appends (f f' : TACFunction) (n : Nat) : Prop extends SameTables f f' where
  cells : ∃ cells, f'.insts = f.insts ++ cells ∧ cells.length = n
  bookkeeping : f'.bookkeeping = f.bookkeeping

namespace Appends

theorem refl (f : TACFunction) : Appends f f 0 := ⟨.refl f, ⟨[], by simp, rfl⟩, rfl⟩

theorem trans (hg : Appends f g n) (hh : Appends g h k) :
    Appends f h (n + k) := by
  obtain ⟨c1, hc1, hl1⟩ := hg.cells
  obtain ⟨c2, hc2, hl2⟩ := hh.cells
  refine ⟨hg.toSameTables.trans hh.toSameTables, ⟨c1 ++ c2, ?_, ?_⟩,
    hh.bookkeeping.trans hg.bookkeeping⟩
  · rw [hc2, hc1, append_assoc]
  · rw [length_append, hl1, hl2]

theorem push (f : TACFunction) (c : Int) : Appends f (f.push c) 1 :=
  ⟨⟨rfl, rfl, rfl, rfl⟩, ⟨[c], rfl, rfl⟩, rfl⟩

end Appends

theorem appends_addVar (f : TACFunction) (name : GoString) : Appends f (f.addVar name).2 0 := by
  unfold TACFunction.addVar
  split
  · exact .refl f
  · exact ⟨⟨rfl, rfl, rfl, rfl⟩, ⟨[], by simp, rfl⟩, rfl⟩

variable {f' : TACFunction}

theorem appends_encodeVar {v : AstVariable} {idx : Nat} (h : f.encodeVar v = .ok (idx, f')) :
    Appends f f' 0 := by
  unfold TACFunction.encodeVar at h
  split at h
  · have hf : (f.addVar v.name).2 = f' := congrArg Prod.snd (Except.ok.inj h)
    exact hf ▸ appends_addVar f v.name
  · split at h
    · cases h
      exact .refl f
    · have hvar := appends_addVar f v.name
      dsimp only at h
      split at h
      · cases h
      · split at h
        · cases h
        · cases h
          exact ⟨⟨hvar.1.1, hvar.1.2, hvar.1.3, hvar.1.4⟩, hvar.cells, hvar.bookkeeping⟩

theorem appends_pushVariables {vs : List AstVariable} (h : f.pushVariables n vs = .ok f') :
    Appends f f' n := by
  induction n generalizing vs f with
  | zero =>
    obtain rfl := Except.ok.inj h
    exact .refl f
  | succ n ih =>
    cases vs with
    | nil => cases h
    | cons v vs =>
      obtain ⟨⟨idx, f1⟩, h1, h2⟩ := bind_ok h
      have hall := ((appends_encodeVar h1).trans (.push f1 idx)).trans (ih h2)
      rwa [Nat.zero_add, Nat.add_comm] at hall

def HoldsKnown (cells : List Int) (known : List (Nat × Int)) : Prop :=
  ∀ q ∈ known, cells[q.1]? = some q.2

structure Emits (f f' : TACFunction) (it : Item) : Prop extends SameTables f f' where
  cells : ∃ rest, f'.insts = f.insts ++ it.opcode.code :: rest ∧ rest.length + 1 = it.size ∧
    HoldsKnown (it.opcode.code :: rest) it.known
  bookkeeping : f'.bookkeeping = match it.jump with
    | some s => f.bookkeeping.insert f.pos s
    | none => f.bookkeeping

/- `g` is `f` with a table of the statement's own changed. -/
variable {it : Item}

theorem emits_of_appends (h : Appends (g.push it.opcode.code) f' n) (hsize : it.size = 1 + n)
    (hknown : ∀ cells, f'.insts = f.insts ++ cells → HoldsKnown cells it.known)
    (hsame : SameTables f g) (hinsts : g.insts = f.insts)
    (hbook : g.bookkeeping = match it.jump with
      | some s => f.bookkeeping.insert f.pos s
      | none => f.bookkeeping) : Emits f f' it := by
  obtain ⟨cells, hc, hl⟩ := h.cells
  have hall : f'.insts = f.insts ++ it.opcode.code :: cells := by
    rw [hc, TACFunction.push, hinsts, append_assoc]
    rfl
  refine ⟨hsame.trans ⟨h.1.1, h.1.2, h.1.3, h.1.4⟩, ⟨cells, hall, by omega, hknown _ hall⟩, ?_⟩
  rw [h.bookkeeping, ← hbook]
  rfl

theorem holdsKnown_nil (cells : List Int) : HoldsKnown cells [] := fun _ h => by cases h

variable {s : AstStatement}

theorem stmtItem_known (h : s.operation ≠ .CALLPRIVATE) :
    (stmtItem s).known = [] := by
  unfold stmtItem stmtKnown
  split
  · next hs => exact absurd hs h
  · rfl

theorem holdsKnown_stmtItem (h : s.operation ≠ .CALLPRIVATE) (f f' : TACFunction) (cells : List Int)
    (_ : f'.insts = f.insts ++ cells) :
    HoldsKnown cells (stmtItem s).known := by
  rw [stmtItem_known h]
  exact holdsKnown_nil cells

variable {enc : GoMap GoString Nat}

def TACFunction.noteStmt (f : TACFunction) (s : AstStatement) : TACFunction :=
  match s.operation with
  | .CONST => { f with reorderConstAddr := f.reorderConstAddr.insert f.pos s.patchReorder }
  | .THROW => if isAuxiliary s then
      { f with fallthroughThrowAddr := f.fallthroughThrowAddr.insert f.pos true } else f
  | .STOP => if isAuxiliary s then
      { f with fallthroughStopAddr := f.fallthroughStopAddr.insert f.pos true } else f
  | .JUMP => { f with bookkeeping := f.bookkeeping.insert f.pos s }
  | .JUMPI =>
    let f := if isAuxiliary s then
      { f with fallthroughJumpAddr := f.fallthroughJumpAddr.insert f.pos true } else f
    { f with bookkeeping := f.bookkeeping.insert f.pos s }
  | _ => f

inductive Dispatched (enc : GoMap GoString Nat) (s : AstStatement) (f f' : TACFunction) : Prop where
  | fixed (hcall : s.operation ≠ .CALLPRIVATE) (hret : s.operation ≠ .RETURNPRIVATE)
      (hphi : s.operation ≠ .PHI)
      (h : transFixed (opcodeOf s) (opcodeOf s).operands s (f.noteStmt s) = .ok f')
  | callprivate {target : AstVariable} {args : List AstVariable} {f1 : TACFunction} {idx : Nat}
      (hs : s.operation = .CALLPRIVATE) (hdrop : s.args.drop s.numAssignee = target :: args)
      (h1 : ((f.push TACOp.CALLPRIVATE.code).push s.numAssignee).pushVariables s.numAssignee s.args
        = .ok f1)
      (hidx : decodeFunction enc target.val = .ok idx)
      (h : (f1.push idx).pushVariables args.length args = .ok f')
  | returnprivate {addr : AstVariable} {vars : List AstVariable}
      (hs : s.operation = .RETURNPRIVATE) (hargs : s.args = addr :: vars)
      (h : ((f.push TACOp.RETURNPRIVATE.code).push vars.length).pushVariables vars.length vars
        = .ok f')

theorem dispatched_transJump (hs : s.operation = .JUMP) (h : transJump s f = .ok f') :
    Dispatched enc s f f' := by
  unfold transJump at h
  cases hargs : s.args with
  | nil =>
    simp only [hargs] at h
    cases h
  | cons arg rest =>
    refine .fixed (by simp [hs]) (by simp [hs]) (by simp [hs]) ?_
    have hop : opcodeOf s = if arg.typ = .CONSTANT then .JUMP else .JUMP_VAR := by
      simp [opcodeOf, hs, jumpsToConstant, hargs]
    have hn : (opcodeOf s).operands = 1 := by
      rw [hop]
      split <;> rfl
    simp only [hargs] at h
    simp only [hn, TACFunction.noteStmt, hs]
    rw [hop]
    exact h

theorem dispatched_transJumpi (hs : s.operation = .JUMPI) (h : transJumpi s f = .ok f') :
    Dispatched enc s f f' := by
  unfold transJumpi at h
  cases hargs : s.args with
  | nil =>
    simp only [hargs] at h
    cases h
  | cons arg rest =>
    refine .fixed (by simp [hs]) (by simp [hs]) (by simp [hs]) ?_
    have hop : opcodeOf s = if arg.typ = .CONSTANT then .JUMPI else .JUMPI_VAR := by
      simp [opcodeOf, hs, jumpsToConstant, hargs]
    have hn : (opcodeOf s).operands = 2 := by
      rw [hop]
      split <;> rfl
    simp only [hargs] at h
    simp only [hn, TACFunction.noteStmt, hs]
    rw [hop]
    exact h

theorem dispatched_transCallprivate (hs : s.operation = .CALLPRIVATE)
    (h : transCallprivate enc s f = .ok f') : Dispatched enc s f f' := by
  obtain ⟨f1, h1, h⟩ := bind_ok h
  cases hdrop : s.args.drop s.numAssignee with
  | nil =>
    simp only [hdrop] at h
    cases h
  | cons target args =>
    simp only [hdrop] at h
    obtain ⟨idx, hidx, h⟩ := bind_ok h
    exact .callprivate hs hdrop h1 hidx h

theorem dispatched_transReturnprivate (hs : s.operation = .RETURNPRIVATE)
    (h : transReturnprivate s f = .ok f') : Dispatched enc s f f' := by
  unfold transReturnprivate at h
  cases hargs : s.args with
  | nil =>
    simp only [hargs] at h
    cases h
  | cons addr vars =>
    simp only [hargs] at h
    exact .returnprivate hs hargs h

theorem dispatched (h : transformerDispatcher enc s f = .ok f') : Dispatched enc s f f' := by
  cases hs : s.operation
  all_goals simp only [transformerDispatcher, hs] at h
  case JUMP => exact dispatched_transJump hs h
  case JUMPI => exact dispatched_transJumpi hs h
  case CALLPRIVATE => exact dispatched_transCallprivate hs h
  case RETURNPRIVATE => exact dispatched_transReturnprivate hs h
  all_goals first
    | cases h; done
    | (refine .fixed (by simp [hs]) (by simp [hs]) (by simp [hs]) ?_
       simp only [opcodeOf, TACFunction.noteStmt, hs]
       exact h)

theorem insts_noteStmt (f : TACFunction) (s : AstStatement) : (f.noteStmt s).insts = f.insts := by
  unfold TACFunction.noteStmt
  dsimp only
  repeat' split
  all_goals rfl

theorem emits_fixed (hcall : s.operation ≠ .CALLPRIVATE) (hret : s.operation ≠ .RETURNPRIVATE)
    (h : transFixed (opcodeOf s) (opcodeOf s).operands s (f.noteStmt s) = .ok f') :
    Emits f f' (stmtItem s) := by
  have hsize : stmtSize s = 1 + (opcodeOf s).operands := by
    unfold stmtSize
    split
    · next hs => exact absurd hs hcall
    · next hs => exact absurd hs hret
    · rfl
  refine emits_of_appends (g := f.noteStmt s) (appends_pushVariables h) hsize
    (holdsKnown_stmtItem hcall f f') ?_ (insts_noteStmt f s) ?_
  · unfold TACFunction.noteStmt
    dsimp only
    repeat' split
    all_goals exact ⟨rfl, rfl, rfl, rfl⟩
  · cases hs : s.operation
    all_goals simp [TACFunction.noteStmt, Item.jump, stmtItem, Option.filter, hs]
    all_goals split <;> rfl

theorem emits_dispatcher (h : transformerDispatcher enc s f = .ok f') :
    Emits f f' (stmtItem s) := by
  cases dispatched h with
  | fixed hcall hret _ h => exact emits_fixed hcall hret h
  | @callprivate target args f1 idx hs hdrop h1 hidx h =>
    have hop : (stmtItem s).opcode = .CALLPRIVATE := by simp [stmtItem, opcodeOf, hs]
    have hrest := (appends_pushVariables h1).trans
      ((Appends.push f1 idx).trans (appends_pushVariables h))
    have happ := (Appends.push (f.push TACOp.CALLPRIVATE.code) s.numAssignee).trans hrest
    have hlen := congrArg List.length hdrop
    rw [length_drop, length_cons] at hlen
    have hsize : (stmtItem s).size = 1 + (1 + (s.numAssignee + (1 + args.length))) := by
      simp only [stmtItem, stmtSize, hs, passedArgs]
      omega
    have hknown : ∀ cells, f'.insts = f.insts ++ cells →
        HoldsKnown cells (stmtItem s).known := by
      intro cells hcells q hq
      have hitem : (stmtItem s).known = [(1, (s.numAssignee : Int))] := by
        simp [stmtItem, stmtKnown, hs]
      rw [hitem, mem_singleton] at hq
      obtain ⟨rest, hrest, -⟩ := hrest.cells
      rw [hcells] at hrest
      simp only [TACFunction.push, append_assoc, append_cancel_left_eq] at hrest
      rw [hrest, hq]
      rfl
    refine emits_of_appends (g := f) (hop ▸ happ) hsize hknown (.refl f) rfl ?_
    simp [Item.jump, stmtItem, Option.filter, hs]
  | @returnprivate addr vars hs hargs h =>
    have hop : (stmtItem s).opcode = .RETURNPRIVATE := by simp [stmtItem, opcodeOf, hs]
    have happ := (Appends.push (f.push TACOp.RETURNPRIVATE.code) vars.length).trans
      (appends_pushVariables h)
    have hsize : (stmtItem s).size = 1 + (1 + vars.length) := by
      simp only [stmtItem, stmtSize, hs, hargs, length_cons]
      omega
    refine emits_of_appends (g := f) (hop ▸ happ) hsize (holdsKnown_stmtItem (by simp [hs]) f f')
      (.refl f) rfl ?_
    simp [Item.jump, stmtItem, Option.filter, hs]

variable {stmts : List AstStatement}

theorem transConsts_eq (enc : GoMap GoString Nat) (hs : ∀ s ∈ stmts, s.operation = .CONST)
    (f : TACFunction) :
    transConsts stmts f = transOthers enc stmts f := by
  induction stmts generalizing f with
  | nil => rfl
  | cons s stmts ih =>
    have hop := hs s mem_cons_self
    have hrest := ih fun t ht => hs t (mem_cons_of_mem _ ht)
    simp only [transConsts, transOthers, transformerDispatcher, hop, hrest]

theorem appends_noteChoice (f : TACFunction) (phiAddr idx : Int) :
    Appends f (f.noteChoice phiAddr idx) 0 :=
  ⟨⟨rfl, rfl, rfl, rfl⟩, ⟨[], by simp [TACFunction.noteChoice], rfl⟩, rfl⟩

theorem appends_pushChoices {ambiguous : AstVariable → Bool} {phiAddr : Int}
    {args : List AstVariable} (h : pushChoices ambiguous phiAddr args f = .ok f') :
    Appends f f' args.length := by
  induction args generalizing f with
  | nil =>
    obtain rfl := Except.ok.inj h
    exact .refl f
  | cons arg rest ih =>
    obtain ⟨⟨idx, f1⟩, h1, h2⟩ := bind_ok h
    have hnote : Appends (f1.push idx)
        (if ambiguous arg then (f1.push idx).noteChoice phiAddr idx else f1.push idx) 0 := by
      split
      · exact appends_noteChoice _ _ _
      · exact .refl _
    have hall := (((appends_encodeVar h1).trans (.push f1 idx)).trans hnote).trans (ih h2)
    rwa [Nat.zero_add, Nat.add_zero, Nat.add_comm] at hall

theorem appends_notePhi (f : TACFunction) (reorder ambiguous : Bool) :
    Appends f (f.notePhi reorder ambiguous) 0 :=
  ⟨⟨rfl, rfl, rfl, rfl⟩, ⟨[], by simp [TACFunction.notePhi], rfl⟩, rfl⟩

theorem appends_transPhi (h : transPhi s f = .ok f') :
    Appends f f' (phiSize s) := by
  unfold transPhi at h
  split at h
  · next dest choice rest hargs =>
    obtain ⟨⟨idx, g⟩, h1, h2⟩ := bind_ok h
    have hnote := appends_notePhi f s.patchReorder
      ((choice :: rest).any (f.ambiguousChoice (choice :: rest)))
    have hall := ((((hnote.trans (.push _ _)).trans (.push _ _)).trans (appends_encodeVar h1)).trans
      (.push g idx)).trans (appends_pushChoices h2)
    have hlen : phiSize s = 0 + 1 + 1 + 0 + 1 + (choice :: rest).length := by
      rw [phiSize, hargs, length_cons]
      omega
    rwa [hlen]
  · cases h

variable {phis : List AstStatement}

theorem appends_transPhis (h : transPhis phis f = .ok f') :
    Appends f f' (phis.map phiSize).sum := by
  induction phis generalizing f with
  | nil =>
    obtain rfl := Except.ok.inj h
    exact .refl f
  | cons s phis ih =>
    obtain ⟨f1, h1, h2⟩ := bind_ok h
    rw [map_cons, sum_cons]
    exact (appends_transPhi h1).trans (ih h2)

theorem cells_transPhi (h : transPhi s f = .ok f') :
    ∃ rest, f'.insts = f.insts ++ TACOp.PHI.code :: ((s.args.length - 1 : Nat) : Int) :: rest ∧
      rest.length + 2 = phiSize s := by
  unfold transPhi at h
  split at h
  · next dest choice rest hargs =>
    obtain ⟨⟨idx, g⟩, h1, h2⟩ := bind_ok h
    have hall := ((appends_encodeVar h1).trans (.push g idx)).trans (appends_pushChoices h2)
    obtain ⟨cells, hcells, hlen⟩ := hall.cells
    refine ⟨cells, ?_, ?_⟩
    · rw [hcells, hargs]
      simp [TACFunction.push, TACFunction.notePhi]
    · rw [hlen, phiSize, hargs]
      simp only [length_cons]
      omega
  · cases h

theorem cells_transPhis (h : transPhis phis f = .ok f') {base off : Nat}
    (hlen : f.insts.length = base + off) :
    ∀ q ∈ phiCounts off phis, f'.insts[base + q.1]? = some q.2 := by
  induction phis generalizing f off with
  | nil => simp [phiCounts]
  | cons s phis ih =>
    obtain ⟨f1, h1, h2⟩ := bind_ok h
    obtain ⟨rest, hcells, hrest⟩ := cells_transPhi h1
    obtain ⟨more, hmore, -⟩ := (appends_transPhis h2).cells
    intro q hq
    rcases mem_cons.mp hq with rfl | hq
    · rw [hmore, hcells, append_assoc,
        getElem?_append_right (by rw [hlen]; omega), hlen]
      have hidx : base + (off + 1) - (base + off) = 1 := by omega
      rw [hidx]
      rfl
    · refine ih h2 ?_ q hq
      rw [hcells, length_append, length_cons, length_cons, hlen]
      omega

def EmitsAll (f f' : TACFunction) : List Item → Prop
  | [] => f = f'
  | it :: items => ∃ g, Emits f g it ∧ EmitsAll g f' items

variable {items : List Item}
variable {items' : List Item}

theorem EmitsAll.append (h1 : EmitsAll f g items) (h2 : EmitsAll g h items') :
    EmitsAll f h (items ++ items') := by
  induction items generalizing f with
  | nil =>
    obtain rfl := h1
    exact h2
  | cons it items ih =>
    obtain ⟨f1, he, hrest⟩ := h1
    exact ⟨f1, he, ih hrest⟩

theorem emitsAll_transOthers (h : transOthers enc stmts f = .ok f') :
    EmitsAll f f' (stmts.map stmtItem) := by
  induction stmts generalizing f with
  | nil => exact Except.ok.inj h
  | cons s stmts ih =>
    obtain ⟨f1, h1, h2⟩ := bind_ok h
    exact ⟨f1, emits_dispatcher h1, ih h2⟩

variable {block : AstBlock}

theorem emitsAll_transPhiStatements (h : transPhiStatements block.phiStatements f = .ok f') :
    EmitsAll f f' block.phiItems := by
  unfold transPhiStatements at h
  unfold AstBlock.phiItems
  by_cases hp : block.phiStatements = []
  · rw [if_pos (by rw [hp]; rfl)] at h
    rw [if_pos hp]
    exact Except.ok.inj h
  · rw [if_neg (by simpa using hp)] at h
    rw [if_neg hp]
    obtain ⟨f1, h1, h2⟩ := bind_ok h
    cases h2
    have hall := ((Appends.push (f.push TACOp.PHI_START.code) block.phiStatements.length).trans
      (appends_transPhis h1)).trans (.push f1 TACOp.PHI_END.code)
    have hknown : ∀ cells, (f1.push TACOp.PHI_END.code).insts = f.insts ++ cells →
        HoldsKnown cells ((1, (block.phiStatements.length : Int)) ::
          phiCounts 2 block.phiStatements) := by
      intro cells hcells q hq
      have hf1 : f1.insts[f.insts.length + q.1]? = some q.2 := by
        rcases mem_cons.mp hq with rfl | hq
        · obtain ⟨more, hmore, -⟩ := (appends_transPhis h1).cells
          rw [hmore]
          simp [TACFunction.push]
        · exact cells_transPhis h1 (by simp [TACFunction.push]) q hq
      have hlt := (List.getElem?_eq_some_iff.mp hf1).1
      calc cells[q.1]?
          = (f.insts ++ cells)[f.insts.length + q.1]? := by
            rw [getElem?_append_right (by omega), Nat.add_sub_cancel_left]
        _ = f1.insts[f.insts.length + q.1]? := by
            rw [← hcells, TACFunction.push, getElem?_append_left hlt]
        _ = some q.2 := hf1
    refine ⟨_, emits_of_appends (g := f) hall ?_ hknown (.refl f) rfl rfl, rfl⟩
    simp only [phiGroupSize]
    omega

def ItemAt (items : List Item) (k : Nat) (it : Item) : Prop :=
  ∃ before after, items = before ++ it :: after ∧ k = totalSize before

theorem itemAt_snoc_iff {last : Item} :
    ItemAt (items ++ [last]) k it ↔ ItemAt items k it ∨ (k = totalSize items ∧ it = last) := by
  constructor
  · rintro ⟨before, after, hl, rfl⟩
    rcases eq_nil_or_concat after with rfl | ⟨after', x, rfl⟩
    · obtain ⟨rfl, hx⟩ := append_inj' hl rfl
      exact .inr ⟨rfl, (List.cons.inj hx).1.symm⟩
    · rw [concat_eq_append, ← cons_append, ← append_assoc] at hl
      obtain ⟨rfl, -⟩ := append_inj' hl rfl
      exact .inl ⟨before, after', rfl, rfl⟩
  · rintro (⟨before, after, rfl, rfl⟩ | ⟨rfl, rfl⟩)
    · exact ⟨before, after ++ [last], by simp, rfl⟩
    · exact ⟨items, [], rfl, rfl⟩

theorem ItemAt.mem (h : ItemAt items k it) :
    it ∈ items := by
  obtain ⟨before, after, rfl, -⟩ := h
  simp

theorem ItemAt.le (h : ItemAt items k it) :
    k + it.size ≤ totalSize items := by
  obtain ⟨before, after, rfl, rfl⟩ := h
  simp only [totalSize_append, totalSize_cons]
  omega

theorem ItemAt.disjoint {k' : Nat} {it' : Item} (h : ItemAt items k it) (h' : ItemAt items k' it') :
    (k = k' ∧ it = it') ∨ k + it.size ≤ k' ∨ k' + it'.size ≤ k := by
  obtain ⟨b, a, rfl, rfl⟩ := h
  obtain ⟨b', a', hl, rfl⟩ := h'
  rcases append_eq_append_iff.mp hl with ⟨u, rfl, hu⟩ | ⟨u, rfl, hu⟩
  · cases u with
    | nil => exact .inl ⟨by simp, (List.cons.inj hu).1⟩
    | cons x u =>
      obtain ⟨rfl, -⟩ := List.cons.inj hu
      refine .inr (.inl ?_)
      simp only [totalSize_append, totalSize_cons]
      omega
  · cases u with
    | nil => exact .inl ⟨by simp, (List.cons.inj hu).1.symm⟩
    | cons x u =>
      obtain ⟨rfl, -⟩ := List.cons.inj hu
      refine .inr (.inr ?_)
      simp only [totalSize_append, totalSize_cons]
      omega

theorem ItemAt.append_left (h : ItemAt items' k it) :
    ItemAt (items ++ items') (totalSize items + k) it := by
  obtain ⟨before, after, rfl, rfl⟩ := h
  exact ⟨items ++ before, after, by simp, by simp⟩

theorem ItemAt.append_right (h : ItemAt items k it) (items' : List Item) :
    ItemAt (items ++ items') k it := by
  obtain ⟨before, after, rfl, rfl⟩ := h
  exact ⟨before, after ++ items', by simp, rfl⟩

structure LaidItems (f : TACFunction) (items : List Item) : Prop where
  length : f.pos = totalSize items
  sized : ∀ it ∈ items, 0 < it.size
  code : ∀ k it, ItemAt items k it → f.cell k = .ok it.opcode.code
  known : ∀ k it, ItemAt items k it → ∀ q ∈ it.known,
    q.1 < it.size ∧ f.cell ((k + q.1 : Nat) : Int) = .ok q.2
  book : ∀ (k : Int) s, f.bookkeeping[k]? = some s ↔
    ∃ p : Nat, k = p ∧ ∃ it, ItemAt items p it ∧ it.jump = some s

theorem cell_append_left {cells : List Int} {k : Int} {c : Int} (hf : f'.insts = f.insts ++ cells)
    (h : f.cell k = .ok c) : f'.cell k = .ok c := by
  rw [TACFunction.cell_eq_ok] at h ⊢
  refine ⟨h.1, ?_⟩
  rw [hf, List.getElem?_append_left (List.getElem?_eq_some_iff.mp h.2).1]
  exact h.2

theorem LaidItems.emits (h : LaidItems f items) (he : Emits f f' it) :
    LaidItems f' (items ++ [it]) := by
  obtain ⟨rest, hinsts, hsize, hknown⟩ := he.cells
  have hlen : f.insts.length = totalSize items := by
    have := h.length
    unfold TACFunction.pos at this
    omega
  refine ⟨?_, ?_, ?_, ?_, ?_⟩
  · simp only [TACFunction.pos, hinsts, totalSize_append, totalSize_cons, totalSize_nil,
      length_append, length_cons, hlen]
    omega
  · intro x hx
    rcases mem_append.mp hx with hx | hx
    · exact h.sized x hx
    · obtain rfl := mem_singleton.mp hx
      omega
  · intro k x hx
    rcases itemAt_snoc_iff.mp hx with hx | ⟨rfl, rfl⟩
    · exact cell_append_left hinsts (h.code k x hx)
    · rw [TACFunction.cell_eq_ok, hinsts, ← hlen]
      simp
  · intro k x hx q hq
    rcases itemAt_snoc_iff.mp hx with hx | ⟨rfl, rfl⟩
    · obtain ⟨hlt, hcell⟩ := h.known k x hx q hq
      exact ⟨hlt, cell_append_left hinsts hcell⟩
    · have hcell := hknown q hq
      have hlt := (List.getElem?_eq_some_iff.mp hcell).1
      rw [length_cons] at hlt
      refine ⟨by omega, TACFunction.cell_eq_ok.mpr ⟨Int.natCast_nonneg _, ?_⟩⟩
      rw [Int.toNat_natCast, hinsts, ← hlen, getElem?_append_right (by omega),
        Nat.add_sub_cancel_left]
      exact hcell
  · intro k s
    have hpos : f.pos = totalSize items := h.length
    have hold : ∀ p it', ItemAt items p it' → p < totalSize items := by
      intro p it' hp
      have := hp.le
      have := h.sized it' hp.mem
      omega
    cases hj : it.jump with
    | none =>
      rw [he.bookkeeping, hj, h.book]
      constructor
      · rintro ⟨p, hk, it', hat, hs⟩
        exact ⟨p, hk, it', itemAt_snoc_iff.mpr (.inl hat), hs⟩
      · rintro ⟨p, hk, it', hat, hs⟩
        rcases itemAt_snoc_iff.mp hat with hat | ⟨-, rfl⟩
        · exact ⟨p, hk, it', hat, hs⟩
        · rw [hj] at hs
          cases hs
    | some t =>
      rw [he.bookkeeping, hj, GoMap.get_insert, hpos]
      by_cases hk : (totalSize items : Int) = k
      · rw [if_pos hk]
        constructor
        · intro hs
          exact ⟨totalSize items, hk.symm, it, itemAt_snoc_iff.mpr (.inr ⟨rfl, rfl⟩), hj.trans hs⟩
        · rintro ⟨p, hp, it', hat, hs⟩
          have hpt : p = totalSize items := by omega
          rcases itemAt_snoc_iff.mp hat with hat | ⟨-, rfl⟩
          · have := hold p it' hat
            omega
          · rw [← hs, hj]
      · rw [if_neg hk, h.book]
        constructor
        · rintro ⟨p, hp, it', hat, hs⟩
          exact ⟨p, hp, it', itemAt_snoc_iff.mpr (.inl hat), hs⟩
        · rintro ⟨p, hp, it', hat, hs⟩
          rcases itemAt_snoc_iff.mp hat with hat | ⟨rfl, -⟩
          · exact ⟨p, hp, it', hat, hs⟩
          · exact absurd hp.symm hk

theorem LaidItems.emitsAll (h : LaidItems f items) (he : EmitsAll f f' items') :
    LaidItems f' (items ++ items') := by
  induction items' generalizing f items with
  | nil =>
    obtain rfl := he
    simpa using h
  | cons it items' ih =>
    obtain ⟨g, hg, hrest⟩ := he
    have := ih (h.emits hg) hrest
    rwa [append_assoc, singleton_append] at this

theorem EmitsAll.sameTables (h : EmitsAll f f' items) :
    SameTables f f' := by
  induction items generalizing f with
  | nil =>
    obtain rfl := h
    exact .refl f
  | cons it items ih =>
    obtain ⟨g, hg, hrest⟩ := h
    exact hg.toSameTables.trans (ih hrest)

def codeSize (blocks : List AstBlock) : Nat := totalSize (blocks.flatMap AstBlock.items)

def BlockAt (blocks : List AstBlock) (name : GoString) (p : Nat) : Prop :=
  ∃ before b after, blocks = before ++ b :: after ∧ b.name = name ∧ p = codeSize before

structure Laid (f : TACFunction) (blocks : List AstBlock) : Prop extends
    LaidItems f (blocks.flatMap AstBlock.items) where
  names : ∀ (name : GoString) (p : Int), f.blockByName[name]? = some p ↔
    ∃ k : Nat, p = k ∧ BlockAt blocks name k
  indices : ∀ (p : Int) (name : GoString), f.blockByIndex[p]? = some name ↔
    f.blockByName[name]? = some p
  unresolved : f.uniqueBlockAddr = ∅ ∧ f.uniqueJumpVarSucc = ∅

variable {blocks : List AstBlock}
variable {name : GoString}

theorem blockAt_snoc_iff {last : AstBlock} :
    BlockAt (blocks ++ [last]) name p ↔
      BlockAt blocks name p ∨ (p = codeSize blocks ∧ last.name = name) := by
  constructor
  · rintro ⟨before, b, after, hl, hn, rfl⟩
    rcases eq_nil_or_concat after with rfl | ⟨after', x, rfl⟩
    · obtain ⟨rfl, hx⟩ := append_inj' hl rfl
      exact .inr ⟨rfl, (List.cons.inj hx).1 ▸ hn⟩
    · rw [concat_eq_append, ← cons_append, ← append_assoc] at hl
      obtain ⟨rfl, -⟩ := append_inj' hl rfl
      exact .inl ⟨before, b, after', rfl, hn, rfl⟩
  · rintro (⟨before, b, after, rfl, hn, rfl⟩ | ⟨rfl, hn⟩)
    · exact ⟨before, b, after ++ [last], by simp, hn, rfl⟩
    · exact ⟨blocks, last, [], rfl, hn, rfl⟩

theorem BlockAt.mem (h : BlockAt blocks name p) :
    name ∈ blocks.map AstBlock.name := by
  obtain ⟨before, b, after, rfl, rfl, -⟩ := h
  simp

theorem codeSize_lt (before after : List AstBlock) (b : AstBlock) :
    codeSize before < codeSize (before ++ b :: after) := by
  simp only [codeSize, flatMap_append, flatMap_cons, AstBlock.items, totalSize_append,
    cons_append, totalSize_cons]
  omega

theorem BlockAt.lt (h : BlockAt blocks name p) :
    p < codeSize blocks := by
  obtain ⟨before, b, after, rfl, -, rfl⟩ := h
  exact codeSize_lt before after b

theorem operation_collectStatements {op : TokenType} {first : Nat}
    (h : s ∈ collectStatements op first stmts) : s.operation = op := by
  unfold collectStatements at h
  rw [mem_mapIdx] at h
  obtain ⟨j, hj, rfl⟩ := h
  have hop := (mem_filter.mp (getElem_mem hj)).2
  split <;> simpa using hop

theorem operation_constStatements (h : s ∈ block.constStatements) : s.operation = .CONST :=
  operation_collectStatements h

theorem operation_phiStatements (h : s ∈ block.phiStatements) : s.operation = .PHI :=
  operation_collectStatements h

theorem mem_items_cases {b : AstBlock} (h : it ∈ b.items) :
    it = ⟨.BLOCK_FLAG, 1, none, []⟩ ∨
      (∃ s, it = stmtItem s ∧ (s ∈ b.constStatements ∨ s ∈ b.otherStatements)) ∨
      it = ⟨.PHI_START, phiGroupSize b.phiStatements, none,
        (1, b.phiStatements.length) :: phiCounts 2 b.phiStatements⟩ := by
  rcases mem_append.mp h with h | h
  · rcases mem_append.mp h with h | h
    · rcases mem_cons.mp h with h | h
      · exact .inl h
      · obtain ⟨s, hs, rfl⟩ := mem_map.mp h
        exact .inr (.inl ⟨s, rfl, .inl hs⟩)
    · unfold AstBlock.phiItems at h
      split at h
      · cases h
      · exact .inr (.inr (mem_singleton.mp h))
  · obtain ⟨s, hs, rfl⟩ := mem_map.mp h
    exact .inr (.inl ⟨s, rfl, .inr hs⟩)

theorem mem_items_stmt {b : AstBlock} (h : stmtItem s ∈ b.items) :
    s ∈ b.constStatements ∨ s ∈ b.otherStatements := by
  rcases mem_items_cases h with h | ⟨t, h, ht⟩ | h
  · cases congrArg Item.stmt h
  · cases congrArg Item.stmt h
    exact ht
  · cases congrArg Item.stmt h

theorem emitsAll_addBlock (h : f.addBlock enc block = .ok f') :
    EmitsAll (f.nameBlock block.name) f' block.items := by
  obtain ⟨f1, h1, h⟩ := bind_ok h
  obtain ⟨f2, h2, h3⟩ := bind_ok h
  have hflag : Emits (f.nameBlock block.name) _ ⟨.BLOCK_FLAG, 1, none, []⟩ :=
    emits_of_appends (.refl _) rfl (fun cells _ => holdsKnown_nil cells) (.refl _) rfl rfl
  rw [transConsts_eq enc fun s => operation_constStatements] at h1
  have hconst := emitsAll_transOthers h1
  have hphi := emitsAll_transPhiStatements h2
  have hhead : EmitsAll (f.nameBlock block.name) f1
      (⟨.BLOCK_FLAG, 1, none, []⟩ :: block.constStatements.map stmtItem) := ⟨_, hflag, hconst⟩
  exact (hhead.append hphi).append (emitsAll_transOthers h3)

theorem Laid.addBlock (hl : Laid f blocks) (hnew : block.name ∉ blocks.map AstBlock.name)
    (h : f.addBlock enc block = .ok f') : Laid f' (blocks ++ [block]) := by
  have hall := emitsAll_addBlock h
  have hlaid : LaidItems (f.nameBlock block.name) (blocks.flatMap AstBlock.items) :=
    ⟨hl.length, hl.sized, hl.code, hl.known, hl.book⟩
  have htables := hall.sameTables
  refine ⟨?_, ?_, ?_, ?_⟩
  · rw [flatMap_append, flatMap_singleton]
    exact hlaid.emitsAll hall
  · intro name p
    rw [htables.blockByName, TACFunction.nameBlock, GoMap.get_insert]
    by_cases hn : block.name = name
    · rw [if_pos hn]
      constructor
      · intro hp
        exact ⟨codeSize blocks, by rw [← Option.some.inj hp]; exact hl.length,
          blockAt_snoc_iff.mpr (.inr ⟨rfl, hn⟩)⟩
      · rintro ⟨k, rfl, hk⟩
        rcases blockAt_snoc_iff.mp hk with hk | ⟨rfl, -⟩
        · exact absurd (hn ▸ hk.mem) hnew
        · exact congrArg some hl.length
    · rw [if_neg hn, hl.names]
      constructor
      · rintro ⟨k, hp, hk⟩
        exact ⟨k, hp, blockAt_snoc_iff.mpr (.inl hk)⟩
      · rintro ⟨k, hp, hk⟩
        rcases blockAt_snoc_iff.mp hk with hk | ⟨-, hk⟩
        · exact ⟨k, hp, hk⟩
        · exact absurd hk hn
  · intro p name
    rw [htables.blockByName, htables.blockByIndex, TACFunction.nameBlock, GoMap.get_insert,
      GoMap.get_insert]
    by_cases hp : f.pos = p <;> by_cases hn : block.name = name
    · simp [hp, hn]
    · rw [if_pos hp, if_neg hn, hl.names]
      refine iff_of_false (fun h => hn (Option.some.inj h)) ?_
      rintro ⟨k, rfl, hk⟩
      have hlt := hk.lt
      have hpos := hl.length
      rw [hp] at hpos
      exact hlt.ne (Int.ofNat.inj hpos)
    · rw [if_neg hp, if_pos hn, hl.indices, hl.names]
      refine iff_of_false ?_ fun h => hp (Option.some.inj h)
      rintro ⟨k, -, hk⟩
      exact hnew (hn ▸ hk.mem)
    · rw [if_neg hp, if_neg hn]
      exact hl.indices p name
  · rw [htables.uniqueBlockAddr, htables.uniqueJumpVarSucc]
    exact hl.unresolved

theorem Laid.addBlocks {rest : List AstBlock} (hl : Laid f blocks)
    (hnd : ((blocks ++ rest).map AstBlock.name).Nodup) (h : addBlocks enc rest f = .ok f') :
    Laid f' (blocks ++ rest) := by
  induction rest generalizing f blocks with
  | nil =>
    cases h
    simpa using hl
  | cons block rest ih =>
    obtain ⟨f1, h1, h2⟩ := bind_ok h
    have hnew : block.name ∉ blocks.map AstBlock.name := by
      rw [map_append, nodup_append] at hnd
      exact fun hm => hnd.2.2 _ hm _ (by simp) rfl
    have hsplit : blocks ++ block :: rest = (blocks ++ [block]) ++ rest := by simp
    rw [hsplit] at hnd ⊢
    exact ih (hl.addBlock hnew h1) hnd h2

end EtherVal.TacParser
