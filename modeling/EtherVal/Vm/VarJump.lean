import EtherVal.TacParser.JumpResolution
import EtherVal.Vm.ExecRules

/-!
# Jumps to the value of a variable

`exec_jump_var` looks the value up among the base addresses noted for the jump, and what it
finds there it looks up among the full names of the blocks.  A successor with a suffix in
its name is not found that way.
-/

namespace EtherVal.Vm
open EtherVal.Lib EtherVal.TacParser Exec List
open Uint256 (hex)

variable {σ : Type}
variable {v : Word} {successor : List GoString} {s : GoString} {tf : TACFunction}

theorem mem_hexDigits {n : Nat} {c : Char} (h : c ∈ Nat.toDigits 16 n) :
    ∃ d, c = Nat.digitChar d := by
  induction n using Nat.strong_induction_on with
  | _ n ih =>
    rcases Nat.lt_or_ge n 16 with hn | hn
    · rw [Nat.toDigits_of_lt_base hn, mem_singleton] at h
      exact ⟨n, h⟩
    · rw [Nat.toDigits_of_base_le (by decide) hn] at h
      rcases mem_append.mp h with h | h
      · exact ih (n / 16) (by omega) h
      · exact ⟨n % 16, mem_singleton.mp h⟩

theorem baseAddrText_hex (v : Word) : baseAddrText (hex v) = hex v := by
  have hdigit : ∀ c, (∀ d, Nat.digitChar d ≠ c) → c ∉ Nat.toDigits 16 v.toNat := by
    intro c hc hmem
    obtain ⟨d, hd⟩ := mem_hexDigits hmem
    exact hc d hd.symm
  exact baseAddrText_eq_self (hdigit 'B' fun _ => Nat.digitChar_ne 'B' rfl)
    (hdigit 'x' fun _ => Nat.digitChar_ne 'x' rfl) (hdigit '_' fun _ => Nat.digitChar_ne '_' rfl)

theorem baseAddr_hex (v : Word) : baseAddr (hex v) = .ok (hex v) :=
  baseAddr_eq_ok.mpr ⟨prefix_append _ _, (baseAddrText_hex v).symm⟩

def withBase (successor : List GoString) (t : GoString) : List GoString :=
  successor.filter (fun n => baseAddrText n = t)

theorem count_map_baseAddrText (successor : List GoString) (t : GoString) :
    (successor.map baseAddrText).count t = (withBase successor t).length := by
  rw [count_eq_countP, countP_map, countP_eq_length_filter, withBase]
  congr 1
  refine filter_congr fun n _ => ?_
  rw [Bool.eq_iff_iff]
  simp

theorem findSuccessor_of_mem {addr : GoString} {names : List GoString}
    (haddr : baseAddr addr = .ok addr) (hnames : ∀ n ∈ names, baseAddr n = .ok n)
    (h : addr ∈ names) : findSuccessor addr names = .ok (some addr) := by
  induction names with
  | nil => cases h
  | cons n rest ih =>
    have hn := hnames n mem_cons_self
    by_cases heq : addr = n
    · subst heq
      simp [findSuccessor, equalBaseAddr, haddr, bind, Except.bind, pure, Except.pure]
    · have hrest := ih (fun k hk => hnames k (mem_cons_of_mem n hk))
        ((mem_cons.mp h).resolve_left heq)
      simp [findSuccessor, equalBaseAddr, haddr, hn, heq, hrest, bind, Except.bind, pure,
        Except.pure]

theorem findSuccessor_of_not_mem {addr : GoString} {names : List GoString}
    (haddr : baseAddr addr = .ok addr) (hnames : ∀ n ∈ names, baseAddr n = .ok n)
    (h : addr ∉ names) : findSuccessor addr names = .ok none := by
  induction names with
  | nil => rfl
  | cons n rest ih =>
    have hn := hnames n mem_cons_self
    have heq : addr ≠ n := fun heq => h (heq ▸ mem_cons_self)
    have hrest := ih (fun k hk => hnames k (mem_cons_of_mem n hk))
      (fun hmem => h (mem_cons_of_mem n hmem))
    simp [findSuccessor, equalBaseAddr, haddr, hn, heq, hrest, bind, Except.bind, pure,
      Except.pure]

theorem baseAddr_of_mem_uniqueAddrs {a : GoString} (h : a ∈ uniqueAddrs successor) :
    baseAddr a = .ok a := by
  obtain ⟨n, -, rfl⟩ := mem_map.mp (mem_filter.mp h).1
  exact baseAddr_eq_ok.mpr ⟨hex_prefix_baseAddrText n, (baseAddrText_idem n).symm⟩

theorem mem_uniqueAddrs_iff {a : GoString} :
    a ∈ uniqueAddrs successor ↔ (withBase successor a).length = 1 := by
  rw [uniqueAddrs, mem_filter, decide_eq_true_eq, count_map_baseAddrText]
  constructor
  · exact fun h => h.2
  · intro h
    refine ⟨?_, h⟩
    obtain ⟨s, hs⟩ := length_eq_one_iff.mp h
    obtain ⟨hmem, hbase⟩ := mem_filter.mp (show s ∈ withBase successor a by simp [hs])
    exact mem_map.mpr ⟨s, hmem, by simpa using hbase⟩

variable {m : Machine σ}

theorem jumpToValue_noted
    (hnoted : m.ctx.function.uniqueJumpVarSucc[m.pc]? = some (uniqueAddrs successor))
    (hone : (withBase successor (hex v)).length = 1) :
    jumpToValue v m = .ok (([], none),
      { m with pc := m.ctx.function.blockByName[hex v]?.getD 0 }) := by
  have hfind : findSuccessor (hex v) (uniqueAddrs successor) =
      .ok (some (hex v)) :=
    findSuccessor_of_mem (baseAddr_hex v) (fun _ h => baseAddr_of_mem_uniqueAddrs h)
      (mem_uniqueAddrs_iff.mpr hone)
  unfold jumpToValue
  rw [bind_of_ok (get_eq_ok.mpr ⟨rfl, rfl⟩)]
  rw [hnoted, Option.getD_some, bind_of_ok (read_eq_ok.mpr ⟨hfind, rfl⟩)]
  rfl

theorem jumpToValue_not_noted
    (hnoted : m.ctx.function.uniqueJumpVarSucc[m.pc]? = some (uniqueAddrs successor))
    (hone : (withBase successor (hex v)).length ≠ 1) :
    jumpToValue v m =
      (match m.ctx.function.uniqueBlockAddr[hex v]? with
        | some addr => jumpTo addr
        | none => do fail (← errInvalidJump)) m := by
  have hfind : findSuccessor (hex v) (uniqueAddrs successor) = .ok none :=
    findSuccessor_of_not_mem (baseAddr_hex v) (fun _ h => baseAddr_of_mem_uniqueAddrs h)
      (fun h => hone (mem_uniqueAddrs_iff.mp h))
  unfold jumpToValue
  rw [bind_of_ok (get_eq_ok.mpr ⟨rfl, rfl⟩)]
  rw [hnoted, Option.getD_some]
  have hread : read (fun _ => findSuccessor (hex v) (uniqueAddrs successor)) m =
      .ok (none, m) := read_eq_ok.mpr ⟨hfind, rfl⟩
  exact bind_of_ok hread

def isInvalidJump (e : Option VmError) : Prop := e = some .invalidJump ∨ e = some .tacIllJump

structure ReachesMatching (tf : TACFunction) (successor : List GoString) (v : Word) (ret : Ret)
    (m' : Machine σ) : Prop where
  only : ∀ s, OnlySuccessor successor (hex v) s →
    ret = ([], none) ∧ tf.blockByName[s]? = some m'.pc
  based : isInvalidJump ret.2 ∨ (ret = ([], none) ∧
    ∃ name, tf.blockByName[name]? = some m'.pc ∧ baseAddr name = .ok (hex v))

structure VarResolvable (f : AstFunction) (successor : List GoString) (t : GoString) : Prop where
  single : ∀ s, withBase successor t = [s] →
    s = t ∨ (f.blocks.head?.map AstBlock.name = some s ∧ ¬ f.Reachable t)
  several : (withBase successor t).length ≠ 1 → ∀ s, OnlySuccessor successor t s →
    ∀ n, f.Reachable n → baseAddr n = .ok t → n = s

theorem errInvalidJump_eq (h : m.engine.frames ≠ []) :
    ∃ e, isInvalidJump (some e) ∧ errInvalidJump m = .ok (e, m) := by
  obtain ⟨frame, rest, hf⟩ := exists_cons_of_ne_nil h
  have hframe : getFrame m = .ok (frame, m) := by
    refine read_eq_ok.mpr ⟨?_, rfl⟩
    rw [hf]
  unfold errInvalidJump
  rw [bind_of_ok hframe]
  refine ⟨_, ?_, rfl⟩
  split
  · exact .inl rfl
  · exact .inr rfl

section Transformed
variable {f : AstFunction} {order : List AstBlock} {tf : TACFunction} {successor : List GoString}

theorem place_first (h : Transformed f order tf) {first : AstBlock}
    (hfirst : f.blocks.head? = some first) : tf.blockByName[first.name]? = some 0 := by
  obtain ⟨rest, hhead⟩ := h.walk.head
  obtain ⟨b, bs, rfl, hname, -⟩ := map_eq_cons_iff.mp hhead
  have hb : b.name = first.name := by
    rw [hname, AstFunction.blockNames]
    obtain ⟨tail, ht⟩ := head?_eq_some_iff.mp hfirst
    rw [ht]
    rfl
  exact (h.names _ _).mpr ⟨0, rfl, [], b, bs, rfl, hb, rfl⟩

theorem blockByName_getD_iff (h : Transformed f order tf) {p : Int}
    (hp : tf.blockByName[s]? = some p) (t : GoString) :
    tf.blockByName[t]?.getD 0 = p ↔
      s = t ∨ (f.blocks.head?.map AstBlock.name = some s ∧ ¬ f.Reachable t) := by
  cases hq : tf.blockByName[t]? with
  | some q =>
    have hr : f.Reachable t := (h.placed_iff _).mp ⟨q, hq⟩
    rw [Option.getD_some]
    constructor
    · rintro rfl
      exact .inl (h.place_inj hp hq)
    · rintro (rfl | ⟨-, hn⟩)
      · exact Option.some.inj (hq.symm.trans hp)
      · exact absurd hr hn
  | none =>
    have hr : ¬ f.Reachable t := by
      intro hr
      obtain ⟨q, hq'⟩ := (h.placed_iff _).mpr hr
      rw [hq] at hq'
      cases hq'
    obtain ⟨first, hfirst, -⟩ := (h.placed_iff s).mp ⟨p, hp⟩
    have h0 := place_first h hfirst
    rw [Option.getD_none, hfirst, Option.map_some]
    constructor
    · rintro rfl
      exact .inr ⟨congrArg some (h.place_inj h0 hp), hr⟩
    · rintro (rfl | ⟨hname, -⟩)
      · rw [hq] at hp
        cases hp
      · rw [Option.some.inj hname] at h0
        exact Option.some.inj (h0.symm.trans hp)

theorem onlySuccessor_of_withBase (h : Transformed f order tf)
    (hsucc : ∀ n ∈ successor, f.Reachable n) {t : GoString} (hs : withBase successor t = [s]) :
    OnlySuccessor successor t s := by
  have hmem : ∀ n, n ∈ successor ∧ baseAddrText n = t ↔ n = s := by
    intro n
    have hn : n ∈ withBase successor t ↔ n = s := by rw [hs, mem_singleton]
    rwa [withBase, mem_filter, decide_eq_true_eq] at hn
  obtain ⟨hin, hbase⟩ := (hmem s).mpr rfl
  refine ⟨hin, (h.baseAddr_placed (hsucc s hin)).mpr hbase, fun n hn hb => ?_⟩
  exact (hmem n).mp ⟨hn, (h.baseAddr_placed (hsucc n hn)).mp hb⟩

theorem reachesMatching_noted_iff (h : Transformed f order tf)
    (hsucc : ∀ n ∈ successor, f.Reachable n) (hs : withBase successor (hex v) = [s])
    {m' : Machine σ} (hpc : m'.pc = tf.blockByName[hex v]?.getD 0) :
    ReachesMatching tf successor v ([], none) m' ↔ VarResolvable f successor (hex v) := by
  have honly := onlySuccessor_of_withBase h hsucc hs
  obtain ⟨p, hp⟩ := (h.placed_iff s).mpr (hsucc s honly.1)
  have hiff := blockByName_getD_iff h hp (hex v)
  rw [← hpc] at hiff
  constructor
  · intro hreach
    refine ⟨fun s' hs' => ?_, fun hne => absurd (by rw [hs]; rfl) hne⟩
    obtain rfl : s = s' := (List.cons.inj (hs.symm.trans hs')).1
    exact hiff.mp (Option.some.inj ((hreach.only s honly).2.symm.trans hp))
  · intro hres
    obtain rfl := hiff.mpr (hres.single s hs)
    refine ⟨fun s' hs' => ⟨rfl, ?_⟩, .inr ⟨rfl, s, hp, honly.2.1⟩⟩
    rwa [honly.2.2 s' hs'.1 hs'.2.1]

theorem reachesMatching_unnoted_iff (h : Transformed f order tf)
    (hsucc : ∀ n ∈ successor, f.Reachable n) (hs : (withBase successor (hex v)).length ≠ 1)
    {m' : Machine σ} {ret : Ret} (hlook : match tf.uniqueBlockAddr[hex v]? with
      | some addr => ret = ([], none) ∧ m'.pc = addr
      | none => isInvalidJump ret.2) :
    ReachesMatching tf successor v ret m' ↔ VarResolvable f successor (hex v) := by
  have hsingle : ∀ s, withBase successor (hex v) = [s] →
      s = hex v ∨
        (f.blocks.head?.map AstBlock.name = some s ∧ ¬ f.Reachable (hex v)) :=
    fun s h1 => absurd (by rw [h1]; rfl) hs
  cases hu : tf.uniqueBlockAddr[hex v]? with
  | none =>
    rw [hu] at hlook
    constructor
    · intro hreach
      refine ⟨hsingle, fun _ s honly => ?_⟩
      rw [(hreach.only s honly).1] at hlook
      rcases hlook with h | h <;> cases h
    · intro hres
      refine ⟨fun s honly => ?_, .inl hlook⟩
      obtain ⟨p, hp⟩ := (h.placed_iff s).mpr (hsucc s honly.1)
      have hsome := h.uniqueBlockAddr_of_only hp honly.2.1 (hres.several hs s honly)
      rw [hu] at hsome
      cases hsome
  | some p =>
    rw [hu] at hlook
    obtain ⟨rfl, hpc⟩ := hlook
    obtain ⟨name, hname, hbase, honly⟩ := h.uniqueBlockAddr_based hu
    rw [← hpc] at hname
    have hmatch : ∀ s, OnlySuccessor successor (hex v) s → s = name :=
      fun s hs => honly s (hsucc s hs.1) hs.2.1
    constructor
    · intro _
      refine ⟨hsingle, fun _ s hs n hn hb => ?_⟩
      rw [hmatch s hs]
      exact honly n hn hb
    · intro _
      refine ⟨fun s hs => ⟨rfl, ?_⟩, .inr ⟨rfl, name, hname, hbase⟩⟩
      rw [hmatch s hs]
      exact hname

end Transformed

theorem jumpToValue_reachesMatching {f : AstFunction} {order : List AstBlock}
    (h : Transformed f order tf) (hsucc : ∀ n ∈ successor, f.Reachable n) (hm : m.ctx.function = tf)
    (hnoted : tf.uniqueJumpVarSucc[m.pc]? = some (uniqueAddrs successor))
    (hframe : m.engine.frames ≠ []) (v : Word) :
    ∃ ret m', jumpToValue v m = .ok (ret, m') ∧
      (ReachesMatching tf successor v ret m' ↔ VarResolvable f successor (hex v)) := by
  subst hm
  by_cases hone : (withBase successor (hex v)).length = 1
  · obtain ⟨s, hs⟩ := length_eq_one_iff.mp hone
    exact ⟨_, _, jumpToValue_noted hnoted hone, reachesMatching_noted_iff h hsucc hs rfl⟩
  · rw [jumpToValue_not_noted hnoted hone]
    cases hu : m.ctx.function.uniqueBlockAddr[hex v]? with
    | some addr =>
      refine ⟨_, _, rfl, reachesMatching_unnoted_iff h hsucc hone ?_⟩
      rw [hu]
      exact ⟨rfl, rfl⟩
    | none =>
      obtain ⟨e, he, herr⟩ := errInvalidJump_eq hframe
      refine ⟨([], some e), m, ?_, reachesMatching_unnoted_iff h hsucc hone ?_⟩
      · dsimp only
        rw [bind_of_ok herr]
        rfl
      · rw [hu]
        exact he

theorem countJump_eq (m : Machine σ) :
    ∃ e, countJump m = .ok ((), { m with engine := e }) ∧ e.frames = m.engine.frames := by
  unfold countJump
  rw [bind_of_ok (get_eq_ok.mpr ⟨rfl, rfl⟩)]
  generalize m.ctx.function.fallthroughJumpAddr[m.pc]?.getD false = b1
  generalize m.ctx.function.ambiguousJumpAddr[m.pc]?.getD false = b2
  cases b1 <;> cases b2 <;> exact ⟨_, rfl, rfl⟩

def JumpsToValue (m : Machine σ) (v : Word) : TACOp → Prop
  | .JUMP_VAR => ∃ r, m.operand 1 = .ok r ∧ m.val r = v
  | .JUMPI_VAR => ∃ r c, m.operand 1 = .ok r ∧ m.operand 2 = .ok c ∧ m.val r = v ∧ m.val c ≠ 0
  | _ => False

theorem execution_jumpsToValue (host : Host σ) (run : Runner σ) {op : TACOp}
    (h : JumpsToValue m v op) :
    ∃ e, e.frames = m.engine.frames ∧
      execution host run op m = jumpToValue v { m with engine := e } := by
  obtain ⟨e, he, hframes⟩ := countJump_eq m
  refine ⟨e, hframes, ?_⟩
  cases op with
  | JUMP_VAR =>
    obtain ⟨r, hr, rfl⟩ := h
    have hr1 : ({ m with engine := e } : Machine σ).operand 1 = .ok r := hr
    show execJumpVar m = _
    unfold execJumpVar
    rw [bind_of_ok he, bind_of_ok (operand_eq_ok.mpr ⟨hr1, rfl⟩)]
    exact bind_of_ok (val_eq_ok.mpr ⟨rfl, rfl⟩)
  | JUMPI_VAR =>
    obtain ⟨r, c, hr, hc, rfl, hz⟩ := h
    have hr1 : ({ m with engine := e } : Machine σ).operand 1 = .ok r := hr
    have hc1 : ({ m with engine := e } : Machine σ).operand 2 = .ok c := hc
    have hz0 : ¬ Uint256.isZero (m.val c) = true := by simpa [Uint256.isZero] using hz
    have hzero : ¬ Uint256.isZero (({ m with engine := e } : Machine σ).val c) = true := hz0
    show execJumpiVar m = _
    unfold execJumpiVar
    rw [bind_of_ok he, bind_of_ok (operand_eq_ok.mpr ⟨hr1, rfl⟩),
      bind_of_ok (operand_eq_ok.mpr ⟨hc1, rfl⟩), bind_of_ok (val_eq_ok.mpr ⟨rfl, rfl⟩),
      if_neg hzero]
    exact bind_of_ok (val_eq_ok.mpr ⟨rfl, rfl⟩)
  | _ => cases h

theorem opcode_of_jumpsToValue {op : TACOp} (h : JumpsToValue m v op) :
    op = .JUMP_VAR ∨ op = .JUMPI_VAR := by
  cases op with
  | JUMP_VAR => exact .inl rfl
  | JUMPI_VAR => exact .inr rfl
  | _ => cases h

/-- A jump to the value `v`, executed at its place in a reachable block of a function that
`TransformProgram` transforms. -/
theorem varJump_reachesMatching_iff {input : GoString} {ast ast' : AstProgram}
    (hparse : parseProgram input = .ok ast) (hpatch : patchProgram ast = .ok ast') {f : AstFunction}
    (hf : f ∈ ast'.functions) {enc : GoMap GoString Nat} (htf : transformFunction enc f = .ok tf)
    {b : AstBlock} (hb : f.getBlock b.name = some b) (hr : f.Reachable b.name) {off : Nat}
    {s : AstStatement} (hs : ItemAt b.items off (stmtItem s)) (host : Host σ) (run : Runner σ)
    {m : Machine σ} (hm : m.ctx.function = tf) (hframe : m.engine.frames ≠ []) {p : Int}
    (hp : tf.blockByName[b.name]? = some p) (hpc : m.pc = p + off)
    (hv : JumpsToValue m v (opcodeOf s)) :
    ∃ ret m', execution host run (opcodeOf s) m = .ok (ret, m') ∧
      (ReachesMatching tf b.successor v ret m' ↔
        VarResolvable f b.successor (hex v)) := by
  obtain ⟨order, ht⟩ := transformed_transformFunction htf
  obtain ⟨k, hk, hat⟩ := ht.itemAt_block hb hr hs
  cases hk.symm.trans hp
  obtain ⟨block, hblock, -, hnoted⟩ := ht.varJump _ s hat (opcode_of_jumpsToValue hv)
  have hname := blockName_of_mem_items
    (wellNamed_patchProgram hparse hpatch f hf b (f.getBlock_mem hb)) hs.mem
  rw [hname, hb] at hblock
  cases hblock
  obtain ⟨e, hframes, hexec⟩ := execution_jumpsToValue host run hv
  rw [hexec]
  have hpos : tf.uniqueJumpVarSucc[m.pc]? = some (uniqueAddrs b.successor) := by
    rw [hpc, ← hnoted, Nat.cast_add]
  exact jumpToValue_reachesMatching ht (fun n hn => hr.successor hb hn)
    (m := { m with engine := e }) hm hpos (hframes ▸ hframe) v

/-! ### A jump from `0x0` to the address 16, whose block may have a suffix in its name -/

def varText (target : String) : GoString :=
  ("function f()() public \x7b Begin block 0x0 prev = [], succ = [" ++ target ++
    "] 0x0: JUMP v0 Begin block " ++ target ++
    " prev = [0x0], succ = [] 0x10: STOP \x7d").toList

def varStatement : AstStatement where
  name := "0x0".toList
  address := "0x0".toList
  operation := .JUMP
  args := [⟨"v0".toList, [], .VARIABLE⟩]
  blockName := "0x0".toList

def varBlock (target : String) : AstBlock :=
  ⟨"0x0".toList, "0x0".toList, [], [target.toList], [varStatement]⟩

def varFunction (target : String) : AstFunction where
  name := "f()".toList
  args := []
  blocks := [varBlock target, ⟨target.toList, "0x10".toList, ["0x0".toList], [],
    [{ stopStatement with blockName := target.toList }]⟩]
  isPublic := true

theorem itemAt_varBlock (target : String) :
    ItemAt (varBlock target).items 1 (stmtItem varStatement) :=
  ⟨[⟨.BLOCK_FLAG, 1, none, []⟩], [], rfl, rfl⟩

def varCells : List Int :=
  [TACOp.BLOCK_FLAG.code, TACOp.JUMP_VAR.code, 0, TACOp.BLOCK_FLAG.code, TACOp.STOP.code]

def varCode (target : String) : Option (List Int × Option Int × Option Int × Option Int) :=
  (transformFunction ∅ (varFunction target)).toOption.map fun tf =>
    (tf.insts, tf.blockByName["0x0".toList]?, tf.blockByName[target.toList]?,
      tf.blockByName["0x10".toList]?)

def varMachine (tf : TACFunction) : Machine Unit where
  pc := 0 + (1 : Nat)
  engine := { (default : TACInterpreter Unit) with frames := [default] }
  ctx := { registers := [⟨16, 0⟩], function := tf }

theorem jumpsToValue_varMachine (h : tf.insts = varCells) :
    JumpsToValue (varMachine tf) 16 (opcodeOf varStatement) := by
  refine ⟨0, Machine.operand_iff.mpr ⟨?_, Nat.one_pos⟩, rfl⟩
  rw [Machine.inst, TACFunction.cell_eq_ok]
  show (0 : Int) ≤ 2 ∧ tf.insts[2]? = some 0
  rw [h]
  decide

theorem varJump_reachesMatching_plain :
    ∃ tf, parseProgram (varText "0x10") = .ok ⟨[varFunction "0x10"]⟩ ∧
      transformFunction ∅ (varFunction "0x10") = .ok tf ∧
      JumpsToValue (varMachine tf) 16 .JUMP_VAR ∧
      ∃ ret m', execution default (executeFunc default 0) .JUMP_VAR (varMachine tf) =
          .ok (ret, m') ∧
        (ReachesMatching tf ["0x10".toList] 16 ret m' ↔
          VarResolvable (varFunction "0x10") ["0x10".toList] (hex 16)) := by
  have hparse : parseProgram (varText "0x10") = .ok ⟨[varFunction "0x10"]⟩ := by decide +kernel
  have hpatch : patchProgram ⟨[varFunction "0x10"]⟩ = .ok ⟨[varFunction "0x10"]⟩ := by
    decide +kernel
  obtain ⟨tf, htf, hcode⟩ := toOption_map
    (show varCode "0x10" = some (varCells, some 0, some 3, some 3) by decide +kernel)
  obtain ⟨hinsts, h0, -⟩ : _ ∧ _ ∧ _ := by simpa only [Prod.mk.injEq] using hcode
  have hv := jumpsToValue_varMachine hinsts
  refine ⟨tf, hparse, htf, hv, ?_⟩
  exact varJump_reachesMatching_iff hparse hpatch mem_cons_self htf (b := varBlock "0x10") rfl
    ⟨varBlock "0x10", rfl, .refl⟩ (itemAt_varBlock "0x10") default (executeFunc default 0)
    (m := varMachine tf) rfl (cons_ne_nil _ _) h0 rfl hv

/-- The only successor is `0x10_1`, and the jump goes back to the first block. -/
theorem varJump_suffix_not_reached :
    ∃ tf m', parseProgram (varText "0x10_1") = .ok ⟨[varFunction "0x10_1"]⟩ ∧
      patchProgram ⟨[varFunction "0x10_1"]⟩ = .ok ⟨[varFunction "0x10_1"]⟩ ∧
      transformFunction ∅ (varFunction "0x10_1") = .ok tf ∧
      ItemAt (varBlock "0x10_1").items 1 (stmtItem varStatement) ∧
      tf.blockByName["0x0".toList]? = some 0 ∧ (varMachine tf).pc = 0 + (1 : Nat) ∧
      JumpsToValue (varMachine tf) 16 .JUMP_VAR ∧
      OnlySuccessor (varBlock "0x10_1").successor (hex 16) "0x10_1".toList ∧
      tf.blockByName["0x10_1".toList]? = some 3 ∧
      execution default (executeFunc default 0) .JUMP_VAR (varMachine tf) =
        .ok (([], none), m') ∧
      m'.pc = 0 ∧ ¬ ReachesMatching tf (varBlock "0x10_1").successor 16 ([], none) m' := by
  have hparse : parseProgram (varText "0x10_1") = .ok ⟨[varFunction "0x10_1"]⟩ := by
    decide +kernel
  have hpatch : patchProgram ⟨[varFunction "0x10_1"]⟩ = .ok ⟨[varFunction "0x10_1"]⟩ := by
    decide +kernel
  obtain ⟨tf, htf, hcode⟩ := toOption_map
    (show varCode "0x10_1" = some (varCells, some 0, some 3, none) by decide +kernel)
  obtain ⟨hinsts, h0, hsuffix, hplain⟩ : _ ∧ _ ∧ _ ∧ _ := by simpa only [Prod.mk.injEq] using hcode
  have hv := jumpsToValue_varMachine hinsts
  have honly : OnlySuccessor (varBlock "0x10_1").successor (hex 16) "0x10_1".toList :=
    ⟨mem_cons_self, by decide, fun n hn _ => mem_singleton.mp hn⟩
  -- the base address is noted for the jump, but no block has it as its name
  obtain ⟨order, ht⟩ := transformed_transformFunction htf
  obtain ⟨k, hk, hat⟩ := ht.itemAt_block (b := varBlock "0x10_1") rfl
    ⟨varBlock "0x10_1", rfl, .refl⟩ (itemAt_varBlock "0x10_1")
  obtain rfl : k = 0 := by
    have hk0 : (k : Int) = 0 := Option.some.inj (hk.symm.trans h0)
    omega
  obtain ⟨block, hblock, -, hnoted⟩ := ht.varJump _ _ hat (opcode_of_jumpsToValue hv)
  cases hblock
  obtain ⟨e, -, hexec⟩ := execution_jumpsToValue default (executeFunc default 0) hv
  have hjump := jumpToValue_noted (m := { varMachine tf with engine := e }) (v := 16) hnoted
    (by decide)
  have hplace : tf.blockByName[hex 16]? = none := hplain
  refine ⟨tf, _, hparse, hpatch, htf, itemAt_varBlock "0x10_1", h0, rfl, hv, honly, hsuffix,
    hexec.trans hjump, ?_, fun hreach => ?_⟩
  · show tf.blockByName[hex 16]?.getD 0 = 0
    rw [hplace]
    rfl
  · have hpc : tf.blockByName["0x10_1".toList]? = some (tf.blockByName[hex 16]?.getD 0) :=
      (hreach.only _ honly).2
    rw [hsuffix, hplace] at hpc
    exact absurd hpc (by decide)

end EtherVal.Vm
