import EtherVal.Lib.Numbering
import EtherVal.TacParser.Parsed
import EtherVal.TacParser.Registers

/-!
# The numbers of the functions (`transformer.go:154-169`, `transformer.go:329-371`)
-/

namespace EtherVal.TacParser
open EtherVal.Lib List

variable {ast ast' : AstProgram} {f : AstFunction} {fs : List AstFunction}

def selectorName : GoString := "__function_selector__".toList

def AstFunction.firstBase (f : AstFunction) : GoString :=
  baseAddrText ((f.blocks.head?.map AstBlock.name).getD [])

structure Numberable (ast : AstProgram) : Prop where
  blocks : ∀ f ∈ ast.functions, f.blocks ≠ []
  distinct : (ast.functions.map AstFunction.firstBase).Nodup
  selector : (ast.functions.map AstFunction.name).count selectorName = 1

structure SameFirst (f f' : AstFunction) : Prop where
  name : f'.name = f.name
  firstBase : f'.firstBase = f.firstBase
  blocks : f'.blocks = [] ↔ f.blocks = []

theorem sameFirst_of_patched {f' : AstFunction} (hname : f'.name = f.name) (h : Patched f f') :
    SameFirst f f' := by
  have hhead : f'.blocks.head?.map AstBlock.name = f.blocks.head?.map AstBlock.name := by
    have hfirst := congrArg (fun l => l.head?.map Prod.fst) h.edges
    rw [head?_map, head?_map, Option.map_map, Option.map_map] at hfirst
    exact hfirst
  refine ⟨hname, by rw [AstFunction.firstBase, hhead, AstFunction.firstBase], ?_⟩
  rw [← map_eq_nil_iff, h.edges, map_eq_nil_iff]

theorem sameFirst_patchProgram (h : patchProgram ast = .ok ast') :
    List.Forall₂ SameFirst ast.functions ast'.functions :=
  (forall₂_patchProgram h).imp fun _ _ hff => sameFirst_of_patched (by rw [hff.1]) hff.2

theorem firstBase_patchProgram (hpatch : patchProgram ast = .ok ast') :
    ast'.functions.map AstFunction.firstBase = ast.functions.map AstFunction.firstBase := by
  rw [← forall₂_eq_eq_eq, forall₂_map_left_iff, forall₂_map_right_iff]
  exact (sameFirst_patchProgram hpatch).flip.imp fun _ _ hff => hff.firstBase

theorem Numberable.patched (h : Numberable ast) (hpatch : patchProgram ast = .ok ast') :
    Numberable ast' := by
  have hall := sameFirst_patchProgram hpatch
  have hnames : ast'.functions.map AstFunction.name = ast.functions.map AstFunction.name := by
    rw [← forall₂_eq_eq_eq, forall₂_map_left_iff, forall₂_map_right_iff]
    exact hall.flip.imp fun _ _ hff => hff.name
  refine ⟨?_, firstBase_patchProgram hpatch ▸ h.distinct, hnames ▸ h.selector⟩
  intro f' hf'
  obtain ⟨f, hf, hff⟩ := exists_of_forall₂_mem hall hf'
  exact fun hnil => h.blocks f hf (hff.blocks.mp hnil)

def Addressed (f : AstFunction) : Prop := f.blocks ≠ [] ∧ f.WellNamed

theorem Addressed.address (h : Addressed f) : f.address = .ok f.firstBase := by
  obtain ⟨hne, hwell⟩ := h
  unfold AstFunction.address AstFunction.firstBase
  cases hb : f.blocks with
  | nil => exact absurd hb hne
  | cons first rest =>
    have hfirst := hwell first (by simp [hb])
    simp [hfirst.address]

theorem mapM_address (h : ∀ f ∈ fs, Addressed f) :
    fs.mapM AstFunction.address = .ok (fs.map AstFunction.firstBase) := by
  induction fs with
  | nil => rfl
  | cons f fs ih =>
    rw [mapM_cons, (h f (by simp)).address, ih fun g hg => h g (mem_cons_of_mem _ hg)]
    rfl

def numbered (ast : AstProgram) : List AstFunction :=
  ast.functions.filter (fun f => f.name = selectorName) ++ ast.functions

def encoding (ast : AstProgram) : GoMap GoString Nat :=
  ((numbered ast).map AstFunction.firstBase).foldl number ∅

theorem encodeFunctions_eq (h : ∀ f ∈ ast.functions, Addressed f) :
    encodeFunctions ast.functions = .ok (encoding ast) := by
  have hall : ∀ f ∈ numbered ast, Addressed f := by
    intro f hf
    rcases mem_append.mp hf with hf | hf
    · exact h f (mem_filter.mp hf).1
    · exact h f hf
  unfold encodeFunctions
  exact bind_ok_iff.mpr ⟨_, mapM_address hall, rfl⟩

theorem numbers_encoding (ast : AstProgram) :
    Numbers (encoding ast) ((numbered ast).map AstFunction.firstBase) := numbers_foldl _

theorem mem_numbered {a : GoString} :
    a ∈ (numbered ast).map AstFunction.firstBase ↔ a ∈ ast.functions.map AstFunction.firstBase := by
  simp only [numbered, map_append, mem_append, mem_map, mem_filter]
  constructor
  · rintro (⟨f, hf, rfl⟩ | h)
    · exact ⟨f, hf.1, rfl⟩
    · exact h
  · exact .inr

theorem size_encoding (h : Numberable ast) :
    (encoding ast).size = ast.functions.length := by
  rw [(numbers_encoding ast).size_eq h.distinct fun a => mem_numbered.symm, length_map]

theorem encoding_selector (h : Numberable ast) {sel : AstFunction} (hsel : sel ∈ ast.functions)
    (hname : sel.name = selectorName) :
    (encoding ast)[sel.firstBase]? = some 0 := by
  have hmem : sel ∈ ast.functions.filter (fun f => f.name = selectorName) :=
    mem_filter.mpr ⟨hsel, by simpa using hname⟩
  have hlen : (ast.functions.filter (fun f => f.name = selectorName)).length = 1 := by
    have hcount := h.selector
    rw [List.count, countP_map, countP_eq_length_filter] at hcount
    refine (congrArg List.length (filter_congr fun f _ => ?_)).trans hcount
    exact (beq_eq_decide _ _).symm
  obtain ⟨f, hf⟩ := length_eq_one_iff.mp hlen
  rw [hf, mem_singleton] at hmem
  subst hmem
  rw [encoding, numbered, hf, singleton_append, map_cons]
  exact foldl_number_head _ _

theorem bijOn_encoding (h : Numberable ast) :
    Set.BijOn (fun a => (encoding ast)[a]?.getD 0)
      {a | a ∈ ast.functions.map AstFunction.firstBase} (Set.Iio ast.functions.length) := by
  have hnum := numbers_encoding ast
  have hsome : ∀ a ∈ ast.functions.map AstFunction.firstBase, ∃ i, (encoding ast)[a]? = some i :=
    fun a ha => (hnum.known a).mpr (mem_numbered.mpr ha)
  rw [← size_encoding h]
  refine ⟨fun a ha => ?_, fun a ha b hb hab => ?_, fun i hi => ?_⟩
  · obtain ⟨i, hi⟩ := hsome a ha
    have hlt := hnum.lt a i hi
    simpa [hi] using hlt
  · obtain ⟨i, hi⟩ := hsome a ha
    obtain ⟨j, hj⟩ := hsome b hb
    simp only [hi, hj, Option.getD_some] at hab
    exact hnum.inj a b i hi (hab ▸ hj)
  · obtain ⟨a, ha⟩ := hnum.onto i hi
    exact ⟨a, mem_numbered.mp ((hnum.known a).mp ⟨i, ha⟩), by simp [ha]⟩

section
variable {enc : GoMap GoString Nat}

theorem transformFunctions_spec {done out : List TACFunction} (haddr : ∀ f ∈ fs, Addressed f)
    (hnd : (fs.map AstFunction.firstBase).Nodup)
    (hinj : ∀ (a b : GoString) i, enc[a]? = some i → enc[b]? = some i → a = b)
    (hlt : ∀ (a : GoString) i, enc[a]? = some i → i < done.length)
    (h : transformFunctions enc fs done = .ok out) :
    out.length = done.length ∧
      (∀ i, (∀ f ∈ fs, enc[f.firstBase]? ≠ some i) → out[i]? = done[i]?) ∧
      ∀ f ∈ fs, ∃ i tf, enc[f.firstBase]? = some i ∧ transformFunction enc f = .ok tf ∧
        out[i]? = some tf := by
  induction fs generalizing done with
  | nil =>
    cases h
    exact ⟨rfl, fun _ _ => rfl, by simp⟩
  | cons f fs ih =>
    obtain ⟨tf, htf, h⟩ := bind_ok h
    obtain ⟨a, ha, h⟩ := bind_ok h
    obtain ⟨idx, hidx, hrest⟩ := bind_ok h
    obtain rfl : f.firstBase = a := Except.ok.inj ((haddr f (by simp)).address.symm.trans ha)
    have hget : enc[f.firstBase]? = some idx := by
      unfold decodeFunction at hidx
      split at hidx
      · next i hi => rw [hi, Except.ok.inj hidx]
      · cases hidx
    rw [map_cons, nodup_cons] at hnd
    obtain ⟨hlen, hother, hmem⟩ := ih (fun g hg => haddr g (mem_cons_of_mem _ hg)) hnd.2
      (fun a i hi => by rw [length_set]; exact hlt a i hi) hrest
    refine ⟨by rw [hlen, length_set], ?_, ?_⟩
    · intro i hi
      rw [hother i fun g hg => hi g (mem_cons_of_mem _ hg), getElem?_set_ne]
      rintro rfl
      exact hi f (by simp) hget
    · intro g hg
      rcases mem_cons.mp hg with rfl | hg
      · refine ⟨idx, tf, hget, htf, ?_⟩
        rw [hother idx ?_, getElem?_set_self (hlt _ _ hget)]
        intro g' hg' hi
        have hsame := hinj _ _ _ hi hget
        exact hnd.1 (hsame ▸ mem_map_of_mem hg')
      · exact hmem g hg

theorem transformFunctions_returns (done : List TACFunction) (haddr : ∀ f ∈ fs, Addressed f)
    (hknown : ∀ f ∈ fs, ∃ i, enc[f.firstBase]? = some i)
    (hall : ∀ f ∈ fs, ∃ tf, transformFunction enc f = .ok tf) :
    ∃ out, transformFunctions enc fs done = .ok out := by
  induction fs generalizing done with
  | nil => exact ⟨done, rfl⟩
  | cons f fs ih =>
    obtain ⟨tf, htf⟩ := hall f (by simp)
    obtain ⟨i, hi⟩ := hknown f (by simp)
    obtain ⟨out, hout⟩ := ih (done.set i tf) (fun g hg => haddr g (mem_cons_of_mem _ hg))
      (fun g hg => hknown g (mem_cons_of_mem _ hg))
      (fun g hg => hall g (mem_cons_of_mem _ hg))
    have hidx : decodeFunction enc f.firstBase = .ok i := by rw [decodeFunction, hi]
    exact ⟨out, bind_ok_iff.mpr ⟨tf, htf, bind_ok_iff.mpr
      ⟨_, (haddr f (by simp)).address, bind_ok_iff.mpr ⟨i, hidx, hout⟩⟩⟩⟩

end

section
variable {input : GoString} {ast ast' : AstProgram}

theorem addressed_patched (hparse : parseProgram input = .ok ast)
    (hpatch : patchProgram ast = .ok ast') (h : Numberable ast) :
    ∀ f ∈ ast'.functions, Addressed f :=
  fun f hf => ⟨(h.patched hpatch).blocks f hf, wellNamed_patchProgram hparse hpatch f hf⟩

theorem encoding_known (ast : AstProgram) (hf : f ∈ ast.functions) :
    ∃ i, (encoding ast)[f.firstBase]? = some i :=
  ((numbers_encoding ast).known _).mpr (mem_numbered.mpr (mem_map_of_mem hf))

theorem transformProgram_inv {prog : TACProgram} (hpatch : patchProgram ast = .ok ast')
    (haddr : ∀ f ∈ ast'.functions, Addressed f) (h : transformProgram ast = .ok prog) :
    prog.functionEncoding = encoding ast' ∧
      transformFunctions (encoding ast') ast'.functions
        (List.replicate ast'.functions.length {}) = .ok prog.functions := by
  obtain ⟨a, ha, h⟩ := bind_ok h
  cases hpatch.symm.trans ha
  obtain ⟨enc, henc, h⟩ := bind_ok h
  cases (encodeFunctions_eq haddr).symm.trans henc
  obtain ⟨out, hout, h⟩ := bind_ok h
  split at h
  · cases h
  · cases h
    exact ⟨rfl, hout⟩

theorem encoding_lt (h : Numberable ast) (a : GoString) (i : Nat) (hi : (encoding ast)[a]? = some i)
    :
    i < (List.replicate ast.functions.length ({} : TACFunction)).length := by
  rw [length_replicate, ← size_encoding h]
  exact (numbers_encoding ast).lt a i hi

theorem functions_transformProgram {prog : TACProgram} (hparse : parseProgram input = .ok ast)
    (hpatch : patchProgram ast = .ok ast') (hnum : Numberable ast)
    (h : transformProgram ast = .ok prog) :
    prog.functions.length = ast.functions.length ∧
      ∀ f ∈ ast'.functions, ∃ i tf, (encoding ast')[f.firstBase]? = some i ∧
        transformFunction (encoding ast') f = .ok tf ∧ prog.functions[i]? = some tf := by
  have haddr := addressed_patched hparse hpatch hnum
  have hnum' := hnum.patched hpatch
  have hlen : ast'.functions.length = ast.functions.length :=
    (sameFirst_patchProgram hpatch).length_eq.symm
  obtain ⟨hl, -, hall⟩ := transformFunctions_spec haddr hnum'.distinct
    (numbers_encoding ast').inj (encoding_lt hnum') (transformProgram_inv hpatch haddr h).2
  rw [length_replicate] at hl
  exact ⟨hl.trans hlen, hall⟩

theorem transformProgram_returns_iff (hparse : parseProgram input = .ok ast)
    (hpatch : patchProgram ast = .ok ast') (hnum : Numberable ast) :
    (∃ prog, transformProgram ast = .ok prog) ↔
      ∀ f ∈ ast'.functions, ∃ tf, transformFunction (encoding ast') f = .ok tf := by
  have haddr := addressed_patched hparse hpatch hnum
  constructor
  · rintro ⟨prog, h⟩ f hf
    obtain ⟨i, tf, -, htf, -⟩ := (functions_transformProgram hparse hpatch hnum h).2 f hf
    exact ⟨tf, htf⟩
  · intro hall
    obtain ⟨out, hout⟩ := transformFunctions_returns (List.replicate ast'.functions.length {}) haddr
      (fun f hf => encoding_known ast' hf) hall
    have hnum' := hnum.patched hpatch
    have hne : out.isEmpty = false := by
      have hspec := transformFunctions_spec haddr hnum'.distinct (numbers_encoding ast').inj
        (encoding_lt hnum') hout
      have hpos : 0 < ast'.functions.length := by
        have hsel := count_pos_iff.mp (hnum'.selector ▸ Nat.one_pos)
        simpa using length_pos_of_mem hsel
      rw [length_replicate] at hspec
      rw [isEmpty_eq_false_iff]
      exact ne_nil_of_length_pos (hspec.1 ▸ hpos)
    refine ⟨⟨out, encoding ast'⟩, bind_ok_iff.mpr ⟨ast', hpatch, bind_ok_iff.mpr
      ⟨_, encodeFunctions_eq haddr, bind_ok_iff.mpr ⟨out, hout, ?_⟩⟩⟩⟩
    rw [hne]
    rfl

theorem callee_cell {enc : GoMap GoString Nat} {order : List AstBlock} {tf : TACFunction}
    (hreg : Registered enc f order tf) {pos : Nat} {s : AstStatement}
    (hat : ItemAt (order.flatMap AstBlock.items) pos (stmtItem s)) (hs : s.operation = .CALLPRIVATE)
    {target : AstVariable} (htarget : s.args[s.numAssignee]? = some target) {k : Nat}
    (hk : enc[target.val]? = some k) :
    tf.cell ((pos + 2 + s.numAssignee : Nat) : Int) = .ok (k : Int) := by
  have hcallee : calleeOf enc s = k := by
    rw [calleeOf, htarget, Option.bind_some, hk, Option.getD_some]
  have hfact : (pos + 2 + s.numAssignee, (calleeOf enc s : Int)) ∈ stmtFacts enc pos s := by
    simp [stmtFacts, hs]
  rw [← hcallee]
  exact hreg.fact pos s hat _ hfact

/-- The numbering of a program whose functions have distinct first addresses: it does not fail,
it is a bijection, the selector comes first, and private calls hold the number of their callee. -/
theorem functionEncoding_bijective (hparse : parseProgram input = .ok ast)
    (hpatch : patchProgram ast = .ok ast') (hnum : Numberable ast) :
    ∃ enc, encodeFunctions ast'.functions = .ok enc ∧
      (∀ a, a ∈ enc ↔ a ∈ ast.functions.map AstFunction.firstBase) ∧
      Set.BijOn (fun a => enc[a]?.getD 0) {a | a ∈ ast.functions.map AstFunction.firstBase}
        (Set.Iio ast.functions.length) ∧
      ((∃ prog, transformProgram ast = .ok prog) ↔
        ∀ f ∈ ast'.functions, ∃ tf, transformFunction enc f = .ok tf) ∧
      ∀ prog, transformProgram ast = .ok prog → prog.functionEncoding = enc ∧
        (∃ sel ∈ ast'.functions, sel.name = selectorName ∧
          ∃ tf, transformFunction enc sel = .ok tf ∧ prog.entry = some tf) ∧
        ∀ f ∈ ast'.functions, ∀ g ∈ ast'.functions, ∃ order tf tg, visitOrder f = .ok order ∧
          transformFunction enc f = .ok tf ∧ tf ∈ prog.functions ∧
          transformFunction enc g = .ok tg ∧
          ∀ pos s target, ItemAt (order.flatMap AstBlock.items) pos (stmtItem s) →
            s.operation = .CALLPRIVATE → s.args[s.numAssignee]? = some target →
            target.val = g.firstBase → ∃ k : Nat,
              tf.cell ((pos + 2 + s.numAssignee : Nat) : Int) = .ok (k : Int) ∧
              prog.functions[k]? = some tg := by
  have haddr := addressed_patched hparse hpatch hnum
  have hnum' := hnum.patched hpatch
  have hbases : ast'.functions.map AstFunction.firstBase =
      ast.functions.map AstFunction.firstBase := firstBase_patchProgram hpatch
  have hlen : ast'.functions.length = ast.functions.length :=
    (sameFirst_patchProgram hpatch).length_eq.symm
  refine ⟨encoding ast', encodeFunctions_eq haddr, fun a => ?_, ?_,
    transformProgram_returns_iff hparse hpatch hnum, fun prog hprog => ?_⟩
  · rw [GoMap.mem_iff, (numbers_encoding ast').known, mem_numbered, hbases]
  · rw [← hbases, ← hlen]
    exact bijOn_encoding hnum'
  have hall := (functions_transformProgram hparse hpatch hnum hprog).2
  refine ⟨(transformProgram_inv hpatch haddr hprog).1, ?_, fun f hf g hg => ?_⟩
  · have hsel := count_pos_iff.mp (hnum'.selector ▸ Nat.one_pos)
    obtain ⟨sel, hmem, hname⟩ := mem_map.mp hsel
    obtain ⟨i, tf, hi, htf, hget⟩ := hall sel hmem
    rw [encoding_selector hnum' hmem hname] at hi
    cases hi
    refine ⟨sel, hmem, hname, tf, htf, ?_⟩
    rw [TACProgram.entry, head?_eq_getElem?, hget]
  · obtain ⟨i, tf, -, htf, hi⟩ := hall f hf
    obtain ⟨k, tg, hk, htg, hget⟩ := hall g hg
    obtain ⟨order, horder, hreg⟩ := registered_transformFunction htf
    refine ⟨order, tf, tg, horder, htf, mem_of_getElem? hi, htg, ?_⟩
    intro pos s target hat hs htarget hval
    exact ⟨k, callee_cell hreg hat hs htarget (hval ▸ hk), hget⟩

end

/-! The selector stands second and calls the first function. -/

def callText : GoString :=
  ("function 0x10(v5) private \x7b Begin block 0x10 prev = [], succ = []" ++
    " 0x10: RETURNPRIVATE v4, v5 \x7d" ++
    " function __function_selector__() public \x7b Begin block 0x0 prev = [], succ = []" ++
    " 0x0: v1 = CALLPRIVATE v0(0x10), v2 0x2: STOP \x7d").toList

def callCallee : AstFunction :=
  ⟨"0x10".toList, ["v5".toList], [⟨"0x10".toList, "0x10".toList, [], [],
    [⟨"0x10".toList, "0x10".toList, .RETURNPRIVATE,
      [⟨"v4".toList, [], .VARIABLE⟩, ⟨"v5".toList, [], .VARIABLE⟩], 0, "0x10".toList, false⟩]⟩],
    false⟩

def callStmt : AstStatement :=
  ⟨"0x0".toList, "0x0".toList, .CALLPRIVATE, [⟨"v1".toList, [], .VARIABLE⟩,
    ⟨"v0".toList, "0x10".toList, .CONSTANT⟩, ⟨"v2".toList, [], .VARIABLE⟩], 1, "0x0".toList, false⟩

def callSelector : AstFunction :=
  ⟨selectorName, [], [⟨"0x0".toList, "0x0".toList, [], [],
    [callStmt, ⟨"0x2".toList, "0x2".toList, .STOP, [], 0, "0x0".toList, false⟩]⟩], true⟩

def callProgram : AstProgram := ⟨[callCallee, callSelector]⟩

theorem functionEncoding_selector_second :
    parseProgram callText = .ok callProgram ∧ (transformProgram callProgram).toOption.isSome ∧
      ∃ enc, encodeFunctions callProgram.functions = .ok enc ∧
        Set.BijOn (fun a => enc[a]?.getD 0) {a | a ∈ ["0x10".toList, "0x0".toList]}
        (Set.Iio 2) := by
  have hparse : parseProgram callText = .ok callProgram := by decide +kernel
  have hpatch : patchProgram callProgram = .ok callProgram := by decide +kernel
  have hnum : Numberable callProgram := ⟨by decide, by decide, by decide⟩
  obtain ⟨enc, henc, -, hbij, -⟩ := functionEncoding_bijective hparse hpatch hnum
  exact ⟨hparse, by decide +kernel, enc, henc, hbij⟩

end EtherVal.TacParser
