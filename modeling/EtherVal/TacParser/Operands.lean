import EtherVal.TacParser.Resolve

/-!
# Registers and operands
-/

namespace EtherVal.TacParser
open EtherVal.Lib List

variable {f f' : TACFunction} {idx : Nat} {it : Item} {block : AstBlock}

def introducer (occ : List AstVariable) (name : GoString) : Option AstVariable :=
  occ.find? fun v => v.name = name

variable {occ : List AstVariable}
variable {name : GoString}

theorem introducer_append_of_mem (h : ∃ v ∈ occ, v.name = name) (more : List AstVariable) :
    introducer (occ ++ more) name = introducer occ name := by
  obtain ⟨v, hv, hn⟩ := h
  have hsome : (occ.find? fun v => v.name = name).isSome := by
    rw [find?_isSome]
    exact ⟨v, hv, by simpa using hn⟩
  rw [introducer, find?_append, Option.or_of_isSome hsome, introducer]

theorem introducer_append_of_not_mem (h : ¬ ∃ v ∈ occ, v.name = name) (more : List AstVariable) :
    introducer (occ ++ more) name = introducer more name := by
  have hnone : (occ.find? fun v => v.name = name) = none := by
    rw [find?_eq_none]
    intro v hv hn
    exact h ⟨v, hv, by simpa using hn⟩
  rw [introducer, find?_append, hnone, Option.none_or, introducer]

variable {v : AstVariable}

theorem introducer_eq_some (h : introducer occ name = some v) :
    v ∈ occ ∧ v.name = name := by
  have hname := find?_some h
  exact ⟨mem_of_find?_eq_some h, by simpa using hname⟩

def introducedAs (occ : List AstVariable) (name : GoString) : Option VarType :=
  (introducer occ name).map AstVariable.typ

def AstVariable.constant (v : AstVariable) : Option Word := fromHex (trimZeros (v.val.drop 2))

structure RegTable (f : TACFunction) (occ : List AstVariable) : Prop where
  lt : ∀ (name : GoString) i, f.variableEncoding[name]? = some i → i < f.numVars
  onto : ∀ i < f.numVars, ∃ name : GoString, f.variableEncoding[name]? = some i
  inj : ∀ (name name' : GoString) i, f.variableEncoding[name]? = some i →
    f.variableEncoding[name']? = some i → name = name'
  known : ∀ name : GoString, (∃ i, f.variableEncoding[name]? = some i) ↔ ∃ v ∈ occ, v.name = name
  symLt : ∀ c ∈ f.constSym, c.index < f.numVars
  value : ∀ c ∈ f.constSym, ∃ v : AstVariable, introducer occ v.name = some v ∧
    v.typ = .CONSTANT ∧ v.constant = some c.value ∧ f.variableEncoding[v.name]? = some c.index
  const : ∀ (name : GoString) i, f.variableEncoding[name]? = some i →
    ((∃ c ∈ f.constSym, c.index = i) ↔ introducedAs occ name = some .CONSTANT)

def Extends (f f' : TACFunction) : Prop :=
  ∀ (name : GoString) i, f.variableEncoding[name]? = some i → f'.variableEncoding[name]? = some i

theorem Extends.trans {g h : TACFunction} (hg : Extends f g) (hh : Extends g h) : Extends f h :=
  fun name i hi => hh name i (hg name i hi)

theorem RegTable.congr {g : TACFunction} (h : RegTable f occ)
    (henc : g.variableEncoding = f.variableEncoding) (hnum : g.numVars = f.numVars)
    (hsym : g.constSym = f.constSym) : RegTable g occ := by
  constructor
  · simpa only [henc, hnum] using h.lt
  · simpa only [henc, hnum] using h.onto
  · simpa only [henc] using h.inj
  · simpa only [henc] using h.known
  · simpa only [hsym, hnum] using h.symLt
  · simpa only [henc, hsym] using h.value
  · simpa only [henc, hsym] using h.const

theorem RegTable.again (h : RegTable f occ) (hv : f.variableEncoding[v.name]? = some idx) :
    RegTable f (occ ++ [v]) := by
  refine ⟨h.lt, h.onto, h.inj, ?_, h.symLt, ?_, ?_⟩
  · intro name
    rw [h.known]
    constructor
    · rintro ⟨u, hu, hn⟩
      exact ⟨u, mem_append_left _ hu, hn⟩
    · rintro ⟨u, hu, rfl⟩
      rcases mem_append.mp hu with hu | hu
      · exact ⟨u, hu, rfl⟩
      · obtain rfl := mem_singleton.mp hu
        exact (h.known _).mp ⟨idx, hv⟩
  · intro c hc
    obtain ⟨u, hu, htyp, hval, henc⟩ := h.value c hc
    refine ⟨u, ?_, htyp, hval, henc⟩
    rw [introducer_append_of_mem ((h.known u.name).mp ⟨c.index, henc⟩), hu]
  · intro name i hi
    rw [introducedAs, introducer_append_of_mem ((h.known name).mp ⟨i, hi⟩)]
    exact h.const name i hi

theorem RegTable.new (h : RegTable f occ) (hv : f.variableEncoding[v.name]? = none)
    {syms : List ConstSymPair}
    (henc : f'.variableEncoding = f.variableEncoding.insert v.name f.numVars)
    (hnum : f'.numVars = f.numVars + 1) (hsym : f'.constSym = f.constSym ++ syms)
    (hsyms : ∀ c ∈ syms, c.index = f.numVars ∧ v.constant = some c.value)
    (hconst : syms ≠ [] ↔ v.typ = .CONSTANT) : RegTable f' (occ ++ [v]) := by
  have hget : ∀ name : GoString, f'.variableEncoding[name]? =
      if v.name = name then some f.numVars else f.variableEncoding[name]? := by
    intro name
    rw [henc, GoMap.get_insert]
  have hfresh : ¬ ∃ u ∈ occ, u.name = v.name := by
    rw [← h.known, hv]
    simp
  have hfirst : introducer (occ ++ [v]) v.name = some v := by
    rw [introducer_append_of_not_mem hfresh]
    simp [introducer]
  refine ⟨?_, ?_, ?_, ?_, ?_, ?_, ?_⟩
  · intro name i hi
    rw [hget] at hi
    split at hi
    · cases hi
      omega
    · have := h.lt name i hi
      omega
  · intro i hi
    by_cases hlast : i = f.numVars
    · exact ⟨v.name, by rw [hget, if_pos rfl, hlast]⟩
    · obtain ⟨name, hname⟩ := h.onto i (by omega)
      refine ⟨name, ?_⟩
      rw [hget, if_neg ?_, hname]
      rintro rfl
      rw [hv] at hname
      cases hname
  · intro name name' i hi hi'
    rw [hget] at hi hi'
    split at hi <;> split at hi'
    · next h1 h2 => rw [← h1, ← h2]
    · cases hi
      exact absurd (h.lt _ _ hi') (by omega)
    · cases hi'
      exact absurd (h.lt _ _ hi) (by omega)
    · exact h.inj name name' i hi hi'
  · intro name
    rw [hget]
    split
    · next hn => exact ⟨fun _ => ⟨v, by simp, hn⟩, fun _ => ⟨_, rfl⟩⟩
    · next hn =>
      rw [h.known]
      constructor
      · rintro ⟨u, hu, hname⟩
        exact ⟨u, mem_append_left _ hu, hname⟩
      · rintro ⟨u, hu, hname⟩
        rcases mem_append.mp hu with hu | hu
        · exact ⟨u, hu, hname⟩
        · obtain rfl := mem_singleton.mp hu
          exact absurd hname hn
  · intro c hc
    rw [hsym] at hc
    rcases mem_append.mp hc with hc | hc
    · have := h.symLt c hc
      omega
    · have := (hsyms c hc).1
      omega
  · intro c hc
    rw [hsym] at hc
    rcases mem_append.mp hc with hc | hc
    · obtain ⟨u, hu, htyp, hval, henc⟩ := h.value c hc
      have hknown := (h.known u.name).mp ⟨c.index, henc⟩
      refine ⟨u, by rw [introducer_append_of_mem hknown, hu], htyp, hval, ?_⟩
      rw [hget, if_neg ?_, henc]
      intro hn
      exact hfresh (hn ▸ hknown)
    · obtain ⟨hi, hval⟩ := hsyms c hc
      refine ⟨v, hfirst, hconst.mp (ne_nil_of_mem hc), hval, ?_⟩
      rw [hget, if_pos rfl, hi]
  · intro name i hi
    rw [hget] at hi
    rw [hsym]
    split at hi
    · next hn =>
      cases hi
      rw [← hn, introducedAs, hfirst, Option.map_some, Option.some.injEq, ← hconst]
      constructor
      · rintro ⟨c, hc, hci⟩ rfl
        rw [append_nil] at hc
        exact absurd (h.symLt c hc) (by omega)
      · intro hne
        obtain ⟨c, hc⟩ := exists_mem_of_ne_nil _ hne
        exact ⟨c, mem_append_right _ hc, (hsyms c hc).1⟩
    · rw [introducedAs, introducer_append_of_mem ((h.known name).mp ⟨i, hi⟩), ← introducedAs,
        ← h.const name i hi]
      constructor
      · rintro ⟨c, hc, hci⟩
        rcases mem_append.mp hc with hc | hc
        · exact ⟨c, hc, hci⟩
        · have := (hsyms c hc).1
          exact absurd (h.lt _ _ hi) (by omega)
      · rintro ⟨c, hc, hci⟩
        exact ⟨c, mem_append_left _ hc, hci⟩

theorem extends_insert {i : Nat} (hnew : f.variableEncoding[name]? = none)
    (henc : f'.variableEncoding = f.variableEncoding.insert name i) : Extends f f' := by
  intro name' j hj
  rw [henc, GoMap.get_insert, if_neg ?_, hj]
  rintro rfl
  rw [hnew] at hj
  cases hj

def TACFunction.signature (f : TACFunction) : List Nat × Bool := (f.args, f.isPublic)

inductive NoteTable where
  | reorderConst | reorderPhi | fallthroughStop | fallthroughJump | fallthroughThrow
  deriving DecidableEq

def TACFunction.notes (f : TACFunction) : NoteTable → GoMap Int Bool
  | .reorderConst => f.reorderConstAddr
  | .reorderPhi => f.reorderPhiAddr
  | .fallthroughStop => f.fallthroughStopAddr
  | .fallthroughJump => f.fallthroughJumpAddr
  | .fallthroughThrow => f.fallthroughThrowAddr

structure Note where
  table : NoteTable
  pos : Nat
  value : Bool

def addNote (t : NoteTable) (m : GoMap Int Bool) (n : Note) : GoMap Int Bool :=
  if n.table = t then m.insert n.pos n.value else m

structure Registers (f f' : TACFunction) (v : AstVariable) (idx : Nat) : Prop where
  insts : f'.insts = f.insts
  signature : f'.signature = f.signature
  notes : f'.notes = f.notes
  register : f'.variableEncoding[v.name]? = some idx
  ext : Extends f f'
  table : ∀ occ, RegTable f occ → RegTable f' (occ ++ [v])

theorem registers_addVar (f : TACFunction) (hv : v.typ ≠ .CONSTANT) :
    Registers f (f.addVar v.name).2 v (f.addVar v.name).1 := by
  unfold TACFunction.addVar
  cases hget : f.variableEncoding[v.name]? with
  | some id => exact ⟨rfl, rfl, rfl, hget, fun _ _ h => h, fun _ h => h.again hget⟩
  | none =>
    refine ⟨rfl, rfl, rfl, ?_, extends_insert hget rfl, fun _ h => ?_⟩
    · dsimp only
      rw [GoMap.get_insert, if_pos rfl]
    · have hsym : f.constSym = f.constSym ++ [] := (append_nil _).symm
      exact h.new hget rfl rfl hsym (by simp) (by simpa using hv)

theorem registers_encodeVar (h : f.encodeVar v = .ok (idx, f')) :
    Registers f f' v idx := by
  unfold TACFunction.encodeVar at h
  split at h
  · next hv =>
    have hreg := registers_addVar f (v := v) (by rw [hv]; decide)
    rw [Except.ok.inj h] at hreg
    exact hreg
  · next hv =>
    split at h
    · next id hget =>
      cases h
      exact ⟨rfl, rfl, rfl, hget, fun _ _ h => h, fun _ h => h.again hget⟩
    · next hget =>
      simp only [TACFunction.addVar, hget] at h
      split at h
      · cases h
      · split at h
        · cases h
        · next value hval =>
          cases h
          refine ⟨rfl, rfl, rfl, ?_, extends_insert hget rfl, fun _ h => ?_⟩
          · dsimp only
            rw [GoMap.get_insert, if_pos rfl]
          · exact h.new hget rfl rfl rfl
              (by simpa [AstVariable.constant] using hval) (by simpa using hv)

structure Encodes (f f' : TACFunction) (vars : List (AstVariable × Nat))
    (facts : List (Nat × Int)) (notes : List Note) : Prop where
  cells : ∃ cells, f'.insts = f.insts ++ cells
  operand : ∀ p ∈ vars, ∃ idx : Nat, f'.insts[p.2]? = some (idx : Int) ∧
    f'.variableEncoding[p.1.name]? = some idx
  fact : ∀ q ∈ facts, f'.insts[q.1]? = some q.2
  note : ∀ t, f'.notes t = notes.foldl (addNote t) (f.notes t)
  ext : Extends f f'
  signature : f'.signature = f.signature
  table : ∀ occ, RegTable f occ → RegTable f' (occ ++ vars.map Prod.fst)

namespace Encodes
variable {f g h : TACFunction} {vars vars' : List (AstVariable × Nat)}
  {facts facts' : List (Nat × Int)}
  {notes notes' : List Note}

theorem trans (hf : Encodes f g vars facts notes) (hg : Encodes g h vars' facts' notes') :
    Encodes f h (vars ++ vars') (facts ++ facts') (notes ++ notes') := by
  obtain ⟨c1, hc1⟩ := hf.cells
  obtain ⟨c2, hc2⟩ := hg.cells
  have hold : ∀ {i : Nat} {c : Int}, g.insts[i]? = some c → h.insts[i]? = some c := by
    intro i c hi
    rw [hc2, List.getElem?_append_left (List.getElem?_eq_some_iff.mp hi).1, hi]
  refine ⟨⟨c1 ++ c2, by rw [hc2, hc1, append_assoc]⟩, ?_, ?_, fun t => ?_, hf.ext.trans hg.ext,
    hg.signature.trans hf.signature, ?_⟩
  · intro p hp
    rcases mem_append.mp hp with hp | hp
    · obtain ⟨idx, hcell, hreg⟩ := hf.operand p hp
      exact ⟨idx, hold hcell, hg.ext _ _ hreg⟩
    · exact hg.operand p hp
  · intro q hq
    rcases mem_append.mp hq with hq | hq
    · exact hold (hf.fact q hq)
    · exact hg.fact q hq
  · rw [foldl_append, ← hf.note t, hg.note t]
  · intro occ hocc
    rw [map_append, ← append_assoc]
    exact hg.table _ (hf.table occ hocc)

theorem of_same (hinsts : g.insts = f.insts) (henc : g.variableEncoding = f.variableEncoding)
    (hnum : g.numVars = f.numVars) (hsym : g.constSym = f.constSym)
    (hsig : g.signature = f.signature)
    (hnote : ∀ t, g.notes t = notes.foldl (addNote t) (f.notes t)) : Encodes f g [] [] notes := by
  refine ⟨⟨[], by simp [hinsts]⟩, by simp, by simp, hnote, ?_, hsig, ?_⟩
  · intro name i hi
    rwa [henc]
  · intro occ h
    rw [map_nil, append_nil]
    exact h.congr henc hnum hsym

theorem refl (f : TACFunction) : Encodes f f [] [] [] :=
  of_same rfl rfl rfl rfl rfl fun _ => rfl

theorem push (f : TACFunction) (c : Int) : Encodes f (f.push c) [] [(f.insts.length, c)] [] := by
  refine ⟨⟨[c], rfl⟩, by simp, ?_, fun _ => rfl, fun _ _ hi => hi, rfl, ?_⟩
  · intro q hq
    rw [mem_singleton.mp hq]
    simp [TACFunction.push]
  · intro occ hocc
    rw [map_nil, append_nil]
    exact hocc.congr rfl rfl rfl

theorem of_encodeVar (h : f.encodeVar v = .ok (idx, g)) :
    Encodes f (g.push idx) [(v, f.insts.length)] [] [] := by
  have hreg := registers_encodeVar h
  refine ⟨⟨[(idx : Int)], by rw [TACFunction.push, hreg.insts]⟩, ?_, by simp,
    fun t => congrFun hreg.notes t, hreg.ext, hreg.signature, ?_⟩
  · intro p hp
    rw [mem_singleton.mp hp]
    refine ⟨idx, ?_, hreg.register⟩
    simp [TACFunction.push, hreg.insts]
  · intro occ hocc
    exact (hreg.table occ hocc).congr rfl rfl rfl

theorem mono (h : Encodes f g vars facts notes) (hsub : ∀ q ∈ facts', q ∈ facts) :
    Encodes f g vars facts' notes :=
  { h with fact := fun q hq => h.fact q (hsub q hq) }

theorem of_pushVariables {n : Nat} {vs : List AstVariable} (h : f.pushVariables n vs = .ok g) :
    Encodes f g ((vs.take n).zipIdx f.insts.length) [] [] := by
  induction n generalizing vs f with
  | zero =>
    obtain rfl := Except.ok.inj h
    simpa using refl f
  | succ n ih =>
    cases vs with
    | nil => cases h
    | cons v vs =>
      obtain ⟨⟨idx, f1⟩, h1, h2⟩ := bind_ok h
      have hrest := ih h2
      have hlen : (f1.push idx).insts.length = f.insts.length + 1 := by
        simp [TACFunction.push, (registers_encodeVar h1).insts]
      rw [hlen] at hrest
      have hall := (of_encodeVar h1).trans hrest
      simpa [zipIdx_cons] using hall

end Encodes

def stmtVars (b : Nat) (s : AstStatement) : List (AstVariable × Nat) :=
  match s.operation with
  | .CALLPRIVATE => (s.args.take s.numAssignee).zipIdx (b + 2) ++
      (s.args.drop (s.numAssignee + 1)).zipIdx (b + 3 + s.numAssignee)
  | .RETURNPRIVATE => s.args.tail.zipIdx (b + 2)
  | _ => (s.args.take (opcodeOf s).operands).zipIdx (b + 1)

def calleeOf (enc : GoMap GoString Nat) (s : AstStatement) : Nat :=
  ((s.args[s.numAssignee]?).bind fun target => enc[target.val]?).getD 0

def stmtFacts (enc : GoMap GoString Nat) (b : Nat) (s : AstStatement) : List (Nat × Int) :=
  match s.operation with
  | .CALLPRIVATE => [(b + 2 + s.numAssignee, (calleeOf enc s : Int))]
  | .RETURNPRIVATE => [(b + 1, ((s.args.length - 1 : Nat) : Int))]
  | _ => []

/-- Moved declarations and inserted statements are noted under the position of their instruction. -/
def stmtNotes (b : Nat) (s : AstStatement) : List Note :=
  match s.operation with
  | .CONST => [⟨.reorderConst, b, s.patchReorder⟩]
  | .STOP => if isAuxiliary s then [⟨.fallthroughStop, b, true⟩] else []
  | .THROW => if isAuxiliary s then [⟨.fallthroughThrow, b, true⟩] else []
  | .JUMPI => if isAuxiliary s then [⟨.fallthroughJump, b, true⟩] else []
  | _ => []

section
variable {enc : GoMap GoString Nat} {s : AstStatement} {f f' : TACFunction}

theorem stmtVars_fixed (b : Nat) (hcall : s.operation ≠ .CALLPRIVATE)
    (hret : s.operation ≠ .RETURNPRIVATE) :
    stmtVars b s = (s.args.take (opcodeOf s).operands).zipIdx (b + 1) := by
  unfold stmtVars
  split
  · next h => exact absurd h hcall
  · next h => exact absurd h hret
  · rfl

theorem stmtFacts_fixed (b : Nat) (hcall : s.operation ≠ .CALLPRIVATE)
    (hret : s.operation ≠ .RETURNPRIVATE) : stmtFacts enc b s = [] := by
  unfold stmtFacts
  split
  · next h => exact absurd h hcall
  · next h => exact absurd h hret
  · rfl

theorem encodes_transFixed {op : TACOp} {n : Nat} (h : transFixed op n s f = .ok f') :
    Encodes f f' ((s.args.take n).zipIdx (f.insts.length + 1)) [] [] := by
  have hvars := Encodes.of_pushVariables h
  have hlen : (f.push op.code).insts.length = f.insts.length + 1 := by simp [TACFunction.push]
  rw [hlen] at hvars
  exact ((Encodes.push f op.code).trans hvars).mono (by simp)

theorem encodes_noteStmt (f : TACFunction) (s : AstStatement) :
    Encodes f (f.noteStmt s) [] [] (stmtNotes f.insts.length s) := by
  refine .of_same (insts_noteStmt f s) ?_ ?_ ?_ ?_ fun t => ?_
  on_goal 5 =>
    unfold TACFunction.noteStmt stmtNotes
    cases s.operation
    case CONST | THROW | STOP | JUMP | JUMPI => cases isAuxiliary s <;> cases t <;> rfl
    all_goals rfl
  all_goals
    unfold TACFunction.noteStmt
    dsimp only
    repeat' split
    all_goals rfl

theorem encodes_dispatcher (h : transformerDispatcher enc s f = .ok f') :
    Encodes f f' (stmtVars f.insts.length s) (stmtFacts enc f.insts.length s)
      (stmtNotes f.insts.length s) := by
  cases dispatched h with
  | fixed hcall hret _ h =>
    rw [stmtVars_fixed _ hcall hret, stmtFacts_fixed _ hcall hret]
    have hall := (encodes_noteStmt f s).trans (encodes_transFixed h)
    rw [insts_noteStmt] at hall
    simpa only [nil_append, append_nil] using hall
  | @callprivate target args f1 idx hs hdrop h1 hidx h =>
    have hhead := ((Encodes.push f TACOp.CALLPRIVATE.code).trans
      (Encodes.push (f.push TACOp.CALLPRIVATE.code) s.numAssignee)).trans
      (Encodes.of_pushVariables h1)
    have htail := (Encodes.push f1 idx).trans (Encodes.of_pushVariables h)
    have hlen : f1.insts.length = f.insts.length + 2 + s.numAssignee := by
      obtain ⟨cells, hcells, hn⟩ := (appends_pushVariables h1).cells
      rw [hcells, length_append, hn]
      simp [TACFunction.push]
    have htarget : s.args[s.numAssignee]? = some target := by
      have := congrArg (fun l => l[0]?) hdrop
      simpa using this
    have hargs : s.args.drop (s.numAssignee + 1) = args := by
      rw [← tail_drop, hdrop, tail_cons]
    have hcallee : calleeOf enc s = idx := by
      unfold decodeFunction at hidx
      split at hidx
      · next i hi =>
        rw [calleeOf, htarget, Option.bind_some, hi, ← Except.ok.inj hidx]
        rfl
      · cases hidx
    have hall := hhead.trans htail
    have hlen1 : (f1.push (idx : Int)).insts.length = f.insts.length + 3 + s.numAssignee := by
      simp only [TACFunction.push, length_append, length_singleton, hlen]
      omega
    have hlen2 : ((f.push TACOp.CALLPRIVATE.code).push (s.numAssignee : Int)).insts.length
        = f.insts.length + 2 := by simp [TACFunction.push]
    have hvars : stmtVars f.insts.length s =
        (s.args.take s.numAssignee).zipIdx (f.insts.length + 2) ++
        args.zipIdx (f.insts.length + 3 + s.numAssignee) := by
      simp only [stmtVars, hs, hargs]
    rw [hlen1, hlen2, take_length, nil_append, nil_append, nil_append] at hall
    have hnotes : stmtNotes f.insts.length s = [] := by simp only [stmtNotes, hs]
    rw [hvars, hnotes]
    refine hall.mono ?_
    simp [stmtFacts, hs, hcallee, hlen]
  | @returnprivate addr vars hs hargs h =>
    have hall := ((Encodes.push f TACOp.RETURNPRIVATE.code).trans
      (Encodes.push (f.push TACOp.RETURNPRIVATE.code) vars.length)).trans
      (Encodes.of_pushVariables h)
    have hvars : stmtVars f.insts.length s = vars.zipIdx (f.insts.length + 2) := by
      simp only [stmtVars, hs, hargs, tail_cons]
    have hnotes : stmtNotes f.insts.length s = [] := by simp only [stmtNotes, hs]
    rw [hvars, hnotes]
    simp only [TACFunction.push, length_append, length_cons, length_nil,
      take_length, nil_append] at hall
    refine hall.mono ?_
    simp [stmtFacts, hs, hargs]

end

section
variable {γ : Type}

/-- What `entries` lists for statements one after the other, the first at position `b`. -/
def stmtsAt (entries : Nat → AstStatement → List γ) (size : AstStatement → Nat) :
    Nat → List AstStatement → List γ
  | _, [] => []
  | b, s :: rest => entries b s ++ stmtsAt entries size (b + size s) rest

namespace AstBlock

def phiStart (b : Nat) (block : AstBlock) : Nat :=
  b + 1 + totalSize (block.constStatements.map stmtItem)

def otherStart (b : Nat) (block : AstBlock) : Nat := block.phiStart b + totalSize block.phiItems

def entriesAt (stmt phi : Nat → AstStatement → List γ) (b : Nat) (block : AstBlock) : List γ :=
  stmtsAt stmt stmtSize (b + 1) block.constStatements ++
    stmtsAt phi phiSize (block.phiStart b + 2) block.phiStatements ++
    stmtsAt stmt stmtSize (block.otherStart b) block.otherStatements

end AstBlock

def codeAt (stmt phi : Nat → AstStatement → List γ) : Nat → List AstBlock → List γ
  | _, [] => []
  | b, block :: rest =>
    block.entriesAt stmt phi b ++ codeAt stmt phi (b + totalSize block.items) rest

end

def phiVar (b : Nat) (s : AstStatement) : List (AstVariable × Nat) := s.args.zipIdx (b + 2)

def phiFact (b : Nat) (_ : AstStatement) : List (Nat × Int) := [(b, TACOp.PHI.code)]

def phiNote (b : Nat) (s : AstStatement) : List Note := [⟨.reorderPhi, b, s.patchReorder⟩]

def codeVars : Nat → List AstBlock → List (AstVariable × Nat) := codeAt stmtVars phiVar

theorem Emits.length_eq (h : Emits f f' it) :
    f'.insts.length = f.insts.length + it.size := by
  obtain ⟨rest, hinsts, hsize, -⟩ := h.cells
  rw [hinsts, length_append, length_cons, hsize]

variable {items : List Item}

theorem EmitsAll.length_eq (h : EmitsAll f f' items) :
    f'.insts.length = f.insts.length + totalSize items := by
  induction items generalizing f with
  | nil =>
    obtain rfl := h
    simp
  | cons it items ih =>
    obtain ⟨g, hg, hrest⟩ := h
    rw [ih hrest, hg.length_eq, totalSize_cons]
    omega

section
variable {enc : GoMap GoString Nat} {f f' : TACFunction}

theorem encodes_transOthers {stmts : List AstStatement} (h : transOthers enc stmts f = .ok f') :
    Encodes f f' (stmtsAt stmtVars stmtSize f.insts.length stmts)
      (stmtsAt (stmtFacts enc) stmtSize f.insts.length stmts)
      (stmtsAt stmtNotes stmtSize f.insts.length stmts) := by
  induction stmts generalizing f with
  | nil =>
    obtain rfl := Except.ok.inj h
    exact .refl f
  | cons s stmts ih =>
    obtain ⟨f1, h1, h2⟩ := bind_ok h
    have hlen := (emits_dispatcher h1).length_eq
    have hrest := ih h2
    rw [hlen] at hrest
    exact (encodes_dispatcher h1).trans hrest

theorem encodes_pushChoices {ambiguous : AstVariable → Bool} {phiAddr : Int}
    {args : List AstVariable} (h : pushChoices ambiguous phiAddr args f = .ok f') :
    Encodes f f' (args.zipIdx f.insts.length) [] [] := by
  induction args generalizing f with
  | nil =>
    obtain rfl := Except.ok.inj h
    exact .refl f
  | cons arg rest ih =>
    obtain ⟨⟨idx, f1⟩, h1, h2⟩ := bind_ok h
    have hinsts := (registers_encodeVar h1).insts
    have hnote : Encodes (f1.push idx)
        (if ambiguous arg then (f1.push idx).noteChoice phiAddr idx else f1.push idx) [] [] [] := by
      split
      · exact .of_same rfl rfl rfl rfl rfl fun _ => rfl
      · exact .refl _
    have hlen : (if ambiguous arg then (f1.push (idx : Int)).noteChoice phiAddr idx
        else f1.push idx).insts.length = f.insts.length + 1 := by
      split <;> simp [TACFunction.noteChoice, TACFunction.push, hinsts]
    have hrest := ih h2
    rw [hlen] at hrest
    have hall := ((Encodes.of_encodeVar h1).trans hnote).trans hrest
    simpa [zipIdx_cons] using hall

theorem encodes_transPhi {s : AstStatement} (h : transPhi s f = .ok f') :
    Encodes f f' (phiVar f.insts.length s) (phiFact f.insts.length s)
    (phiNote f.insts.length s) := by
  unfold transPhi at h
  split at h
  · next dest choice rest hargs =>
    obtain ⟨⟨idx, g⟩, h1, h2⟩ := bind_ok h
    set g0 := f.notePhi s.patchReorder
      ((choice :: rest).any (f.ambiguousChoice (choice :: rest))) with hg0
    have hnote : Encodes f g0 [] [] (phiNote f.insts.length s) :=
      .of_same rfl rfl rfl rfl rfl fun t => by cases t <;> rfl
    have hlen0 : ((g0.push TACOp.PHI.code).push ((choice :: rest).length : Int)).insts.length
        = f.insts.length + 2 := by simp [TACFunction.push, hg0, TACFunction.notePhi]
    have hdest := Encodes.of_encodeVar h1
    have hinsts := (registers_encodeVar h1).insts
    have hlen1 : (g.push (idx : Int)).insts.length = f.insts.length + 3 := by
      rw [TACFunction.push, length_append, hinsts, hlen0]
      rfl
    have hrest := encodes_pushChoices h2
    rw [hlen0] at hdest
    rw [hlen1] at hrest
    have hall := ((hnote.trans ((Encodes.push g0 TACOp.PHI.code).trans (Encodes.push _ _))).trans
      hdest).trans hrest
    have hlen : g0.insts.length = f.insts.length := rfl
    rw [hlen] at hall
    rw [phiVar, hargs, zipIdx_cons]
    exact hall.mono (by simp [phiFact])
  · cases h

variable {phis : List AstStatement}

theorem encodes_transPhis (h : transPhis phis f = .ok f') :
    Encodes f f' (stmtsAt phiVar phiSize f.insts.length phis)
      (stmtsAt phiFact phiSize f.insts.length phis)
      (stmtsAt phiNote phiSize f.insts.length phis) := by
  induction phis generalizing f with
  | nil =>
    obtain rfl := Except.ok.inj h
    exact .refl f
  | cons s phis ih =>
    obtain ⟨f1, h1, h2⟩ := bind_ok h
    obtain ⟨cells, hcells, hn⟩ := (appends_transPhi h1).cells
    have hrest := ih h2
    rw [hcells, length_append, hn] at hrest
    exact (encodes_transPhi h1).trans hrest

theorem encodes_transPhiStatements (h : transPhiStatements phis f = .ok f') :
    Encodes f f' (stmtsAt phiVar phiSize (f.insts.length + 2) phis)
      (stmtsAt phiFact phiSize (f.insts.length + 2) phis)
      (stmtsAt phiNote phiSize (f.insts.length + 2) phis) := by
  unfold transPhiStatements at h
  split at h
  · next hp =>
    cases h
    rw [length_eq_zero_iff.mp hp]
    exact .refl f
  · obtain ⟨f1, h1, h2⟩ := bind_ok h
    cases h2
    have hphis := encodes_transPhis h1
    have hlen : ((f.push TACOp.PHI_START.code).push (phis.length : Int)).insts.length
        = f.insts.length + 2 := by simp [TACFunction.push]
    rw [hlen] at hphis
    have hall := ((Encodes.push f TACOp.PHI_START.code).trans (Encodes.push _ _)).trans
      (hphis.trans (Encodes.push f1 TACOp.PHI_END.code))
    simp only [nil_append, append_nil] at hall
    refine hall.mono fun q hq => ?_
    simp [hq]

theorem addBlock_inv (h : f.addBlock enc block = .ok f') :
    ∃ f1 f2, transOthers enc block.constStatements
          ((f.nameBlock block.name).push TACOp.BLOCK_FLAG.code) = .ok f1 ∧
        transPhiStatements block.phiStatements f1 = .ok f2 ∧
        transOthers enc block.otherStatements f2 = .ok f' ∧
        f1.insts.length = block.phiStart f.insts.length ∧
        f2.insts.length = block.otherStart f.insts.length := by
  obtain ⟨f1, h1, h⟩ := bind_ok h
  obtain ⟨f2, h2, h3⟩ := bind_ok h
  rw [transConsts_eq enc fun s => operation_constStatements] at h1
  have hlen : f1.insts.length = block.phiStart f.insts.length := by
    rw [(emitsAll_transOthers h1).length_eq]
    simp [TACFunction.push, TACFunction.nameBlock, AstBlock.phiStart]
  refine ⟨f1, f2, h1, h2, h3, hlen, ?_⟩
  rw [(emitsAll_transPhiStatements h2).length_eq, hlen]
  rfl

theorem length_blockFlag (f : TACFunction) (name : GoString) :
    ((f.nameBlock name).push TACOp.BLOCK_FLAG.code).insts.length = f.insts.length + 1 := by
  simp [TACFunction.push, TACFunction.nameBlock]

theorem encodes_addBlock (h : f.addBlock enc block = .ok f') :
    Encodes f f' (block.entriesAt stmtVars phiVar f.insts.length)
      (block.entriesAt (stmtFacts enc) phiFact f.insts.length)
      (block.entriesAt stmtNotes phiNote f.insts.length) := by
  obtain ⟨f1, f2, h1, h2, h3, hlen1, hlen2⟩ := addBlock_inv h
  have hname : Encodes f (f.nameBlock block.name) [] [] [] :=
    .of_same rfl rfl rfl rfl rfl fun _ => rfl
  have hflag := (hname.trans (Encodes.push _ TACOp.BLOCK_FLAG.code)).mono (forall_mem_nil _)
  have hconst := encodes_transOthers h1
  have hphi := encodes_transPhiStatements h2
  have hother := encodes_transOthers h3
  rw [length_blockFlag] at hconst
  rw [hlen1] at hphi
  rw [hlen2] at hother
  exact ((hflag.trans hconst).trans hphi).trans hother

theorem encodes_addBlocks {blocks : List AstBlock} (h : addBlocks enc blocks f = .ok f') :
    Encodes f f' (codeVars f.insts.length blocks)
      (codeAt (stmtFacts enc) phiFact f.insts.length blocks)
      (codeAt stmtNotes phiNote f.insts.length blocks) := by
  induction blocks generalizing f with
  | nil =>
    obtain rfl := Except.ok.inj h
    exact .refl f
  | cons block rest ih =>
    obtain ⟨f1, h1, h2⟩ := bind_ok h
    have hlen := (emitsAll_addBlock h1).length_eq
    have hrest := ih h2
    rw [hlen] at hrest
    exact (encodes_addBlock h1).trans hrest

end

theorem itemAt_cons_cases {x : Item} {k : Nat} (h : ItemAt (x :: items) k it) :
    (k = 0 ∧ it = x) ∨ ∃ k', k = x.size + k' ∧ ItemAt items k' it := by
  obtain ⟨before, after, hl, rfl⟩ := h
  cases before with
  | nil => exact .inl ⟨rfl, (List.cons.inj hl).1.symm⟩
  | cons y before =>
    obtain ⟨rfl, rfl⟩ := List.cons.inj hl
    exact .inr ⟨totalSize before, totalSize_cons _ _, before, after, rfl, rfl⟩

theorem itemAt_append_cases {items' : List Item} {k : Nat} (h : ItemAt (items ++ items') k it) :
    ItemAt items k it ∨ ∃ k', k = totalSize items + k' ∧ ItemAt items' k' it := by
  induction items generalizing k with
  | nil => exact .inr ⟨k, by simp, h⟩
  | cons x items ih =>
    rcases itemAt_cons_cases h with ⟨rfl, rfl⟩ | ⟨k', rfl, hin⟩
    · exact .inl ⟨[], items, rfl, rfl⟩
    · rcases ih hin with ⟨before, after, rfl, rfl⟩ | ⟨k2, rfl, hin'⟩
      · exact .inl ⟨x :: before, after, rfl, by simp⟩
      · exact .inr ⟨k2, by rw [totalSize_cons]; omega, hin'⟩

theorem stmtItem_injective {s t : AstStatement} (h : stmtItem s = stmtItem t) : s = t :=
  Option.some.inj (congrArg Item.stmt h)

section
variable {γ : Type} {stmt phi : Nat → AstStatement → List γ} {x : γ} {s : AstStatement} {k b : Nat}

theorem mem_stmtsAt_of_itemAt {stmts : List AstStatement}
    (h : ItemAt (stmts.map stmtItem) k (stmtItem s)) (hx : x ∈ stmt (b + k) s) :
    x ∈ stmtsAt stmt stmtSize b stmts := by
  induction stmts generalizing k b with
  | nil =>
    obtain ⟨before, after, hl, -⟩ := h
    simp at hl
  | cons t stmts ih =>
    rcases itemAt_cons_cases h with ⟨rfl, heq⟩ | ⟨k', rfl, hin⟩
    · obtain rfl := stmtItem_injective heq
      exact mem_append_left _ hx
    · rw [← Nat.add_assoc] at hx
      exact mem_append_right _ (ih hin hx)

theorem mem_entriesAt_of_itemAt (h : ItemAt block.items k (stmtItem s)) (hx : x ∈ stmt (b + k) s) :
    x ∈ block.entriesAt stmt phi b := by
  rcases itemAt_append_cases h with hhead | ⟨k', rfl, hin⟩
  · rcases itemAt_append_cases hhead with hconst | ⟨k', rfl, hin⟩
    · rcases itemAt_cons_cases hconst with ⟨-, heq⟩ | ⟨k', rfl, hin⟩
      · cases congrArg Item.stmt heq
      · rw [← Nat.add_assoc] at hx
        exact mem_append_left _ (mem_append_left _ (mem_stmtsAt_of_itemAt hin hx))
    · have hmem := hin.mem
      unfold AstBlock.phiItems at hmem
      split at hmem
      · cases hmem
      · cases congrArg Item.stmt (mem_singleton.mp hmem)
  · have hpos : b + (totalSize (⟨.BLOCK_FLAG, 1, none, []⟩ :: block.constStatements.map stmtItem ++
        block.phiItems) + k') = block.otherStart b + k' := by
      simp only [AstBlock.otherStart, AstBlock.phiStart, totalSize_append, totalSize_cons]
      omega
    rw [hpos] at hx
    exact mem_append_right _ (mem_stmtsAt_of_itemAt hin hx)

theorem mem_codeAt_of_itemAt {order : List AstBlock}
    (h : ItemAt (order.flatMap AstBlock.items) k (stmtItem s)) (hx : x ∈ stmt (b + k) s) :
    x ∈ codeAt stmt phi b order := by
  induction order generalizing k b with
  | nil =>
    obtain ⟨before, after, hl, -⟩ := h
    simp at hl
  | cons block rest ih =>
    rw [flatMap_cons] at h
    rcases itemAt_append_cases h with hin | ⟨k', rfl, hin⟩
    · exact mem_append_left _ (mem_entriesAt_of_itemAt hin hx)
    · rw [← Nat.add_assoc] at hx
      exact mem_append_right _ (ih hin hx)

theorem mem_codeAt_of_block {before after : List AstBlock}
    (hx : x ∈ block.entriesAt stmt phi (b + codeSize before)) :
    x ∈ codeAt stmt phi b (before ++ block :: after) := by
  induction before generalizing b with
  | nil => exact mem_append_left _ hx
  | cons first before ih =>
    have hpos : b + codeSize (first :: before) = b + totalSize first.items + codeSize before := by
      simp only [codeSize, flatMap_cons, totalSize_append]
      omega
    rw [hpos] at hx
    exact mem_append_right _ (ih hx)

variable {entries : Nat → AstStatement → List γ} {size : AstStatement → Nat} {l : List AstStatement}

theorem mem_stmtsAt {e : Nat} (h : l[e]? = some s)
    (hx : x ∈ entries (b + ((l.take e).map size).sum) s) : x ∈ stmtsAt entries size b l := by
  induction l generalizing e b with
  | nil => cases h
  | cons t l ih =>
    cases e with
    | zero =>
      cases h
      exact mem_append_left _ hx
    | succ e =>
      rw [take_succ_cons, map_cons, sum_cons, ← Nat.add_assoc] at hx
      exact mem_append_right _ (ih h hx)

theorem exists_of_mem_stmtsAt (h : x ∈ stmtsAt entries size b l) :
    ∃ b' s, b ≤ b' ∧ b' + size s ≤ b + (l.map size).sum ∧ x ∈ entries b' s := by
  induction l generalizing b with
  | nil => cases h
  | cons s l ih =>
    rw [map_cons, sum_cons]
    rcases mem_append.mp h with h | h
    · exact ⟨b, s, le_rfl, by omega, h⟩
    · obtain ⟨b', t, hlo, hhi, hx⟩ := ih h
      exact ⟨b', t, by omega, by omega, hx⟩

end

end EtherVal.TacParser
