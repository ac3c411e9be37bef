import EtherVal.TacParser.Parser
import EtherVal.TacParser.TransformFunction

/-!
# What the parser and the patches promise
-/

namespace EtherVal.TacParser
open EtherVal.Lib List

variable {b' : AstBlock}

def Yields {α : Type} (x : Parse α) (P : α → Prop) : Prop :=
  ∀ toks a toks', x toks = .ok (a, toks') → P a

namespace Yields
variable {α β : Type} {P : α → Prop} {Q : β → Prop}

theorem pure {a : α} (h : P a) : Yields (Pure.pure a) P := by
  intro toks b toks' hb
  cases hb
  exact h

variable {x : Parse α}

theorem bind {f : α → Parse β} (hx : Yields x P) (hf : ∀ a, P a → Yields (f a) Q) :
    Yields (x >>= f) Q := by
  intro toks b toks' h
  obtain ⟨⟨a, toks1⟩, ha, hb⟩ := bind_ok h
  exact hf a (hx _ _ _ ha) _ _ _ hb

theorem seq {f : α → Parse β} (hf : ∀ a, Yields (f a) Q) : Yields (x >>= f) Q :=
  bind (P := fun _ => True) (fun _ _ _ _ => trivial) (fun a _ => hf a)

theorem ite {c : Prop} [Decidable c] {y : Parse α} (hx : Yields x P) (hy : Yields y P) :
    Yields (if c then x else y) P := by
  split
  · exact hx
  · exact hy

variable {cond : Token → Bool → Bool}

theorem loopFrom {body : α → Parse α} (hbody : ∀ acc, P acc → Yields (body acc) P) (fuel : Nat)
    {acc : α} (h : P acc) :
    Yields (Parse.loopFrom cond body fuel acc) P := by
  induction fuel generalizing acc with
  | zero =>
    intro toks a toks' hb
    cases hb
  | succ fuel ih => exact seq fun _ => ite (bind (hbody acc h) fun _ h' => ih h') (pure h)

theorem loopWhile {body : α → Parse α} (hbody : ∀ acc, P acc → Yields (body acc) P) {acc : α}
    (h : P acc) :
    Yields (Parse.loopWhile cond body acc) P :=
  seq fun _ => loopFrom hbody _ h

theorem collect {item : Parse α} (hitem : Yields item P) :
    Yields (Parse.loopWhile cond (fun acc => do
      let a ← item
      return acc ++ [a]) []) (fun l => ∀ a ∈ l, P a) := by
  refine loopWhile (fun acc hacc => bind hitem fun a ha => pure ?_) (by simp)
  intro b hb
  rcases mem_append.mp hb with hb | hb
  · exact hacc b hb
  · obtain rfl := mem_singleton.mp hb
    exact ha

end Yields

theorem yields_baseAddr (name : GoString) :
    Yields (Parse.liftGo (baseAddr name))
      (fun a => "0x".toList <+: name ∧ a = baseAddrText name) := by
  intro toks a toks' h
  cases hb : baseAddr name with
  | error p =>
    rw [hb] at h
    cases h
  | ok b =>
    rw [hb] at h
    cases h
    refine ⟨?_, baseAddr_ok hb⟩
    unfold baseAddr at hb
    split at hb
    · next hpre => simpa using hpre
    · cases hb

structure AstBlock.WellNamed (b : AstBlock) : Prop where
  hex : "0x".toList <+: b.name
  address : b.address = baseAddrText b.name
  blockName : ∀ s ∈ b.statements, s.blockName = b.name

theorem yields_parseStatement (blockName : GoString) :
    Yields (parseStatement blockName) (fun s => s.blockName = blockName) := by
  refine .seq fun name => .seq fun address => .seq fun _ => .seq fun tok => .ite ?_ ?_
  · exact .seq fun assignees => .seq fun _ => .seq fun rhs => .pure rfl
  · exact .seq fun rhs => .pure rfl

theorem yields_parseBlock : Yields parseBlock AstBlock.WellNamed := by
  refine .seq fun _ => .seq fun _ => .seq fun name => .bind (yields_baseAddr name.val) ?_
  rintro address ⟨hhex, haddr⟩
  refine .seq fun _ => .seq fun _ => .seq fun predecessor => .seq fun _ => .seq fun _ =>
    .seq fun _ => .seq fun successor => .bind (.collect (yields_parseStatement name.val)) ?_
  intro statements hstmts
  exact .pure ⟨hhex, haddr, hstmts⟩

def AstFunction.WellNamed (f : AstFunction) : Prop := ∀ b ∈ f.blocks, b.WellNamed

theorem yields_parseFunction : Yields parseFunction AstFunction.WellNamed := by
  refine .seq fun _ => .seq fun token => .seq fun name => .seq fun args => .seq fun visibility =>
    .seq fun _ => .bind (.collect yields_parseBlock) ?_
  intro blocks hblocks
  exact .seq fun _ => .pure hblocks

variable {ast : AstProgram} {input : GoString}

theorem functions_parseProgram {P : AstFunction → Prop} (hP : Yields parseFunction P)
    (h : parseProgram input = .ok ast) :
    ∀ f ∈ ast.functions, P f := by
  have hprog : Yields parseProgramTokens (fun ast => ∀ f ∈ ast.functions, P f) := by
    refine .bind (.collect hP) fun functions hf => .seq fun tok => .ite ?_ ?_
    · intro toks a toks' hp
      cases hp
    · exact .pure hf
  unfold parseProgram at h
  cases hp : parseProgramTokens (lex input) with
  | error e =>
    rw [hp] at h
    cases h
  | ok r =>
    rw [hp] at h
    cases h
    exact hprog _ _ _ hp

theorem wellNamed_parseProgram (h : parseProgram input = .ok ast) :
    ∀ f ∈ ast.functions, f.WellNamed :=
  functions_parseProgram yields_parseFunction h

theorem statements_parseProgram {P : AstStatement → Prop}
    (hP : ∀ blockName, Yields (parseStatement blockName) P) (h : parseProgram input = .ok ast) :
    ∀ f ∈ ast.functions, ∀ b ∈ f.blocks, ∀ s ∈ b.statements, P s := by
  have hblock : Yields parseBlock (fun b => ∀ s ∈ b.statements, P s) := by
    refine .seq fun _ => .seq fun _ => .seq fun name => .seq fun address => .seq fun _ =>
      .seq fun _ => .seq fun predecessor => .seq fun _ => .seq fun _ => .seq fun _ =>
      .seq fun successor => .bind (.collect (hP name.val)) ?_
    exact fun statements hstmts => .pure hstmts
  refine functions_parseProgram ?_ h
  refine .seq fun _ => .seq fun token => .seq fun name => .seq fun args => .seq fun visibility =>
    .seq fun _ => .bind (.collect hblock) ?_
  exact fun blocks hblocks => .seq fun _ => .pure hblocks

theorem unmarked_parseProgram (h : parseProgram input = .ok ast) :
    ∀ f ∈ ast.functions, ∀ b ∈ f.blocks,
      ∀ s ∈ b.statements, s.patchReorder = false ∧ isAuxiliary s = false := by
  refine statements_parseProgram (fun blockName => ?_) h
  have haddr : ∀ name address : GoString, "0x".toList <+: name ∧ address = baseAddrText name →
      decide (address = "auxiliary".toList) = false := by
    rintro name _ ⟨-, rfl⟩
    obtain ⟨rest, hrest⟩ := hex_prefix_baseAddrText name
    rw [← hrest]
    simp
  refine .seq fun name => .bind (yields_baseAddr name.val) fun address ha => .seq fun _ =>
    .seq fun tok => .ite ?_ ?_
  · exact .seq fun assignees => .seq fun _ => .seq fun rhs => .pure ⟨rfl, haddr _ _ ha⟩
  · exact .seq fun rhs => .pure ⟨rfl, haddr _ _ ha⟩

def AstBlock.settled (b : AstBlock) : AstBlock := addMissingStopBlock (shiftBlock b)

/-- What the first two patches do to a block. -/
theorem settled_cases (b : AstBlock) : b.settled = shiftBlock b ∨
    b.settled = (shiftBlock b).append (auxiliary .STOP [] (shiftBlock b)) ∧ b.successor = [] := by
  unfold AstBlock.settled addMissingStopBlock
  split
  · exact .inl rfl
  · next hlen =>
    have hsucc : b.successor = [] := by simpa [shiftBlock] using hlen
    split
    · exact .inr ⟨rfl, hsucc⟩
    · split
      · exact .inr ⟨rfl, hsucc⟩
      · exact .inl rfl

@[simp] theorem settled_name (b : AstBlock) : b.settled.name = b.name := by
  rcases settled_cases b with h | ⟨h, -⟩ <;> rw [h] <;> rfl

theorem settled_graph (b : AstBlock) :
    b.settled.name = b.name ∧ b.settled.successor = b.successor := by
  refine ⟨settled_name b, ?_⟩
  rcases settled_cases b with h | ⟨h, -⟩ <;> rw [h] <;> rfl

variable {b : AstBlock}

theorem mem_shiftBlock {s : AstStatement} (h : s ∈ (shiftBlock b).statements) :
    ∃ t ∈ b.statements, s.blockName = t.blockName := by
  rcases mem_append.mp h with h | h
  · obtain ⟨j, hj, rfl⟩ := mem_mapIdx.mp h
    have hmem := getElem_mem hj
    refine ⟨_, fst_mem_of_mem_zipIdx (mem_filter.mp hmem).1, ?_⟩
    split <;> rfl
  · exact ⟨s, (mem_filter.mp h).1, rfl⟩

namespace AstBlock.WellNamed

theorem shift (h : b.WellNamed) : (shiftBlock b).WellNamed where
  hex := h.hex
  address := h.address
  blockName := by
    intro s hs
    obtain ⟨t, ht, heq⟩ := mem_shiftBlock hs
    exact heq.trans (h.blockName t ht)

theorem append (h : b.WellNamed) (op : TokenType) (args : List AstVariable) :
    (b.append (auxiliary op args b)).WellNamed where
  hex := h.hex
  address := h.address
  blockName := by
    intro s hs
    rcases mem_append.mp hs with hs | hs
    · exact h.blockName s hs
    · obtain rfl := mem_singleton.mp hs
      rfl

theorem settled (h : b.WellNamed) : b.settled.WellNamed := by
  rcases settled_cases b with hb | ⟨hb, -⟩ <;> rw [hb]
  · exact h.shift
  · exact h.shift.append _ _

end AstBlock.WellNamed

variable {following : Option AstBlock}

/-- What `addMissingJump` does to a block: nothing, or it appends a jump or a throw to a block
with successors. -/
theorem addMissingJumpBlock_inv (h : addMissingJumpBlock following b = .ok b') :
    b' = b ∨ ∃ op args, b' = b.append (auxiliary op args b) ∧ (op = .JUMP ∨ op = .THROW) ∧
      b.successor ≠ [] := by
  have hjump : ∀ target, b.successor ≠ [] → addJump following target b = b ∨
      ∃ op args, addJump following target b = b.append (auxiliary op args b) ∧
        (op = .JUMP ∨ op = .THROW) ∧ b.successor ≠ [] := by
    intro target hsucc
    unfold addJump
    split
    · exact .inl rfl
    · exact .inr ⟨_, _, rfl, .inl rfl, hsucc⟩
  unfold addMissingJumpBlock at h
  split at h
  · next hs =>
    have hsucc : b.successor ≠ [] := by simp [hs]
    split at h
    · split at h
      · exact .inl (Except.ok.inj h).symm
      · obtain ⟨a, -, h⟩ := bind_ok h
        cases h
        exact hjump a hsucc
    · obtain ⟨a, -, h⟩ := bind_ok h
      cases h
      exact hjump a hsucc
  · next hs =>
    have hsucc : b.successor ≠ [] := by simp [hs]
    unfold addMissingJumpTwo at h
    split at h
    · cases h
    · split at h
      · exact .inr ⟨_, _, (Except.ok.inj h).symm, .inr rfl, hsucc⟩
      · split at h
        · cases h
        · split at h
          · exact .inl (Except.ok.inj h).symm
          · obtain ⟨eq, -, h⟩ := bind_ok h
            obtain ⟨a, -, h⟩ := bind_ok h
            cases h
            exact hjump a hsucc
  · exact .inl (Except.ok.inj h).symm

theorem AstBlock.WellNamed.addMissingJump (hb : b.WellNamed)
    (h : addMissingJumpBlock following b = .ok b') : b'.WellNamed := by
  obtain rfl | ⟨op, args, rfl, -, -⟩ := addMissingJumpBlock_inv h
  · exact hb
  · exact hb.append op args

theorem addMissingJumpBlock_graph (h : addMissingJumpBlock following b = .ok b') :
    b'.name = b.name ∧ b'.successor = b.successor := by
  obtain rfl | ⟨op, args, rfl, -, -⟩ := addMissingJumpBlock_inv h <;> exact ⟨rfl, rfl⟩

theorem addMissingJumpBlocks_inv {blocks blocks' : List AstBlock}
    (h : addMissingJumpBlocks blocks = .ok blocks') :
    List.Forall₂ (fun b b' => ∃ following, addMissingJumpBlock following b = .ok b')
      blocks blocks' := by
  induction blocks generalizing blocks' with
  | nil =>
    cases h
    exact .nil
  | cons b rest ih =>
    obtain ⟨b1, h1, h⟩ := bind_ok h
    obtain ⟨rest1, h2, h⟩ := bind_ok h
    cases h
    exact .cons ⟨_, h1⟩ (ih h2)

def AstBlock.edges (b : AstBlock) : GoString × List GoString := (b.name, b.successor)

def Patched (f f' : AstFunction) : Prop :=
  addMissingJumpBlocks (f.blocks.map AstBlock.settled) = .ok f'.blocks

theorem Patched.edges {f f' : AstFunction} (h : Patched f f') :
    f'.blocks.map AstBlock.edges = f.blocks.map AstBlock.edges := by
  have hall := addMissingJumpBlocks_inv h
  rw [forall₂_map_left_iff] at hall
  rw [← forall₂_eq_eq_eq, forall₂_map_left_iff, forall₂_map_right_iff]
  refine hall.flip.imp ?_
  rintro b' b ⟨following, hb⟩
  obtain ⟨hname, hsucc⟩ := addMissingJumpBlock_graph hb
  exact Prod.ext (hname.trans (settled_graph b).1) (hsucc.trans (settled_graph b).2)

variable {ast' : AstProgram}

theorem forall₂_patchProgram (h : patchProgram ast = .ok ast') :
    List.Forall₂ (fun f f' => f' = { f with blocks := f'.blocks } ∧ Patched f f')
      ast.functions ast'.functions := by
  obtain ⟨functions, hf, h⟩ := bind_ok h
  cases h
  have hall := mapM_eq_ok hf
  rw [addMissingStop, shiftVarDecls, map_map, forall₂_map_left_iff] at hall
  refine hall.imp fun f f' hff => ?_
  obtain ⟨blocks, hb, heq⟩ := bind_ok hff
  cases heq
  have hmap : f.blocks.map AstBlock.settled =
      (f.blocks.map shiftBlock).map addMissingStopBlock := by
    rw [map_map]
    rfl
  refine ⟨rfl, ?_⟩
  rw [Patched, hmap]
  exact hb

theorem patched_patchProgram (h : patchProgram ast = .ok ast') :
    List.Forall₂ Patched ast.functions ast'.functions :=
  (forall₂_patchProgram h).imp fun _ _ => And.right

theorem patched_at (h : patchProgram ast = .ok ast') {j : Nat} {f0 f : AstFunction}
    (hf0 : ast.functions[j]? = some f0) (hf : ast'.functions[j]? = some f) :
    Patched f0 f := by
  obtain ⟨h0, hget0⟩ := List.getElem?_eq_some_iff.mp hf0
  obtain ⟨h1, hget1⟩ := List.getElem?_eq_some_iff.mp hf
  have hget := (patched_patchProgram h).get h0 h1
  simpa [hget0, hget1] using hget

theorem wellNamed_patchProgram (hparse : parseProgram input = .ok ast)
    (hpatch : patchProgram ast = .ok ast') :
    ∀ f ∈ ast'.functions, f.WellNamed := by
  intro f' hf' b' hb'
  obtain ⟨f, hf, hff⟩ := exists_of_forall₂_mem (patched_patchProgram hpatch) hf'
  obtain ⟨c, hc, following, hb⟩ := exists_of_forall₂_mem (addMissingJumpBlocks_inv hff) hb'
  obtain ⟨b, hmem, rfl⟩ := mem_map.mp hc
  exact (wellNamed_parseProgram hparse f hf b hmem).settled.addMissingJump hb

end EtherVal.TacParser
