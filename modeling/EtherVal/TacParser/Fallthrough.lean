import EtherVal.TacParser.JumpResolution

/-!
# Blocks that fall through
-/

namespace EtherVal.TacParser
open EtherVal.Lib List

variable {b : AstBlock}
variable {following : Option AstBlock}

variable {f' : AstFunction}
variable {f : AstFunction} {order : List AstBlock} {tf : TACFunction}

theorem successors_eq_edges (f : AstFunction) (name : GoString) :
    f.successors name =
      (((f.blocks.map AstBlock.edges).find? (fun e => e.1 = name)).map Prod.snd).getD [] := by
  rw [find?_map]
  unfold AstFunction.successors AstFunction.getBlock
  rw [Option.map_map]
  rfl

theorem Patched.successors (h : Patched f f') :
    f'.successors = f.successors := by
  funext name
  rw [successors_eq_edges, successors_eq_edges, h.edges]

theorem Patched.blockNames (h : Patched f f') :
    f'.blockNames = f.blockNames := by
  have hnames : ∀ g : AstFunction, g.blockNames = (g.blocks.map AstBlock.edges).map Prod.fst := by
    intro g
    rw [map_map]
    rfl
  rw [hnames, hnames, h.edges]

theorem reachable_iff_head (f : AstFunction) (name : GoString) :
    f.Reachable name ↔ ∃ first, f.blockNames.head? = some first ∧
      Relation.ReflTransGen (fun a b => b ∈ f.successors a) first name := by
  unfold AstFunction.Reachable AstFunction.blockNames
  rw [head?_map]
  constructor
  · rintro ⟨first, hfirst, hpath⟩
    exact ⟨first.name, by rw [hfirst]; rfl, hpath⟩
  · rintro ⟨n, hn, hpath⟩
    obtain ⟨first, hfirst, rfl⟩ := Option.map_eq_some_iff.mp hn
    exact ⟨first, hfirst, hpath⟩

theorem Patched.reachable (h : Patched f f') (name : GoString) :
    f'.Reachable name ↔ f.Reachable name := by
  rw [reachable_iff_head, reachable_iff_head, h.blockNames, h.successors]

theorem Patched.preorder (h : Patched f f') : f'.preorder = f.preorder := by
  have hlen : f'.blocks.length = f.blocks.length := by
    have := congrArg List.length h.edges
    rwa [length_map, length_map] at this
  have hknown : f'.knownSuccessors = f.knownSuccessors := by
    funext name
    rw [AstFunction.knownSuccessors, AstFunction.knownSuccessors, h.blockNames, h.successors]
  rw [AstFunction.preorder, AstFunction.preorder, hlen, hknown, h.blockNames]

structure SourceBlock (f : AstFunction) (before : List AstBlock) (b : AstBlock)
    (after : List AstBlock) : Prop where
  blocks : f.blocks = before ++ b :: after
  first : ∀ c ∈ before, c.name ≠ b.name

variable {before after : List AstBlock}

theorem addMissingJumpBlocks_split {blocks : List AstBlock}
    (h : addMissingJumpBlocks (before ++ b :: after) = .ok blocks) :
    ∃ before' b' after', blocks = before' ++ b' :: after' ∧
      before'.map AstBlock.name = before.map AstBlock.name ∧
      addMissingJumpBlock after.head? b = .ok b' := by
  induction before generalizing blocks with
  | nil =>
    obtain ⟨b1, h1, h⟩ := bind_ok h
    obtain ⟨rest1, h2, h⟩ := bind_ok h
    cases h
    exact ⟨[], b1, rest1, rfl, rfl, h1⟩
  | cons c before ih =>
    obtain ⟨c1, h1, h⟩ := bind_ok h
    obtain ⟨rest1, h2, h⟩ := bind_ok h
    cases h
    obtain ⟨before', b', after', rfl, hnames, hb⟩ := ih h2
    refine ⟨c1 :: before', b', after', rfl, ?_, hb⟩
    rw [map_cons, map_cons, hnames, (addMissingJumpBlock_graph h1).1]

theorem SourceBlock.patched (hb : SourceBlock f before b after) (h : Patched f f') :
    ∃ b', addMissingJumpBlock (after.map AstBlock.settled).head? b.settled = .ok b' ∧
      b'.name = b.name ∧ f'.getBlock b'.name = some b' := by
  unfold Patched at h
  rw [hb.blocks, map_append, map_cons] at h
  obtain ⟨before', b', after', hblocks, hnames, hpatch⟩ := addMissingJumpBlocks_split h
  have hname : b'.name = b.name := by rw [(addMissingJumpBlock_graph hpatch).1, settled_name]
  refine ⟨b', hpatch, hname, ?_⟩
  have hbefore : ∀ c ∈ before', ¬ c.name = b'.name := by
    intro c hc heq
    have hmem : c.name ∈ before'.map AstBlock.name := mem_map_of_mem hc
    rw [hnames, map_map] at hmem
    obtain ⟨d, hd, hdn⟩ := mem_map.mp hmem
    refine hb.first d hd ?_
    rw [← settled_name d, ← hname, ← heq]
    exact hdn
  rw [AstFunction.getBlock, hblocks, find?_append, find?_eq_none.mpr (by simpa using hbefore)]
  simp

/-- Block `b` falls through to `s`: `s` is its only successor and its last statement neither
jumps nor halts, or it has two successors and ends in a `JUMPI` to the other one. -/
inductive FallsTo (b : AstBlock) (s : GoString) : Prop where
  | one (hsucc : b.successor = [s])
      (hlast : ∀ last, b.statements.getLast? = some last →
        last.operation ≠ .JUMP ∧ last.operation ≠ .JUMPI ∧ notHalt last.operation = true)
  | two (s0 s1 : GoString) (hsucc : b.successor = [s0, s1]) (last : AstStatement)
      (hlast : b.statements.getLast? = some last) (hop : last.operation = .JUMPI)
      (arg : AstVariable) (harg : last.args.head? = some arg) (hconst : arg.typ = .CONSTANT)
      (a : GoString) (ha : baseAddr arg.val = .ok a)
      (hs : (baseAddr s0 = .ok a ∧ baseAddr s1 ≠ .ok a ∧ s = s1) ∨
        (baseAddr s1 = .ok a ∧ baseAddr s0 ≠ .ok a ∧ s = s0))

theorem settled_of_successor (h : b.successor ≠ []) : b.settled = shiftBlock b :=
  (settled_cases b).resolve_right fun hstop => h hstop.2

variable {s : GoString}

theorem FallsTo.mem (h : FallsTo b s) : s ∈ b.successor := by
  cases h with
  | one hsucc hlast => simp [hsucc]
  | two s0 s1 hsucc last hlast hop arg harg hconst a ha hs =>
    rcases hs with ⟨-, -, rfl⟩ | ⟨-, -, rfl⟩ <;> simp [hsucc]

/-- `addMissingJump` inserts a jump to the base address of `s`, unless the next block of the
source has that address. -/
theorem FallsTo.addMissingJump {b' : AstBlock} (h : FallsTo b s)
    (hpatch : addMissingJumpBlock following b = .ok b') :
    ∃ a, baseAddr s = .ok a ∧ b' = addJump following a b := by
  cases h with
  | one hsucc hlast =>
    unfold addMissingJumpBlock at hpatch
    simp only [hsucc] at hpatch
    cases hl : b.statements.getLast? with
    | none =>
      simp only [hl] at hpatch
      obtain ⟨a, ha, hpatch⟩ := bind_ok hpatch
      exact ⟨a, ha, (Except.ok.inj hpatch).symm⟩
    | some last =>
      simp only [hl, if_neg (hlast last hl).1] at hpatch
      obtain ⟨a, ha, hpatch⟩ := bind_ok hpatch
      exact ⟨a, ha, (Except.ok.inj hpatch).symm⟩
  | two s0 s1 hsucc last hlast hop arg harg hconst a ha hs =>
    obtain ⟨rest, hargs⟩ := head?_eq_some_iff.mp harg
    unfold addMissingJumpBlock at hpatch
    simp only [hsucc] at hpatch
    unfold addMissingJumpTwo at hpatch
    simp only [hlast, hargs] at hpatch
    rw [if_neg (by simp [hop]), if_neg (by simp [hconst])] at hpatch
    obtain ⟨eq, heq, hrest⟩ := bind_ok hpatch
    obtain ⟨t, ht, hjump⟩ := bind_ok hrest
    -- which of the two successors has the address of the jump
    obtain ⟨a1, ha1, heq1⟩ := bind_ok heq
    obtain ⟨a2, ha2, heq2⟩ := bind_ok heq1
    cases ha.symm.trans ha1
    cases heq2
    refine ⟨t, ?_, (Except.ok.inj hjump).symm⟩
    rcases hs with ⟨h0, -, rfl⟩ | ⟨-, h0, rfl⟩
    · cases h0.symm.trans ha2
      simpa using ht
    · have hne : a ≠ a2 := fun heq => h0 (heq ▸ ha2)
      simpa [hne] using ht

def fallthroughJump (a : GoString) (b : AstBlock) : AstStatement :=
  auxiliary .JUMP [{ name := a, val := a, typ := .CONSTANT }] b

theorem addJump_eq (following : Option AstBlock) (a : GoString) (b : AstBlock) :
    addJump following a b =
      if following.map AstBlock.address = some a then b else b.append (fallthroughJump a b) := rfl

theorem collectStatements_append {op : TokenType} {first : Nat} {stmts : List AstStatement}
    {s : AstStatement} (h : s.operation ≠ op) :
    collectStatements op first (stmts ++ [s]) = collectStatements op first stmts := by
  unfold collectStatements
  rw [zipIdx_append, filter_append]
  simp [h]

theorem items_append (b : AstBlock) (a : GoString) :
    (b.append (fallthroughJump a b)).items = b.items ++ [stmtItem (fallthroughJump a b)] := by
  have hconv : (b.append (fallthroughJump a b)).converted =
      b.converted ++ [fallthroughJump a b] := by
    simp [AstBlock.converted, AstBlock.append, convertIllphi, fallthroughJump, auxiliary,
      isNumberedIllphi]
  have hconst : (b.append (fallthroughJump a b)).constStatements = b.constStatements := by
    rw [AstBlock.constStatements, hconv,
      collectStatements_append (by simp [fallthroughJump, auxiliary])]
    rfl
  have hphi : (b.append (fallthroughJump a b)).phiStatements = b.phiStatements := by
    rw [AstBlock.phiStatements, hconv, hconst,
      collectStatements_append (by simp [fallthroughJump, auxiliary])]
    rfl
  have hother : (b.append (fallthroughJump a b)).otherStatements =
      b.otherStatements ++ [fallthroughJump a b] := by
    rw [AstBlock.otherStatements, hconv, filter_append]
    simp [fallthroughJump, auxiliary, AstBlock.otherStatements]
  rw [AstBlock.items, AstBlock.phiItems, hconst, hphi, hother, map_append, ← append_assoc]
  rfl

def ComesNext (f : AstFunction) (name s : GoString) : Prop :=
  ∃ pre post, f.preorder = pre ++ name :: post ∧
    (f.successors name).find? (fun n => n ∉ pre ++ [name]) = some s

theorem blockAt_codeSize :
    BlockAt (before ++ b :: after) s (codeSize (before ++ [b])) ↔
      after.head?.map AstBlock.name = some s := by
  have hsplit : before ++ b :: after = (before ++ [b]) ++ after := by simp
  cases after with
  | nil =>
    simp only [head?_nil, Option.map_none, reduceCtorEq, iff_false]
    exact fun h => h.lt.false
  | cons c after =>
    rw [head?_cons, Option.map_some, Option.some.injEq]
    have hc : BlockAt (before ++ b :: c :: after) c.name (codeSize (before ++ [b])) :=
      ⟨before ++ [b], c, after, hsplit, rfl, rfl⟩
    constructor
    · intro hs
      exact hc.unique hs
    · rintro rfl
      exact hc

namespace Transformed
variable {f : AstFunction} {order : List AstBlock} {tf : TACFunction}

theorem place_after_iff (h : Transformed f order tf) {p : Nat} (hb : f.getBlock b.name = some b)
    (hp : tf.blockByName[b.name]? = some (p : Int)) (hs : s ∈ b.successor) :
    tf.blockByName[s]? = some ((p + totalSize b.items : Nat) : Int) ↔ ComesNext f b.name s := by
  obtain ⟨k, hk, before, b', after, hord, hname, hsize⟩ := (h.names _ _).mp hp
  obtain rfl : p = k := by omega
  have hown := h.walk.own b' (by rw [hord]; simp)
  rw [hname, hb] at hown
  cases hown
  have hend : p + totalSize b.items = codeSize (before ++ [b]) := by
    rw [hsize]
    simp [codeSize, flatMap_append]
  have hplace : tf.blockByName[s]? = some ((p + totalSize b.items : Nat) : Int) ↔
      after.head?.map AstBlock.name = some s := by
    rw [h.names, hord, hend, ← blockAt_codeSize]
    constructor
    · rintro ⟨k, hk, hat⟩
      obtain rfl : codeSize (before ++ [b]) = k := by omega
      exact hat
    · exact fun hat => ⟨_, rfl, hat⟩
  have hsucc : f.successors b.name = b.successor := AstFunction.successors_of_getBlock hb
  have hnames : f.preorder = before.map AstBlock.name ++ b.name :: after.map AstBlock.name := by
    rw [← h.walk.names, hord, map_append, map_cons]
  have hnodup : (before.map AstBlock.name ++ b.name :: after.map AstBlock.name).Nodup := by
    rw [← hnames, ← h.walk.names]
    exact h.walk.nodup
  rw [hplace, ← head?_map]
  constructor
  · intro hhead
    refine ⟨_, _, hnames, ?_⟩
    -- `s` has not been laid out before, so some successor is the first such one
    have hnew : s ∉ before.map AstBlock.name ++ [b.name] := by
      obtain ⟨rest, hrest⟩ := head?_eq_some_iff.mp hhead
      rw [hrest, append_cons, nodup_append] at hnodup
      exact fun hmem => hnodup.2.2 s hmem s mem_cons_self rfl
    cases hfind : (f.successors b.name).find?
        (fun n => n ∉ before.map AstBlock.name ++ [b.name]) with
    | none =>
      have hall := find?_eq_none.mp hfind s (by rw [hsucc]; exact hs)
      exact absurd hnew (by simpa using hall)
    | some s' =>
      have hnext := h.walk.next _ _ _ (h.walk.names.trans hnames) s' hfind
      rw [hhead] at hnext
      exact hnext.symm
  · rintro ⟨pre, post, hsplit, hfind⟩
    rw [hnames] at hsplit
    rw [nodup_append, nodup_cons] at hnodup
    have hbefore : b.name ∉ before.map AstBlock.name :=
      fun hmem => hnodup.2.2 _ hmem _ mem_cons_self rfl
    obtain ⟨rfl, -, rfl⟩ :=
      (append_cons_inj_of_notMem hbefore hnodup.2.1.1).mp hsplit
    exact h.walk.next _ _ _ (h.walk.names.trans hnames) s hfind

end Transformed

def JumpFinds (f : AstFunction) (successor : List GoString) (a s : GoString) : Prop :=
  (∀ o ∈ successor, o ≠ s → ¬ a <+: o) ∨ ∀ n, f.Reachable n → baseAddr n = .ok a → n = s

theorem FallsTo.nodup (h : FallsTo b s) : b.successor.Nodup := by
  cases h with
  | one hsucc hlast => simp [hsucc]
  | two s0 s1 hsucc last hlast hop arg harg hconst a ha hs =>
    have hne : s0 ≠ s1 := by
      rintro rfl
      rcases hs with ⟨h0, h1, -⟩ | ⟨h0, h1, -⟩ <;> exact h1 h0
    simp [hsucc, hne]

variable {successor : List GoString}

theorem startingWith_eq_singleton (hnd : successor.Nodup) {a : GoString} (hs : s ∈ successor)
    (ha : baseAddr s = .ok a) (hother : ∀ o ∈ successor, o ≠ s → ¬ a <+: o) :
    startingWith successor a = [s] := by
  refine perm_singleton.mp ((perm_ext_iff_of_nodup (hnd.filter _) (by simp)).mpr ?_)
  intro n
  rw [mem_singleton]
  constructor
  · intro hn
    obtain ⟨hmem, hpre⟩ := mem_filter.mp hn
    by_contra hne
    exact hother n hmem hne ((GoString.hasPrefix_iff _ _).mp hpre)
  · rintro rfl
    exact mem_startingWith hs ha

def LeadsTo (f : AstFunction) (successor : List GoString) (t s : GoString) : Prop :=
  startingWith successor t = [s] ∨ ((startingWith successor t).length ≠ 1 ∧
    baseAddr s = .ok t ∧ ∀ n, f.Reachable n → baseAddr n = .ok t → n = s)

theorem Transformed.resolveJump_iff (h : Transformed f order tf)
    (hsucc : ∀ n ∈ successor, f.Reachable n) {t : GoString} {p : Int}
    (hp : tf.blockByName[s]? = some p) :
    resolveJump tf successor t = p ↔ LeadsTo f successor t s := by
  by_cases hlen : (startingWith successor t).length = 1
  · obtain ⟨n, hn⟩ := length_eq_one_iff.mp hlen
    have hmem : n ∈ startingWith successor t := by simp [hn]
    obtain ⟨q, hq⟩ := (h.placed_iff n).mpr (hsucc n (mem_filter.mp hmem).1)
    rw [resolveJump_single hn, hq, Option.getD_some, LeadsTo, hn]
    constructor
    · rintro rfl
      rw [h.place_inj hq hp]
      exact .inl rfl
    · rintro (heq | ⟨hne, -⟩)
      · rw [(List.cons.inj heq).1] at hq
        exact Option.some.inj (hq.symm.trans hp)
      · exact absurd rfl hne
  · rw [resolveJump_several hlen]
    constructor
    · intro hget
      refine .inr ⟨hlen, ?_⟩
      cases hu : tf.uniqueBlockAddr[t]? with
      | none =>
        rw [hu] at hget
        have hnonneg := h.place_nonneg hp
        rw [← hget] at hnonneg
        exact absurd hnonneg (by decide)
      | some q =>
        rw [hu] at hget
        obtain rfl : q = p := hget
        obtain ⟨name, hname, hbase, honly⟩ := h.uniqueBlockAddr_based hu
        obtain rfl : s = name := h.place_inj hp hname
        exact ⟨hbase, honly⟩
    · rintro (heq | ⟨-, hbase, honly⟩)
      · exact absurd (by rw [heq]; rfl) hlen
      · rw [h.uniqueBlockAddr_of_only hp hbase honly]
        rfl

theorem Patched.leadsTo (h : Patched f f') (successor : List GoString) (t s : GoString) :
    LeadsTo f' successor t s ↔ LeadsTo f successor t s := by
  unfold LeadsTo
  simp only [h.reachable]

theorem Transformed.getD_placed (h : Transformed f order tf) (name : GoString) :
    ∃ n : GoString, tf.blockByName[n]? = some (tf.blockByName[name]?.getD 0) := by
  cases hp : tf.blockByName[name]? with
  | some p => exact ⟨name, hp⟩
  | none =>
    obtain ⟨rest, hhead⟩ := h.walk.head
    obtain ⟨b, bs, rfl, -, -⟩ := map_eq_cons_iff.mp hhead
    exact ⟨b.name, (h.names _ _).mpr ⟨0, rfl, [], b, bs, rfl, rfl, rfl⟩⟩

theorem Transformed.resolveJump_placed (h : Transformed f order tf) {t : GoString} {q : Int}
    (hq : resolveJump tf successor t = q) (hne : q ≠ -1) :
    ∃ n : GoString, tf.blockByName[n]? = some q := by
  by_cases hlen : (startingWith successor t).length = 1
  · obtain ⟨n, hn⟩ := length_eq_one_iff.mp hlen
    rw [← hq, resolveJump_single hn]
    exact h.getD_placed n
  · rw [resolveJump_several hlen] at hq
    cases hu : tf.uniqueBlockAddr[t]? with
    | none =>
      rw [hu] at hq
      exact absurd hq.symm hne
    | some p =>
      rw [hu, Option.getD_some] at hq
      obtain ⟨name, hname, -⟩ := h.uniqueBlockAddr_based hu
      exact ⟨name, hq ▸ hname⟩

theorem FallsTo.leadsTo_iff {a : GoString} (hfall : FallsTo b s) (ha : baseAddr s = .ok a) :
    LeadsTo f b.successor a s ↔ JumpFinds f b.successor a s := by
  by_cases hother : ∀ o ∈ b.successor, o ≠ s → ¬ a <+: o
  · exact iff_of_true
      (.inl (startingWith_eq_singleton hfall.nodup hfall.mem ha hother)) (.inl hother)
  · have hlen : (startingWith b.successor a).length ≠ 1 := by
      intro hone
      obtain ⟨n, hn⟩ := length_eq_one_iff.mp hone
      refine hother fun o ho hne hpre => hne ?_
      have hmem_o : o ∈ startingWith b.successor a :=
        mem_filter.mpr ⟨ho, (GoString.hasPrefix_iff _ _).mpr hpre⟩
      have hmem_s := mem_startingWith hfall.mem ha
      rw [hn, mem_singleton] at hmem_o hmem_s
      rw [hmem_o, hmem_s]
    constructor
    · rintro (heq | ⟨-, -, honly⟩)
      · exact absurd (by rw [heq]; rfl) hlen
      · exact .inr honly
    · intro hf
      exact .inr ⟨hlen, ha, hf.resolve_left hother⟩

end EtherVal.TacParser
