import EtherVal.Lib.Preorder
import EtherVal.TacParser.TransformFunction

/-!
# The order of the blocks
-/

namespace EtherVal.TacParser
open EtherVal.Lib Relation List

variable {f : AstFunction}

namespace AstFunction

def blockNames (f : AstFunction) : List GoString := f.blocks.map AstBlock.name

def successors (f : AstFunction) (name : GoString) : List GoString :=
  ((f.getBlock name).map AstBlock.successor).getD []

def knownSuccessors (f : AstFunction) (name : GoString) : List GoString :=
  (f.successors name).filter (· ∈ f.blockNames)

theorem mem_blockNames_of_getBlock {name : GoString} {b : AstBlock} (h : f.getBlock name = some b) :
    name ∈ f.blockNames :=
  mem_map.mpr ⟨b, f.getBlock_mem h, f.getBlock_name h⟩

theorem successors_of_getBlock {b : AstBlock} (h : f.getBlock b.name = some b) :
    f.successors b.name = b.successor := by
  rw [successors, h]
  rfl

def Reachable (f : AstFunction) (name : GoString) : Prop :=
  ∃ first, f.blocks.head? = some first ∧
    ReflTransGen (fun a b => b ∈ f.successors a) first.name name

end AstFunction

def OwnBlocks (f : AstFunction) (order : List AstBlock) : Prop :=
  ∀ b ∈ order, f.getBlock b.name = some b

def unvisited (f : AstFunction) (names : List GoString) : Nat :=
  (f.blockNames.toFinset.filter (fun x => x ∉ names)).card

theorem unvisited_anti {names names' : List GoString} (h : names ⊆ names') :
    unvisited f names' ≤ unvisited f names := by
  refine Finset.card_le_card fun x hx => ?_
  rw [Finset.mem_filter] at hx ⊢
  exact ⟨hx.1, fun hn => hx.2 (h hn)⟩

theorem unvisited_snoc_lt {names : List GoString} {v : GoString} (hv : v ∈ f.blockNames)
    (hn : v ∉ names) : unvisited f (names ++ [v]) < unvisited f names := by
  refine Finset.card_lt_card ⟨fun x hx => ?_, fun hsub => ?_⟩
  · rw [Finset.mem_filter] at hx ⊢
    exact ⟨hx.1, fun h => hx.2 (mem_append_left _ h)⟩
  · have hmem := hsub (Finset.mem_filter.mpr ⟨mem_toFinset.mpr hv, hn⟩)
    exact (Finset.mem_filter.mp hmem).2 (by simp)

structure WalkFrom (f : AstFunction) (order order' : List AstBlock) (names : List GoString) :
    Prop where
  own : OwnBlocks f order'
  known : ∀ b ∈ order', b ∈ order ∨ ∀ s ∈ b.successor, s ∈ f.blockNames
  names : order'.map AstBlock.name = names

/- The loop over the successors, given what the walk from one of them does. -/
variable {order : List AstBlock}

theorem foldlM_walk {fuel : Nat}
    (ih : ∀ {cur : AstBlock} {order order' : List AstBlock}, f.getBlock cur.name = some cur →
      OwnBlocks f order → cur.name ∉ order.map AstBlock.name →
      unvisited f (order.map AstBlock.name) ≤ fuel → getVisitOrder f fuel cur order = .ok order' →
      WalkFrom f order order'
        (Preorder.visit f.knownSuccessors fuel cur.name (order.map AstBlock.name)))
    {ss : List GoString} {order' : List AstBlock} (hown : OwnBlocks f order)
    (hfuel : unvisited f (order.map AstBlock.name) ≤ fuel)
    (h : ss.foldlM (fun (order : List AstBlock) (name : GoString) =>
      if name ∈ order.map AstBlock.name then Except.ok order
      else match f.getBlock name with
        | none => Except.error GoPanic.nilDereference
        | some block => getVisitOrder f fuel block order) order = .ok order') :
    (∀ s ∈ ss, s ∈ f.blockNames) ∧ WalkFrom f order order'
      (Preorder.visitAll f.knownSuccessors fuel ss (order.map AstBlock.name)) := by
  induction ss generalizing order with
  | nil =>
    cases h
    exact ⟨by simp, hown, fun b hb => .inl hb, rfl⟩
  | cons s ss ihs =>
    rw [foldlM_cons] at h
    obtain ⟨o1, h1, h2⟩ := bind_ok h
    by_cases hs : s ∈ order.map AstBlock.name
    · rw [if_pos hs] at h1
      cases h1
      obtain ⟨hmem, hwalk⟩ := ihs hown hfuel h2
      have hblock : s ∈ f.blockNames := by
        obtain ⟨b, hb, rfl⟩ := mem_map.mp hs
        exact AstFunction.mem_blockNames_of_getBlock (hown b hb)
      rw [Preorder.visitAll_cons_mem _ _ _ hs]
      exact ⟨forall_mem_cons.mpr ⟨hblock, hmem⟩, hwalk⟩
    · rw [if_neg hs] at h1
      cases hb : f.getBlock s with
      | none =>
        rw [hb] at h1
        cases h1
      | some block =>
        rw [hb] at h1
        obtain rfl := AstFunction.getBlock_name hb
        have hw1 := ih hb hown hs hfuel h1
        have hsub : order.map AstBlock.name ⊆ o1.map AstBlock.name := by
          rw [hw1.names]
          exact fun x hx => Preorder.mem_visit_of_mem _ hx
        obtain ⟨hmem, hw2⟩ := ihs hw1.own ((unvisited_anti hsub).trans hfuel) h2
        refine ⟨forall_mem_cons.mpr
          ⟨AstFunction.mem_blockNames_of_getBlock hb, hmem⟩, hw2.own, ?_, ?_⟩
        · intro b hb'
          rcases hw2.known b hb' with hb' | hb'
          · exact hw1.known b hb'
          · exact .inr hb'
        · rw [Preorder.visitAll_cons_not_mem _ _ _ hs, hw2.names, hw1.names]

theorem OwnBlocks.snoc {f : AstFunction} {cur : AstBlock} (hown : OwnBlocks f order)
    (hcur : f.getBlock cur.name = some cur) :
    OwnBlocks f (order ++ [cur]) := by
  intro b hb
  rcases mem_append.mp hb with hb | hb
  · exact hown b hb
  · obtain rfl := mem_singleton.mp hb
    exact hcur

theorem getVisitOrder_walk {fuel : Nat} {cur : AstBlock} {order' : List AstBlock}
    (hcur : f.getBlock cur.name = some cur) (hown : OwnBlocks f order)
    (hnew : cur.name ∉ order.map AstBlock.name)
    (hfuel : unvisited f (order.map AstBlock.name) ≤ fuel)
    (h : getVisitOrder f fuel cur order = .ok order') :
    WalkFrom f order order'
      (Preorder.visit f.knownSuccessors fuel cur.name (order.map AstBlock.name)) := by
  induction fuel generalizing cur order order' with
  | zero =>
    have hlt := unvisited_snoc_lt (AstFunction.mem_blockNames_of_getBlock hcur) hnew
    omega
  | succ fuel ih =>
    have hlt := unvisited_snoc_lt (AstFunction.mem_blockNames_of_getBlock hcur) hnew
    have hmap : (order ++ [cur]).map AstBlock.name = order.map AstBlock.name ++ [cur.name] := by
      simp
    obtain ⟨hmem, hw⟩ := foldlM_walk ih (hown.snoc hcur) (by rw [hmap]; omega) h
    have hsucc : f.knownSuccessors cur.name = cur.successor := by
      rw [AstFunction.knownSuccessors, AstFunction.successors_of_getBlock hcur]
      exact filter_eq_self.mpr fun s hs => by simpa using hmem s hs
    refine ⟨hw.own, ?_, ?_⟩
    · intro b hb
      rcases hw.known b hb with hb | hb
      · rcases mem_append.mp hb with hb | hb
        · exact .inl hb
        · obtain rfl := mem_singleton.mp hb
          exact .inr hmem
      · exact .inr hb
    · rw [hw.names, Preorder.visit_succ, hsucc, hmap]

def AstFunction.Closed (f : AstFunction) : Prop :=
  ∀ b ∈ f.blocks, ∀ s ∈ b.successor, s ∈ f.blockNames

/- Visits from blocks outside `order` return, with the same order for all fuel from `n` on. -/
def VisitsFrom (f : AstFunction) (n : Nat) : Prop :=
  ∀ (cur : AstBlock) (order : List AstBlock), cur ∈ f.blocks → cur.name ∉ order.map AstBlock.name →
    unvisited f (order.map AstBlock.name) ≤ n → ∃ order',
      order.map AstBlock.name ⊆ order'.map AstBlock.name ∧
      ∀ fuel, n ≤ fuel → getVisitOrder f fuel cur order = .ok order'

theorem VisitsFrom.foldlM {n : Nat} (h : VisitsFrom f n) {ss : List GoString}
    (hss : ∀ s ∈ ss, s ∈ f.blockNames) (hn : unvisited f (order.map AstBlock.name) ≤ n) :
    ∃ order', order.map AstBlock.name ⊆ order'.map AstBlock.name ∧ ∀ fuel, n ≤ fuel →
      ss.foldlM (fun (order : List AstBlock) (name : GoString) =>
        if name ∈ order.map AstBlock.name then Except.ok order
        else match f.getBlock name with
          | none => Except.error GoPanic.nilDereference
          | some block => getVisitOrder f fuel block order) order = .ok order' := by
  induction ss generalizing order with
  | nil => exact ⟨order, List.Subset.refl _, fun _ _ => rfl⟩
  | cons s ss ih =>
    obtain ⟨hs, hrest⟩ := forall_mem_cons.mp hss
    by_cases hmem : s ∈ order.map AstBlock.name
    · obtain ⟨order', hsub, hrun⟩ := ih hrest hn
      refine ⟨order', hsub, fun fuel hfuel => ?_⟩
      rw [foldlM_cons, if_pos hmem]
      exact hrun fuel hfuel
    · obtain ⟨b, hb⟩ : ∃ b, f.getBlock s = some b := by
        obtain ⟨b, hb, rfl⟩ := mem_map.mp hs
        exact Option.isSome_iff_exists.mp (find?_isSome.mpr ⟨b, hb, by simp⟩)
      obtain rfl := f.getBlock_name hb
      obtain ⟨o1, hsub1, hrun1⟩ := h b order (f.getBlock_mem hb) hmem hn
      obtain ⟨order', hsub, hrun⟩ := ih hrest ((unvisited_anti hsub1).trans hn)
      refine ⟨order', List.Subset.trans hsub1 hsub, fun fuel hfuel => ?_⟩
      rw [foldlM_cons, if_neg hmem, hb]
      exact bind_ok_iff.mpr ⟨o1, hrun1 fuel hfuel, hrun fuel hfuel⟩

theorem AstFunction.Closed.visitsFrom (hf : f.Closed) (n : Nat) : VisitsFrom f n := by
  induction n with
  | zero =>
    intro cur order hcur hnew hn
    have hlt := unvisited_snoc_lt (mem_map_of_mem hcur) hnew
    omega
  | succ n ih =>
    intro cur order hcur hnew hn
    have hlt := unvisited_snoc_lt (mem_map_of_mem hcur) hnew
    have hmap : (order ++ [cur]).map AstBlock.name = order.map AstBlock.name ++ [cur.name] := by
      simp
    obtain ⟨order', hsub, hrun⟩ := ih.foldlM (hf cur hcur)
      (show unvisited f ((order ++ [cur]).map AstBlock.name) ≤ n by rw [hmap]; omega)
    refine ⟨order', fun x hx => hsub (by rw [hmap]; exact mem_append_left _ hx), ?_⟩
    intro fuel hfuel
    obtain ⟨fuel, rfl⟩ : ∃ k, fuel = k + 1 := ⟨fuel - 1, by omega⟩
    exact hrun fuel (by omega)

variable {first : AstBlock}

/-- The recursion comes to its end: no fuel beyond the number of blocks is ever used. -/
theorem AstFunction.Closed.visits (hf : f.Closed) (hfirst : f.blocks.head? = some first) :
    ∃ order, ∀ fuel, f.blocks.length ≤ fuel → getVisitOrder f fuel first [] = .ok order := by
  have hcard : unvisited f [] ≤ f.blocks.length := by
    simpa [unvisited, blockNames] using toFinset_card_le f.blockNames
  obtain ⟨order, -, hrun⟩ := hf.visitsFrom _ first [] (mem_of_head? hfirst) (by simp) hcard
  exact ⟨order, hrun⟩

def AstFunction.preorder (f : AstFunction) : List GoString :=
  Preorder.visit f.knownSuccessors f.blocks.length (f.blockNames.headD []) []

structure IsWalk (f : AstFunction) (order : List AstBlock) : Prop where
  own : OwnBlocks f order
  names : order.map AstBlock.name = f.preorder
  head : ∃ rest, order.map AstBlock.name = (f.blockNames.headD []) :: rest
  nodup : (order.map AstBlock.name).Nodup
  reachable : ∀ name, name ∈ order.map AstBlock.name ↔ f.Reachable name
  next : ∀ before name after, order.map AstBlock.name = before ++ name :: after →
    ∀ s, (f.successors name).find? (fun s => s ∉ before ++ [name]) = some s → after.head? = some s

theorem getBlock_head (h : f.blocks.head? = some first) :
    f.getBlock first.name = some first := by
  obtain ⟨rest, hb⟩ := head?_eq_some_iff.mp h
  simp [AstFunction.getBlock, hb]

theorem explored_visitOrder (hfirst : f.blocks.head? = some first) :
    Preorder.Explored f.knownSuccessors
      (Preorder.visit f.knownSuccessors f.blocks.length first.name []) 0 := by
  have hmem := AstFunction.mem_blockNames_of_getBlock (getBlock_head hfirst)
  refine Preorder.explored_visit f.knownSuccessors f.blockNames.toFinset ?_
    f.blocks.length first.name
    [] (mem_toFinset.mpr hmem) (by simp) ?_
  · intro x _ s hs
    exact mem_toFinset.mpr (by simpa using (mem_filter.mp hs).2)
  · have hcard : f.blockNames.toFinset.card ≤ f.blocks.length := by
      simpa [AstFunction.blockNames] using toFinset_card_le f.blockNames
    simpa using hcard

theorem isWalk_visitOrder (h : visitOrder f = .ok order) : IsWalk f order := by
  unfold visitOrder at h
  cases hb : f.blocks with
  | nil =>
    simp only [hb] at h
    cases h
  | cons first rest =>
    simp only [hb] at h
    have hfirst : f.blocks.head? = some first := by rw [hb]; rfl
    have hlen : (first :: rest).length = f.blocks.length := by rw [hb]
    have hcard : unvisited f [] ≤ f.blocks.length := by
      simpa [unvisited, AstFunction.blockNames] using toFinset_card_le f.blockNames
    rw [hlen] at h
    have hw := getVisitOrder_walk (getBlock_head hfirst) (by intro b hb'; cases hb') (by simp)
      hcard h
    have hexp := explored_visitOrder hfirst
    have hnames : order.map AstBlock.name =
        Preorder.visit f.knownSuccessors f.blocks.length first.name [] := hw.names
    rw [← hnames] at hexp
    -- along the walk every successor is a block
    have hsucc : ∀ name ∈ order.map AstBlock.name, f.knownSuccessors name = f.successors name := by
      intro name hname
      obtain ⟨b, hbo, rfl⟩ := mem_map.mp hname
      rw [AstFunction.knownSuccessors, AstFunction.successors_of_getBlock (hw.own b hbo)]
      refine filter_eq_self.mpr fun s hs => ?_
      rcases hw.known b hbo with hb' | hb'
      · cases hb'
      · simpa using hb' s hs
    have hclosed : ∀ name ∈ order.map AstBlock.name, ∀ s ∈ f.successors name,
        s ∈ order.map AstBlock.name := by
      intro name hname s hs
      obtain ⟨before, after, hsplit⟩ := append_of_mem hname
      rw [← hsucc name hname] at hs
      exact (hexp before name after hsplit (Nat.zero_le _)).1 s hs
    refine ⟨hw.own, ?_, ?_, ?_, ?_, ?_⟩
    · rw [hnames, AstFunction.preorder, AstFunction.blockNames, hb]
      rfl
    · obtain ⟨t, ht⟩ := Preorder.prefix_visit f.knownSuccessors f.blocks.length first.name []
      refine ⟨t, ?_⟩
      rw [hnames, ← ht]
      simp [AstFunction.blockNames, hb]
    · rw [hnames]
      exact Preorder.nodup_visit _ _ _ _ nodup_nil (by simp)
    · intro name
      constructor
      · intro hname
        refine ⟨first, hfirst, ?_⟩
        rw [hnames] at hname
        rcases Preorder.reachable_of_mem_visit _ _ _ _ hname with hmem | hreach
        · cases hmem
        · exact ReflTransGen.mono (fun a b hab => (mem_filter.mp hab).1) _ _ hreach
      · rintro ⟨first', hf', hreach⟩
        cases hfirst.symm.trans hf'
        induction hreach with
        | refl =>
          rw [hnames]
          exact Preorder.mem_visit_self _ _ _ _
        | tail _ hab ih => exact hclosed _ ih _ hab
    · intro before name after hsplit s hs
      have hname : name ∈ order.map AstBlock.name := by rw [hsplit]; simp
      refine (hexp before name after hsplit (Nat.zero_le _)).2 s ?_
      rw [hsucc name hname]
      convert hs

end EtherVal.TacParser
