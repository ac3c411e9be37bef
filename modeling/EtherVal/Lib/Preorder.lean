import Mathlib.Tactic
import Mathlib.Data.List.Nodup
import Mathlib.Data.Finset.Card
import Mathlib.Logic.Relation

/-!
# Depth-first preorder of a graph

A graph is given by the successor list of each vertex.  The list of visited vertices is at
once the set of marks and the order of the visits.
-/

namespace EtherVal.Lib.Preorder
open Relation List

variable {V : Type} [DecidableEq V] (succ : V → List V)
variable {v s : V} {o : List V}

def visit : Nat → V → List V → List V
  | 0, v, order => order ++ [v]
  | fuel + 1, v, order =>
    (succ v).foldl (fun o s => if s ∈ o then o else visit fuel s o) (order ++ [v])

def visitAll (fuel : Nat) (ss : List V) (order : List V) : List V :=
  ss.foldl (fun o s => if s ∈ o then o else visit succ fuel s o) order

theorem visit_succ (fuel : Nat) (v : V) (order : List V) :
    visit succ (fuel + 1) v order = visitAll succ fuel (succ v) (order ++ [v]) := rfl

variable {order : List V}

theorem visitAll_cons_mem (fuel : Nat) (ss : List V) (h : s ∈ order) :
    visitAll succ fuel (s :: ss) order = visitAll succ fuel ss order := by
  simp [visitAll, h]

theorem visitAll_cons_not_mem (fuel : Nat) (ss : List V) (h : s ∉ order) :
    visitAll succ fuel (s :: ss) order = visitAll succ fuel ss (visit succ fuel s order) := by
  simp [visitAll, h]

theorem visitAll_induction {fuel : Nat} {P : List V → Prop}
    (hstep : ∀ s o, s ∉ o → P o → P (visit succ fuel s o)) (ss : List V) (order : List V)
    (h : P order) : P (visitAll succ fuel ss order) := by
  induction ss generalizing order with
  | nil => exact h
  | cons s ss ih =>
    by_cases hs : s ∈ order
    · rw [visitAll_cons_mem succ fuel ss hs]
      exact ih order h
    · rw [visitAll_cons_not_mem succ fuel ss hs]
      exact ih _ (hstep s order hs h)

theorem prefix_visit (fuel : Nat) (v : V) (order : List V) :
    order ++ [v] <+: visit succ fuel v order := by
  induction fuel generalizing v order with
  | zero => exact prefix_rfl
  | succ fuel ih =>
    rw [visit_succ]
    refine visitAll_induction succ (P := fun o => order ++ [v] <+: o) ?_ _ _ prefix_rfl
    intro s o _ ho
    exact ho.trans ((prefix_append o [s]).trans (ih s o))

theorem mem_visit_self (fuel : Nat) (v : V) (order : List V) : v ∈ visit succ fuel v order :=
  (prefix_visit succ fuel v order).subset (by simp)

theorem mem_visit_of_mem {fuel : Nat} {x : V} (h : x ∈ order) :
    x ∈ visit succ fuel v order :=
  (prefix_visit succ fuel v order).subset (by simp [h])

omit [DecidableEq V] in
theorem nodup_snoc (hn : order.Nodup) (hv : v ∉ order) :
    (order ++ [v]).Nodup := by
  rw [nodup_append]
  refine ⟨hn, nodup_singleton v, ?_⟩
  intro a ha b hb hab
  rw [mem_singleton] at hb
  exact hv (hb ▸ hab ▸ ha)

theorem nodup_visit (fuel : Nat) (v : V) (order : List V) (hn : order.Nodup) (hv : v ∉ order) :
    (visit succ fuel v order).Nodup := by
  induction fuel generalizing v order with
  | zero => exact nodup_snoc hn hv
  | succ fuel ih =>
    rw [visit_succ]
    refine visitAll_induction succ (P := List.Nodup) ?_ _ _ (nodup_snoc hn hv)
    exact fun s o hs ho => ih s o ho hs

theorem reachable_of_mem_visit (fuel : Nat) (v : V) (order : List V) {x : V}
    (hx : x ∈ visit succ fuel v order) :
    x ∈ order ∨ ReflTransGen (fun a b => b ∈ succ a) v x := by
  induction fuel generalizing v order with
  | zero =>
    simp only [visit, mem_append, mem_singleton] at hx
    rcases hx with hx | rfl
    · exact Or.inl hx
    · exact Or.inr ReflTransGen.refl
  | succ fuel ih =>
    -- the loop visits a suffix of the successors of `v`
    have key : ∀ (ss o : List V), (∀ s ∈ ss, s ∈ succ v) → x ∈ visitAll succ fuel ss o →
        x ∈ o ∨ ReflTransGen (fun a b => b ∈ succ a) v x := by
      intro ss
      induction ss with
      | nil => exact fun o _ h => Or.inl h
      | cons s ss ihs =>
        intro o hss h
        by_cases hs : s ∈ o
        · rw [visitAll_cons_mem succ fuel ss hs] at h
          exact ihs o (fun t ht => hss t (by simp [ht])) h
        · rw [visitAll_cons_not_mem succ fuel ss hs] at h
          rcases ihs _ (fun t ht => hss t (by simp [ht])) h with h | h
          · rcases ih s o h with h | h
            · exact Or.inl h
            · exact Or.inr (ReflTransGen.head (hss s (by simp)) h)
          · exact Or.inr h
    rcases key (succ v) (order ++ [v]) (fun _ h => h) hx with h | h
    · simp only [mem_append, mem_singleton] at h
      rcases h with h | rfl
      · exact Or.inl h
      · exact Or.inr ReflTransGen.refl
    · exact Or.inr h

def Explored (r : List V) (k : Nat) : Prop :=
  ∀ pre x post, r = pre ++ x :: post → k ≤ pre.length →
    (∀ s ∈ succ x, s ∈ r) ∧
    ∀ s, (succ x).find? (fun s => s ∉ pre ++ [x]) = some s → post.head? = some s

theorem explored_length (r : List V) : Explored succ r r.length := by
  intro pre x post hr hk
  rw [hr, length_append, length_cons] at hk
  omega

theorem Explored.extend {r : List V} {k : Nat} (ho : Explored succ o k) (hr : o <+: r)
    (hnew : Explored succ r o.length) : Explored succ r k := by
  intro pre x post he hk
  by_cases hlen : o.length ≤ pre.length
  · exact hnew pre x post he hlen
  · obtain ⟨t, rfl⟩ := hr
    have hpre : pre <+: o :=
      prefix_of_prefix_length_le ⟨x :: post, he.symm⟩ (prefix_append o t) (by omega)
    obtain ⟨u, rfl⟩ := hpre
    rw [append_assoc, append_cancel_left_eq] at he
    cases u with
    | nil => simp at hlen
    | cons y u =>
      rw [cons_append, List.cons.injEq] at he
      obtain ⟨rfl, rfl⟩ := he
      obtain ⟨hclosed, hnext⟩ := ho pre y u rfl hk
      refine ⟨fun s hs => mem_append_left t (hclosed s hs), ?_⟩
      intro s hs
      have hu := hnext s hs
      cases u with
      | nil => cases hu
      | cons z u => exact hu

structure LoopInv (order : List V) (v : V) (rest o : List V) : Prop where
  start : order ++ [v] <+: o
  explored : Explored succ o (order.length + 1)
  done : ∀ s ∈ succ v, s ∈ o ∨ s ∈ rest
  next : ∀ s, (succ v).find? (fun s => s ∉ order ++ [v]) = some s →
    order ++ [v, s] <+: o ∨ (o = order ++ [v] ∧ rest.find? (fun s => s ∉ order ++ [v]) = some s)

theorem LoopInv.init (order : List V) (v : V) :
    LoopInv succ order v (succ v) (order ++ [v]) where
  start := prefix_rfl
  explored := by simpa using explored_length succ (order ++ [v])
  done := fun _ hs => Or.inr hs
  next := fun _ hs => Or.inr ⟨rfl, hs⟩

theorem LoopInv.skip {rest : List V} (h : LoopInv succ order v (s :: rest) o) (hs : s ∈ o) :
    LoopInv succ order v rest o where
  start := h.start
  explored := h.explored
  done := by
    intro t ht
    rcases h.done t ht with h | h
    · exact Or.inl h
    · rcases mem_cons.mp h with rfl | h
      · exact Or.inl hs
      · exact Or.inr h
  next := by
    intro t ht
    rcases h.next t ht with hp | ⟨rfl, hf⟩
    · exact Or.inl hp
    · rw [find?_cons_of_neg (by simp only [hs, not_true, decide_false]; simp)] at hf
      exact Or.inr ⟨rfl, hf⟩

theorem LoopInv.step {v s : V} {rest o r : List V} (h : LoopInv succ order v (s :: rest) o)
    (hs : s ∉ o) (hr : o ++ [s] <+: r) (hnew : Explored succ r o.length) :
    LoopInv succ order v rest r where
  start := h.start.trans ((prefix_append o [s]).trans hr)
  explored := h.explored.extend succ ((prefix_append o [s]).trans hr) hnew
  done := by
    intro t ht
    rcases h.done t ht with h | h
    · exact Or.inl (hr.subset (by simp [h]))
    · rcases mem_cons.mp h with rfl | h
      · exact Or.inl (hr.subset (by simp))
      · exact Or.inr h
  next := by
    intro t ht
    rcases h.next t ht with hp | ⟨rfl, hf⟩
    · exact Or.inl (hp.trans ((prefix_append o [s]).trans hr))
    · rw [find?_cons_of_pos (by simpa using hs), Option.some.injEq] at hf
      subst hf
      exact Or.inl (by simpa using hr)

theorem LoopInv.finish (h : LoopInv succ order v [] o) :
    Explored succ o order.length := by
  intro pre x post he hk
  by_cases hlen : order.length + 1 ≤ pre.length
  · exact h.explored pre x post he hlen
  · obtain ⟨t, ht⟩ := h.start
    have hpre : pre = order := by
      have hp : pre <+: o := ⟨x :: post, he.symm⟩
      have hq : order <+: o := (prefix_append order [v]).trans h.start
      exact (prefix_of_prefix_length_le hp hq (by omega)).eq_of_length (by omega)
    subst hpre
    rw [← ht, append_assoc, append_cancel_left_eq] at he
    simp only [singleton_append, List.cons.injEq] at he
    obtain ⟨rfl, rfl⟩ := he
    refine ⟨fun s hs => (h.done s hs).resolve_right not_mem_nil, ?_⟩
    intro s hs
    rcases h.next s hs with hp | ⟨_, hn⟩
    · obtain ⟨u, hu⟩ := hp
      rw [← ht] at hu
      simp only [append_assoc, cons_append, nil_append,
        append_cancel_left_eq, List.cons.injEq, true_and] at hu
      rw [← hu]
      rfl
    · cases hn

theorem explored_visit (U : Finset V) (hU : ∀ x ∈ U, ∀ s ∈ succ x, s ∈ U) (fuel : Nat) (v : V)
    (order : List V) (hv : v ∈ U) (hn : v ∉ order)
    (hfuel : (U.filter (fun x => x ∉ order)).card ≤ fuel) :
    Explored succ (visit succ fuel v order) order.length := by
  induction fuel generalizing v order with
  | zero =>
    have hmem : v ∈ U.filter (fun x => x ∉ order) := Finset.mem_filter.mpr ⟨hv, hn⟩
    exact absurd (Finset.card_pos.mpr ⟨v, hmem⟩) (by omega)
  | succ fuel ih =>
    -- once `v` is visited there is fuel for each of its successors
    have hless : ∀ o, order ++ [v] <+: o → (U.filter (fun x => x ∉ o)).card ≤ fuel := by
      intro o ho
      have hsub : U.filter (fun x => x ∉ o) ⊂ U.filter (fun x => x ∉ order) := by
        refine (Finset.ssubset_iff_of_subset ?_).mpr ⟨v, ?_, ?_⟩
        · intro x hx
          rw [Finset.mem_filter] at hx ⊢
          exact ⟨hx.1, fun h => hx.2 (ho.subset (by simp [h]))⟩
        · exact Finset.mem_filter.mpr ⟨hv, hn⟩
        · exact fun h => (Finset.mem_filter.mp h).2 (ho.subset (by simp))
      have := Finset.card_lt_card hsub
      omega
    have loop : ∀ rest o, (∀ s ∈ rest, s ∈ succ v) → LoopInv succ order v rest o →
        LoopInv succ order v [] (visitAll succ fuel rest o) := by
      intro rest
      induction rest with
      | nil => exact fun o _ h => h
      | cons s rest ihs =>
        intro o hrest h
        have htail : ∀ t ∈ rest, t ∈ succ v := fun t ht => hrest t (by simp [ht])
        by_cases hs : s ∈ o
        · rw [visitAll_cons_mem succ fuel rest hs]
          exact ihs o htail (h.skip succ hs)
        · rw [visitAll_cons_not_mem succ fuel rest hs]
          have hsU : s ∈ U := hU v hv s (hrest s (by simp))
          have hnew := ih s o hsU hs (hless o h.start)
          exact ihs _ htail (h.step succ hs (prefix_visit succ fuel s o) hnew)
    rw [visit_succ]
    exact (loop (succ v) _ (fun _ h => h) (LoopInv.init succ order v)).finish succ

end EtherVal.Lib.Preorder
