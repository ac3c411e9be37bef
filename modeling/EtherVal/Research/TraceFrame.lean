import EtherVal.Research.TraceHeap

/-!
# What the operations on a trace write
-/

namespace EtherVal.Research
open EtherVal.Lib EtherVal.Lib.Heap TraceCell

variable {ε : Type} {h h1 h2 : TraceHeap ε} {t c p : Nat}

def mapFootprint (m : Option Nat) : Set Nat := {a | m = some a}

def CallObject.footprint (ct : CallObject ε) : Set Nat :=
  ct.gasInstRet.footprint ∪ ct.logInstRet.footprint ∪ mapFootprint ct.sha3HashToIndex ∪
    mapFootprint ct.sha3IndexToHash ∪ ct.sha3IndexList.footprint ∪ ct.jumpInstPos.footprint ∪
    ct.jumpInstTarget.footprint

def callFootprint (h : TraceHeap ε) (p : Nat) : Set Nat := {p} ∪ (h.cell p).call.footprint

def TraceObject.footprint (et : TraceObject) : Set Nat :=
  et.sstoreTrace.footprint ∪ et.eventTraces.footprint ∪ et.callTraces.footprint

def footprint (h : TraceHeap ε) (t : Nat) : Set Nat :=
  {t} ∪ (h.cell t).trace.footprint ∪ {a | ∃ p, some p ∈ callPtrs h t ∧ a ∈ callFootprint h p}

theorem self_mem_footprint (h : TraceHeap ε) (t : Nat) : t ∈ footprint h t := .inl (.inl rfl)

theorem trace_subset_footprint (h : TraceHeap ε) (t : Nat) :
    (h.cell t).trace.footprint ⊆ footprint h t := fun _ ha => .inl (.inr ha)

theorem call_subset_footprint (hp : some p ∈ callPtrs h t) : callFootprint h p ⊆ footprint h t :=
  fun _ ha => .inr ⟨p, hp, ha⟩

theorem viewMap_congr {K V : Type} [Ord K] {f : Field (TraceCell ε) (GoMap K V)} {m : Option Nat}
    (hs : Set.EqOn h1.cell h.cell (mapFootprint m)) : viewMap h1 f m = viewMap h f m := by
  cases m with
  | none => rfl
  | some a => exact congrArg f.get (hs rfl)

theorem viewObject_congr {ct : CallObject ε} (hs : Set.EqOn h1.cell h.cell ct.footprint) :
    viewObject h1 ct = viewObject h ct := by
  have hslice : ∀ {α : Type} (get : TraceCell ε → List α) (s : GoSlice),
      s.footprint ⊆ ct.footprint →
      s.read (fun p => get (h1.cell p)) = s.read (fun p => get (h.cell p)) :=
    fun get s hsub => GoSlice.read_congr fun a ha => congrArg get (hs (hsub ha))
  have hmap : ∀ {K V : Type} [Ord K] (f : Field (TraceCell ε) (GoMap K V)) (m : Option Nat),
      mapFootprint m ⊆ ct.footprint → viewMap h1 f m = viewMap h f m :=
    fun f m hsub => viewMap_congr (hs.mono hsub)
  unfold viewObject
  rw [hslice uint64s ct.gasInstRet, hslice logs ct.logInstRet, hmap _ ct.sha3HashToIndex,
    hmap _ ct.sha3IndexToHash, hslice ints ct.sha3IndexList, hslice uint64s ct.jumpInstPos,
    hslice uint256s ct.jumpInstTarget] <;>
  · intro a ha
    simp [CallObject.footprint, ha]

theorem viewCall_congr (hs : Set.EqOn h1.cell h.cell (callFootprint h p)) :
    viewCall h1 p = viewCall h p := by
  have hobject : (h1.cell p).call = (h.cell p).call := congrArg call (hs (.inl rfl))
  rw [viewCall, hobject]
  exact viewObject_congr (hs.mono fun _ ha => .inr ha)

theorem callPtrs_congr (htrace : (h1.cell t).trace.callTraces = (h.cell t).trace.callTraces)
    (hcalls : ∀ a ∈ (h.cell t).trace.callTraces.footprint, (h1.cell a).calls = (h.cell a).calls) :
    callPtrs h1 t = callPtrs h t := by
  rw [callPtrs, htrace]
  exact GoSlice.read_congr hcalls

theorem view_congr (hs : Set.EqOn h1.cell h.cell (footprint h t)) :
    view h1 t = view h t ∧ footprint h1 t = footprint h t := by
  have htrace : (h1.cell t).trace = (h.cell t).trace :=
    congrArg trace (hs (self_mem_footprint h t))
  have hslice : ∀ {α : Type} (get : TraceCell ε → List α) (s : GoSlice),
      s.footprint ⊆ (h.cell t).trace.footprint →
      s.read (fun p => get (h1.cell p)) = s.read (fun p => get (h.cell p)) :=
    fun get s hsub => GoSlice.read_congr fun a ha =>
      congrArg get (hs (trace_subset_footprint h t (hsub ha)))
  have hptrs : callPtrs h1 t = callPtrs h t := by
    rw [callPtrs, htrace]
    exact hslice calls _ fun _ ha => .inr ha
  constructor
  · have hcall : ∀ q ∈ callPtrs h t, Option.map (viewCall h1) q = Option.map (viewCall h) q := by
      intro q hq
      cases q with
      | none => rfl
      | some q =>
        have hview := viewCall_congr (hs.mono (call_subset_footprint hq))
        rw [Option.map_some, Option.map_some, hview]
    rw [view, hptrs, htrace, hslice strings _ fun _ ha => .inl (.inl ha),
      hslice events _ fun _ ha => .inl (.inr ha), List.map_congr_left hcall]
    rfl
  · have hcall : ∀ q, some q ∈ callPtrs h t → callFootprint h1 q = callFootprint h q := by
      intro q hq
      have hobject : (h1.cell q).call = (h.cell q).call :=
        congrArg call (hs (call_subset_footprint hq (.inl rfl)))
      rw [callFootprint, hobject, callFootprint]
    unfold footprint
    rw [htrace, hptrs]
    congr 1
    ext a
    constructor
    · rintro ⟨q, hq, ha⟩
      exact ⟨q, hq, hcall q hq ▸ ha⟩
    · rintro ⟨q, hq, ha⟩
      exact ⟨q, hq, (hcall q hq).symm ▸ ha⟩

def Valid (h : TraceHeap ε) (t : Nat) : Prop := ∀ a ∈ footprint h t, a < h.next

structure Owns (t : Nat) (h h1 : TraceHeap ε) : Prop where
  changes : Changes (footprint h t) h h1
  reach : ∀ a ∈ footprint h1 t, a ∈ footprint h t ∨ (h.next ≤ a ∧ a < h1.next)

namespace Owns

theorem refl (t : Nat) (h : TraceHeap ε) : Owns t h h := ⟨.refl _ h, fun _ ha => .inl ha⟩

theorem valid (ho : Owns t h h1) (hv : Valid h t) : Valid h1 t := by
  intro a ha
  rcases ho.reach a ha with ha | ha
  · exact (hv a ha).trans_le ho.changes.next
  · exact ha.2

theorem trans (h01 : Owns t h h1) (h12 : Owns t h1 h2) : Owns t h h2 where
  changes := h01.changes.trans h12.changes fun a ha hlt =>
    (h01.reach a ha).resolve_right fun hnew => absurd hlt (not_lt.mpr hnew.1)
  reach a ha := by
    have hle := h01.changes.next
    have hle' := h12.changes.next
    rcases h12.reach a ha with ha | ha
    · rcases h01.reach a ha with ha | ha
      · exact .inl ha
      · exact .inr ⟨ha.1, ha.2.trans_le hle'⟩
    · exact .inr ⟨hle.trans ha.1, ha.2⟩

end Owns

structure OwnsCall (t : Nat) (h h1 : TraceHeap ε) : Prop extends Owns t h h1 where
  ptrs : callPtrs h1 t = callPtrs h t

theorem OwnsCall.trans (h01 : OwnsCall t h h1) (h12 : OwnsCall t h1 h2) : OwnsCall t h h2 :=
  ⟨h01.toOwns.trans h12.toOwns, h12.ptrs.trans h01.ptrs⟩

structure SameLinks (h h1 : TraceHeap ε) : Prop where
  call : ∀ a, a < h.next → (h1.cell a).call = (h.cell a).call
  trace : ∀ a, a < h.next → (h1.cell a).trace = (h.cell a).trace
  calls : ∀ a, a < h.next → (h1.cell a).calls = (h.cell a).calls

theorem ownsCall_setCall {f : CallObject ε → CallObject ε} (hv : Valid h t)
    (hp : some p ∈ callPtrs h t)
    (hc : Changes (callFootprint h p) h h1) (hl : SameLinks h h1)
    (hf : ∀ a ∈ (f (h.cell p).call).footprint,
      a ∈ callFootprint h p ∨ (h.next ≤ a ∧ a < h1.next)) :
    OwnsCall t h (setCall h1 p f) := by
  have hsub := call_subset_footprint hp
  have hpv : p < h.next := hv p (hsub (.inl rfl))
  have hch : Changes (footprint h t) h (setCall h1 p f) :=
    (hc.mono hsub).trans (Changes.update h1 p _) fun a ha _ => by
      obtain rfl := ha
      exact hsub (.inl rfl)
  have htrace : ∀ a, a < h.next → ((setCall h1 p f).cell a).trace = (h.cell a).trace ∧
      ((setCall h1 p f).cell a).calls = (h.cell a).calls := by
    intro a ha
    by_cases hap : a = p
    · rw [hap, setCall, update_cell]
      exact ⟨hl.trace p hpv, hl.calls p hpv⟩
    · rw [setCall, update_cell_of_ne _ _ hap]
      exact ⟨hl.trace a ha, hl.calls a ha⟩
  have htv : t < h.next := hv t (self_mem_footprint h t)
  have hptrs : callPtrs (setCall h1 p f) t = callPtrs h t :=
    callPtrs_congr (congrArg _ (htrace t htv).1)
      fun a ha => (htrace a (hv a (trace_subset_footprint h t (.inr ha)))).2
  refine ⟨⟨hch, ?_⟩, hptrs⟩
  rintro a ((rfl | ha) | ⟨q, hq, ha⟩)
  · exact .inl (self_mem_footprint h a)
  · rw [(htrace t htv).1] at ha
    exact .inl (trace_subset_footprint h t ha)
  · rw [hptrs] at hq
    have hqv : q < h.next := hv q (call_subset_footprint hq (.inl rfl))
    by_cases hqp : q = p
    · subst hqp
      have hobject : ((setCall h1 q f).cell q).call = f (h.cell q).call := by
        rw [setCall, update_cell, ← hl.call q hqv]
      rw [callFootprint, hobject] at ha
      rcases ha with rfl | ha
      · exact .inl (hsub (.inl rfl))
      · rcases hf a ha with ha | ha
        · exact .inl (hsub ha)
        · exact .inr ha
    · have hobject : ((setCall h1 p f).cell q).call = (h.cell q).call := by
        rw [setCall, update_cell_of_ne _ _ hqp, hl.call q hqv]
      rw [callFootprint, hobject] at ha
      exact .inl (call_subset_footprint hq ha)

theorem owns_setTrace {f : TraceObject → TraceObject} (hv : Valid h t)
    (hc : Changes (footprint h t) h h1)
    (hcall : ∀ a, a < h.next → (h1.cell a).call = (h.cell a).call)
    (htrace : (h1.cell t).trace = (h.cell t).trace)
    (hf : ∀ a ∈ (f (h.cell t).trace).footprint, a ∈ footprint h t ∨ (h.next ≤ a ∧ a < h1.next))
    (hptrs : ∀ q, some q ∈ callPtrs (setTrace h1 t f) t → some q ∈ callPtrs h t ∨
      (h.next ≤ q ∧ q < h1.next ∧ (h1.cell q).call.footprint = ∅)) :
    Owns t h (setTrace h1 t f) := by
  have hch : Changes (footprint h t) h (setTrace h1 t f) :=
    hc.trans (Changes.update h1 t _) fun a ha _ => by
      obtain rfl := ha
      exact self_mem_footprint h a
  have hobject : ((setTrace h1 t f).cell t).trace = f (h.cell t).trace := by
    rw [setTrace, update_cell, ← htrace]
  have hcalls : ∀ a, ((setTrace h1 t f).cell a).call = (h1.cell a).call := by
    intro a
    by_cases hat : a = t
    · rw [hat, setTrace, update_cell]
    · rw [setTrace, update_cell_of_ne _ _ hat]
  refine ⟨hch, ?_⟩
  rintro a ((rfl | ha) | ⟨q, hq, ha⟩)
  · exact .inl (self_mem_footprint h a)
  · rw [hobject] at ha
    exact hf a ha
  · rw [callFootprint, hcalls] at ha
    rcases hptrs q hq with hq | ⟨hlo, hhi, hempty⟩
    · rw [hcall q (hv q (call_subset_footprint hq (.inl rfl)))] at ha
      exact .inl (call_subset_footprint hq ha)
    · rw [hempty] at ha
      rcases ha with rfl | ha
      · exact .inr ⟨hlo, hhi⟩
      · cases ha

theorem ownsCall_update {g : TraceCell ε → TraceCell ε} {q : Nat} (hv : Valid h t)
    (hq : q ∈ footprint h t) (hcall : ∀ c, (g c).call = c.call)
    (htrace : ∀ c, (g c).trace = c.trace)
    (hcalls : ∀ c, (g c).calls = c.calls) : OwnsCall t h (h.update q g) := by
  have hother : ∀ {β : Type} (get : TraceCell ε → β), (∀ c, get (g c) = get c) →
      ∀ a, get ((h.update q g).cell a) = get (h.cell a) := by
    intro β get hget a
    by_cases haq : a = q
    · rw [haq, update_cell, hget]
    · rw [update_cell_of_ne _ _ haq]
  have hptrs : callPtrs (h.update q g) t = callPtrs h t :=
    callPtrs_congr (congrArg _ (hother trace htrace t)) fun a _ => hother calls hcalls a
  refine ⟨⟨(Changes.update h q g).mono (Set.singleton_subset_iff.mpr hq), fun a ha => .inl ?_⟩,
    hptrs⟩
  rcases ha with (rfl | ha) | ⟨r, hr, ha⟩
  · exact self_mem_footprint h a
  · rw [hother trace htrace] at ha
    exact trace_subset_footprint h t ha
  · rw [hptrs] at hr
    rw [callFootprint, hother call hcall] at ha
    exact call_subset_footprint hr ha

section ops
variable {grow : Nat → Nat} {α : Type} [Inhabited α]

structure CallSlice.Plain (sl : CallSlice ε α) : Prop where
  call : ∀ l c, (sl.arrays.set l c).call = c.call
  trace : ∀ l c, (sl.arrays.set l c).trace = c.trace
  calls : ∀ l c, (sl.arrays.set l c).calls = c.calls
  get : ∀ ct, (sl.field.get ct).footprint ⊆ ct.footprint
  set : ∀ s ct, (sl.field.set s ct).footprint ⊆ ct.footprint ∪ s.footprint

theorem ownsCall_appendCall {sl : CallSlice ε α} (hsl : sl.Plain) (hv : Valid h t)
    (hp : some p ∈ callPtrs h t) (x : α) : OwnsCall t h (appendCall grow sl h p x) := by
  have hs := hsl.get (h.cell p).call
  refine ownsCall_setCall hv hp
    ((GoSlice.append_changes sl.arrays grow h (show 0 < [x].length from Nat.one_pos)).mono
      fun a ha => .inr (hs ha))
    ⟨fun a ha => GoSlice.append_other _ grow h hsl.call ha,
      fun a ha => GoSlice.append_other _ grow h hsl.trace ha,
      fun a ha => GoSlice.append_other _ grow h hsl.calls ha⟩ fun a ha => ?_
  rcases hsl.set _ _ ha with ha | ha
  · exact .inl (.inr ha)
  · rcases GoSlice.append_footprint sl.arrays grow h a ha with ha | ha
    · exact .inl (.inr (hs ha))
    · exact .inr ha

end ops

/-! The slices of a call trace -/

theorem callSlices_plain : (gasInstRetSlice (ε := ε)).Plain ∧ (logInstRetSlice (ε := ε)).Plain ∧
    (sha3IndexListSlice (ε := ε)).Plain ∧ (jumpInstPosSlice (ε := ε)).Plain ∧
    (jumpInstTargetSlice (ε := ε)).Plain := by
  refine ⟨?_, ?_, ?_, ?_, ?_⟩ <;>
  · refine ⟨fun _ _ => rfl, fun _ _ => rfl, fun _ _ => rfl, fun ct a ha => ?_, fun s ct a ha => ?_⟩
    all_goals
      simp only [gasInstRetSlice, logInstRetSlice, sha3IndexListSlice, jumpInstPosSlice,
        jumpInstTargetSlice, CallObject.footprint, Set.mem_union] at ha ⊢
      tauto

theorem ownsCall_makeMap {field : Field (CallObject ε) (Option Nat)} (hv : Valid h t)
    (hp : some p ∈ callPtrs h t)
    (hset : ∀ a ct, (field.set (some a) ct).footprint ⊆ ct.footprint ∪ {a}) :
    OwnsCall t h (makeMap field h p) := by
  unfold makeMap
  split
  · exact ⟨.refl t h, rfl⟩
  · have hcell : ∀ a, a < h.next → (h.alloc default).cell a = h.cell a := fun a ha =>
      alloc_cell_of_ne h _ ha.ne
    refine ownsCall_setCall hv hp ((Changes.alloc h _).mono (Set.empty_subset _))
      ⟨fun a ha => congrArg call (hcell a ha), fun a ha => congrArg trace (hcell a ha),
        fun a ha => congrArg calls (hcell a ha)⟩ fun b hb => ?_
    rcases hset _ _ hb with hb | rfl
    · exact .inl (.inr hb)
    · exact .inr ⟨le_rfl, Nat.lt_succ_self _⟩

theorem ownsCall_setMap {K V : Type} [Ord K] [Std.TransOrd K]
    {arrays : Field (TraceCell ε) (GoMap K V)}
    {field : Field (CallObject ε) (Option Nat)} (hv : Valid h t) (hp : some p ∈ callPtrs h t)
    (hget : ∀ ct, mapFootprint (field.get ct) ⊆ ct.footprint)
    (hcall : ∀ m c, (arrays.set m c).call = c.call)
    (htrace : ∀ m c, (arrays.set m c).trace = c.trace)
    (hcalls : ∀ m c, (arrays.set m c).calls = c.calls) (k : K) (v : V) :
    OwnsCall t h (setMap arrays field h p k v) := by
  unfold setMap
  split
  · next a ha =>
    have hmem : a ∈ footprint h t := call_subset_footprint hp (.inr (hget _ ha))
    exact ownsCall_update hv hmem (fun c => hcall _ c) (fun c => htrace _ c) fun c => hcalls _ c
  · exact ⟨.refl t h, rfl⟩

section operations
variable {grow : Nat → Nat}

theorem ownsCall_addJumpInstPosTarget (hv : Valid h t) (hp : some p ∈ callPtrs h t) (pos : Nat)
    (target : Word) : OwnsCall t h ((callMemory grow p).addJumpInstPosTarget h pos target) := by
  have hpos : OwnsCall t h (appendCall grow jumpInstPosSlice h p pos) :=
    ownsCall_appendCall callSlices_plain.2.2.2.1 hv hp pos
  exact hpos.trans (ownsCall_appendCall callSlices_plain.2.2.2.2 (hpos.valid hv)
    (hpos.ptrs ▸ hp) target)

theorem ownsCall_makeMaps (hv : Valid h t) (hp : some p ∈ callPtrs h t) :
    OwnsCall t h (makeMap indexToHashOf (makeMap hashToIndexOf h p) p) := by
  have hfirst : OwnsCall t h (makeMap hashToIndexOf h p) := by
    refine ownsCall_makeMap hv hp fun a ct b hb => ?_
    simp only [hashToIndexOf, CallObject.footprint, mapFootprint, Set.mem_union, Set.mem_ofPred_eq,
      Option.some.injEq, Set.mem_singleton_iff] at hb ⊢
    tauto
  refine hfirst.trans (ownsCall_makeMap (hfirst.valid hv) (hfirst.ptrs ▸ hp) fun a ct b hb => ?_)
  simp only [indexToHashOf, CallObject.footprint, mapFootprint, Set.mem_union, Set.mem_ofPred_eq,
    Option.some.injEq, Set.mem_singleton_iff] at hb ⊢
  tauto

theorem ownsCall_setMaps (hv : Valid h t) (hp : some p ∈ callPtrs h t) (hash : Word) (i : Int) :
    OwnsCall t h (setMap indexToHashField indexToHashOf
      (setMap hashToIndexField hashToIndexOf h p hash i) p i hash) := by
  have hfirst : OwnsCall t h (setMap hashToIndexField hashToIndexOf h p hash i) :=
    ownsCall_setMap hv hp
      (fun ct a ha => by
        simp [CallObject.footprint, show a ∈ mapFootprint ct.sha3HashToIndex from ha])
      (fun _ _ => rfl) (fun _ _ => rfl) (fun _ _ => rfl) hash i
  exact hfirst.trans (ownsCall_setMap (hfirst.valid hv) (hfirst.ptrs ▸ hp)
    (fun ct a ha => by
      simp [CallObject.footprint, show a ∈ mapFootprint ct.sha3IndexToHash from ha])
    (fun _ _ => rfl) (fun _ _ => rfl) (fun _ _ => rfl) i hash)

theorem ownsCall_addSHA3InstRet (hv : Valid h t) (hp : some p ∈ callPtrs h t) (hash : Word) :
    OwnsCall t h ((callMemory grow p).addSHA3InstRet h hash) := by
  have hmade := ownsCall_makeMaps hv hp
  have hv1 := hmade.valid hv
  have hp1 := hmade.ptrs ▸ hp
  generalize hh1 : makeMap indexToHashOf (makeMap hashToIndexOf h p) p = h1 at hmade hv1 hp1
  have hset : OwnsCall t h1 (if (toIndex h1 p)[hash]?.isNone then
      setMap indexToHashField indexToHashOf
        (setMap hashToIndexField hashToIndexOf h1 p hash (toIndex h1 p).size) p
        (toIndex h1 p).size hash
      else h1) := by
    split
    · exact ownsCall_setMaps hv1 hp1 hash _
    · exact ⟨.refl t h1, rfl⟩
  have happend : ∀ i, OwnsCall t _ (appendCall grow sha3IndexListSlice _ p i) :=
    ownsCall_appendCall callSlices_plain.2.2.1 (hset.valid hv1) (hset.ptrs ▸ hp1)
  subst hh1
  exact hmade.trans (hset.trans (happend _))

theorem setTrace_calls (h : TraceHeap ε) (t : Nat) (f : TraceObject → TraceObject) (a : Nat) :
    ((setTrace h t f).cell a).calls = (h.cell a).calls := by
  by_cases hat : a = t
  · rw [hat, setTrace, update_cell]
  · rw [setTrace, update_cell_of_ne _ _ hat]

theorem owns_appendTrace {α : Type} [Inhabited α] {arrays : Field (TraceCell ε) (List α)}
    {field : Field TraceObject GoSlice} (hv : Valid h t)
    (hcall : ∀ l c, (arrays.set l c).call = c.call)
    (htrace : ∀ l c, (arrays.set l c).trace = c.trace)
    (hcalls : ∀ l c, (arrays.set l c).calls = c.calls)
    (hget : ∀ et, (field.get et).footprint ⊆ et.footprint)
    (hset : ∀ s et, (field.set s et).footprint ⊆ et.footprint ∪ s.footprint)
    (hsame : ∀ s et, (field.set s et).callTraces = et.callTraces) (x : α) :
    Owns t h (appendTrace grow arrays field h t x) := by
  have htv : t < h.next := hv t (self_mem_footprint h t)
  have hs := (hget (h.cell t).trace).trans (trace_subset_footprint h t)
  refine owns_setTrace hv
    ((GoSlice.append_changes arrays grow h (show 0 < [x].length from Nat.one_pos)).mono hs)
    (fun a ha => GoSlice.append_other _ grow h hcall ha) (GoSlice.append_other _ grow h htrace htv)
    (fun a ha => ?_) fun q hq => ?_
  · rcases hset _ _ ha with ha | ha
    · exact .inl (trace_subset_footprint h t ha)
    · rcases GoSlice.append_footprint arrays grow h a ha with ha | ha
      · exact .inl (hs ha)
      · exact .inr ha
  · -- the call traces are read from the same array, which has not been written to
    left
    rwa [callPtrs_congr (h := h)] at hq
    · rw [setTrace, update_cell, hsame, GoSlice.append_other _ grow h htrace htv]
    · intro a ha
      rw [setTrace_calls]
      exact GoSlice.append_other _ grow h hcalls (hv a (trace_subset_footprint h t (.inr ha)))

theorem owns_setSstoreCount (hv : Valid h t) (f : Int → Int) :
    Owns t h ((traceMemory grow t).sstoreCount h f) := by
  refine owns_setTrace (f := fun et => { et with sstoreCount := f et.sstoreCount }) hv (.refl _ h)
    (fun _ _ => rfl) rfl (fun a ha => .inl (trace_subset_footprint h t ha)) fun q hq => .inl ?_
  rwa [callPtrs_congr (h := h)] at hq
  · exact congrArg (·.trace.callTraces) (update_cell h t _)
  · intro a _
    exact setTrace_calls h t _ a

theorem owns_addSstoreTrace (hv : Valid h t) (text : GoString) :
    Owns t h ((traceMemory grow t).sstoreTrace h text) := by
  refine owns_appendTrace hv (fun _ _ => rfl) (fun _ _ => rfl) (fun _ _ => rfl) (fun et a ha => ?_)
    (fun s et a ha => ?_) (fun _ _ => rfl) text
  · exact .inl (.inl ha)
  · simp only [TraceObject.footprint, Set.mem_union] at ha ⊢
    tauto

theorem owns_addEventTrace (hv : Valid h t) (event : EVMEventTrace) :
    Owns t h ((traceMemory grow t).eventTraces h event) := by
  refine owns_appendTrace hv (fun _ _ => rfl) (fun _ _ => rfl) (fun _ _ => rfl) (fun et a ha => ?_)
    (fun s et a ha => ?_) (fun _ _ => rfl) _
  · exact .inl (.inr ha)
  · simp only [TraceObject.footprint, Set.mem_union] at ha ⊢
    tauto

theorem newCall_footprint (id : Int) : ({ callId := id } : CallObject ε).footprint = ∅ := by
  simp [CallObject.footprint, GoSlice.footprint, GoSlice.nil, mapFootprint]

theorem owns_appendCalls {h0 : TraceHeap ε} {id : Int} (hv : Valid h t) (hchanges : Changes ∅ h h0)
    (hnext : h0.next = h.next + 1) (hnew : (h0.cell h.next).call = { callId := id }) :
    Owns t h (appendTrace grow callsField callTracesOf h0 t (some h.next)) := by
  have htv : t < h.next := hv t (self_mem_footprint h t)
  have hold : ∀ a, a < h.next → h0.cell a = h.cell a := fun a ha =>
    hchanges.cell a ha (Set.notMem_empty a)
  have htrace : (h0.cell t).trace = (h.cell t).trace := congrArg trace (hold t htv)
  have hsub : (h0.cell t).trace.callTraces.footprint ⊆ footprint h t := by
    rw [htrace]
    exact fun a ha => trace_subset_footprint h t (.inr ha)
  have hread : (h0.cell t).trace.callTraces.read (fun a => (h0.cell a).calls) = callPtrs h t :=
    callPtrs_congr (congrArg _ htrace)
      fun a ha => congrArg calls (hold a (hv a (trace_subset_footprint h t (.inr ha))))
  unfold appendTrace
  change Owns t h (setTrace (GoSlice.append callsField grow h0 (h0.cell t).trace.callTraces _).2 t
    (callTracesOf.set (GoSlice.append callsField grow h0 (h0.cell t).trace.callTraces _).1))
  generalize (h0.cell t).trace.callTraces = s at hsub hread ⊢
  have happend := GoSlice.append_changes callsField grow h0 (s := s)
    (show 0 < [some h.next].length from Nat.one_pos)
  have hnext1 := happend.next
  have hcall1 : ∀ a, a < h0.next →
      ((s.append callsField grow h0 [some h.next]).2.cell a).call = (h0.cell a).call :=
    fun a ha => GoSlice.append_other callsField grow h0 (fun _ _ => rfl) ha
  have htrace1 : ((s.append callsField grow h0 [some h.next]).2.cell t).trace = (h0.cell t).trace :=
    GoSlice.append_other callsField grow h0 (fun _ _ => rfl) (by omega)
  refine owns_setTrace hv ?_ (fun a ha => ?_) (htrace1.trans htrace) (fun a ha => ?_) fun q hq => ?_
  · exact (hchanges.mono (Set.empty_subset _)).trans happend fun a ha _ => hsub ha
  · rw [hcall1 a (by omega), hold a ha]
  · rcases ha with ha | ha
    · exact .inl (trace_subset_footprint h t (.inl ha))
    · rcases GoSlice.append_footprint callsField grow h0 a ha with ha | ha
      · exact .inl (hsub ha)
      · exact .inr ⟨by omega, ha.2⟩
  · have hptrs : some q ∈ (s.append callsField grow h0 [some h.next]).1.read
        fun a => ((s.append callsField grow h0 [some h.next]).2.cell a).calls := by
      rw [callPtrs] at hq
      simp only [setTrace_calls] at hq
      rwa [setTrace, update_cell] at hq
    rcases GoSlice.mem_read_append callsField grow h0 (fun _ _ => rfl) hptrs with hq | hq
    · left
      rw [← hread]
      exact hq
    · cases List.mem_singleton.mp hq
      refine .inr ⟨le_rfl, by omega, ?_⟩
      rw [hcall1 _ (by omega), hnew, newCall_footprint]

theorem owns_nextCallTrace (hv : Valid h t) : Owns t h ((traceMemory grow t).nextCallTrace h) :=
  owns_appendCalls hv (Changes.alloc h _) rfl (congrArg call (alloc_cell h _))

theorem Owns.onCall {f : Nat → TraceHeap ε} {i : Nat}
    (hf : ∀ p, some p ∈ callPtrs h t → OwnsCall t h (f p)) : Owns t h (onCall h t i f) := by
  unfold Research.onCall
  split
  · next p hp => exact (hf p (List.mem_of_getElem? hp)).toOwns
  · exact .refl t h

theorem owns_apply (hv : Valid h t) (op : TraceOp) : Owns t h (op.apply grow h t) := by
  cases op with
  | addGasInstRet i gas =>
    exact .onCall fun p hp => ownsCall_appendCall callSlices_plain.1 hv hp gas
  | addLogInstRet i log =>
    exact .onCall fun p hp => ownsCall_appendCall callSlices_plain.2.1 hv hp log
  | addSHA3InstRet i hash => exact .onCall fun p hp => ownsCall_addSHA3InstRet hv hp hash
  | addJumpInstPosTarget i pos target =>
    exact .onCall fun p hp => ownsCall_addJumpInstPosTarget hv hp pos target
  | incSstoreCount => exact owns_setSstoreCount hv _
  | addSstoreTrace text => exact owns_addSstoreTrace hv text
  | addEventTrace topics data => exact owns_addEventTrace hv _
  | nextCallTrace => exact owns_nextCallTrace hv

end operations

structure Apart (h : TraceHeap ε) (t c : Nat) : Prop where
  left : Valid h t
  right : Valid h c
  disjoint : ∀ a, a ∈ footprint h t → a ∉ footprint h c

theorem Apart.symm (ha : Apart h t c) : Apart h c t :=
  ⟨ha.right, ha.left, fun a hc ht => ha.disjoint a ht hc⟩

theorem Apart.step (ha : Apart h t c) (ho : Owns t h h1) : Apart h1 t c ∧ view h1 c = view h c := by
  have hsame : Set.EqOn h1.cell h.cell (footprint h c) := fun a hac =>
    ho.changes.cell a (ha.right a hac) fun hat => ha.disjoint a hat hac
  obtain ⟨hview, hfoot⟩ := view_congr hsame
  refine ⟨⟨ho.valid ha.left, ?_, ?_⟩, hview⟩
  · intro a hac
    rw [hfoot] at hac
    exact (ha.right a hac).trans_le ho.changes.next
  · intro a hat hac
    rw [hfoot] at hac
    rcases ho.reach a hat with hat | hat
    · exact ha.disjoint a hat hac
    · exact absurd (ha.right a hac) (not_lt.mpr hat.1)

def applyAll (grow : Nat → Nat) (t c : Nat) (h : TraceHeap ε) (ops : List (Bool × TraceOp)) :
    TraceHeap ε :=
  ops.foldl (fun h op => op.2.apply grow h (if op.1 then t else c)) h

theorem Apart.applyAll (grow : Nat → Nat) (ha : Apart h t c) (ops : List (Bool × TraceOp)) :
    Apart (applyAll grow t c h ops) t c := by
  induction ops generalizing h with
  | nil => exact ha
  | cons op ops ih =>
    obtain ⟨side, op⟩ := op
    apply ih
    cases side with
    | true => exact (ha.step (owns_apply ha.left op)).1
    | false => exact (ha.symm.step (owns_apply ha.right op)).1.symm

def Independent (grow : Nat → Nat) (h : TraceHeap ε) (t c : Nat) : Prop :=
  ∀ (ops : List (Bool × TraceOp)) (op : TraceOp),
    view (op.apply grow (applyAll grow t c h ops) t) c = view (applyAll grow t c h ops) c ∧
      view (op.apply grow (applyAll grow t c h ops) c) t = view (applyAll grow t c h ops) t

theorem Apart.independent (grow : Nat → Nat) (ha : Apart h t c) : Independent grow h t c := by
  intro ops op
  have hall := ha.applyAll grow ops
  exact ⟨(hall.step (owns_apply hall.left op)).2, (hall.symm.step (owns_apply hall.right op)).2⟩

end EtherVal.Research
