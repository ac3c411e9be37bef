import EtherVal.Research.TraceFrame

/-!
# A copy of a trace is a trace of its own
-/

namespace EtherVal.Research
open EtherVal.Lib EtherVal.Lib.Heap TraceCell List

variable {ε : Type} {h h1 h2 : TraceHeap ε} {t c p : Nat}
variable {h0 : TraceHeap ε} {α : Type}

def CallValue.copied (v : CallValue ε) : CallValue ε :=
  { v with refundGas := 0, errMsg := [], logInstRet := v.logInstRet.map TraceLog.copied }

def TraceValue.copied (v : TraceValue ε) : TraceValue ε :=
  { v with callTraces := v.callTraces.map (Option.map CallValue.copied) }

structure Copied {α : Type} (S : Set Nat) (x : α) (read : TraceHeap ε → α) (h h1 : TraceHeap ε) :
    Prop where
  changes : Changes ∅ h h1
  new : ∀ a ∈ S, h.next ≤ a ∧ a < h1.next
  value : ∀ h2, Changes ∅ h1 h2 → read h2 = x

theorem Heap.Changes.eqOn {S : Set Nat} (hc : Changes ∅ h h1) (hS : ∀ a ∈ S, a < h.next) :
    Set.EqOn h1.cell h.cell S := fun a ha => hc.cell a (hS a ha) (Set.notMem_empty a)

theorem copied_slice (g : α → α) {f : Field (TraceCell ε) (List α)}
    (hf : ∀ l c, f.get (f.set l c) = l) {s : GoSlice} (hc : Changes ∅ h0 h)
    (hs : ∀ a ∈ s.footprint, a < h0.next) :
    Copied (s.copyWith f g h).1.footprint ((s.read fun a => f.get (h0.cell a)).map g)
      (fun h2 => (s.copyWith f g h).1.read fun a => f.get (h2.cell a)) h (s.copyWith f g h).2 where
  changes := GoSlice.copyWith_changes f g h s
  new := GoSlice.copyWith_footprint f g h s
  value h2 h12 := by
    have hnew : ∀ a ∈ (s.copyWith f g h).1.footprint,
        f.get (h2.cell a) = f.get ((s.copyWith f g h).2.cell a) := fun a ha =>
      congrArg f.get (h12.cell a (GoSlice.copyWith_footprint f g h s a ha).2 (Set.notMem_empty a))
    have hold : ∀ a ∈ s.footprint, f.get (h.cell a) = f.get (h0.cell a) :=
      fun a ha => congrArg f.get (hc.cell a (hs a ha) (Set.notMem_empty a))
    rw [GoSlice.read_congr hnew, GoSlice.read_copyWith f g h s hf, GoSlice.read_congr hold]

theorem copied_map {K V : Type} [Ord K] {f : Field (TraceCell ε) (GoMap K V)}
    (hf : ∀ m c, f.get (f.set m c) = m) {m : Option Nat} (hc : Changes ∅ h0 h)
    (hm : ∀ a ∈ mapFootprint m, a < h0.next) :
    Copied (mapFootprint (copyMap f h m).1) (viewMap h0 f m)
      (fun h2 => viewMap h2 f (copyMap f h m).1) h (copyMap f h m).2 where
  changes := Changes.alloc h _
  new := by
    rintro a ha
    cases ha
    exact ⟨le_rfl, Nat.lt_succ_self _⟩
  value h2 h12 := by
    have hnew : h2.cell h.next = (copyMap f h m).2.cell h.next :=
      h12.cell _ (Nat.lt_succ_self _) (Set.notMem_empty _)
    change f.get (h2.cell h.next) = _
    rw [hnew, copyMap, alloc_cell, hf]
    exact viewMap_congr fun a ha => hc.cell a (hm a ha) (Set.notMem_empty a)

theorem changes_trans {h3 : TraceHeap ε} (h01 : Changes ∅ h h1) (h12 : Changes ∅ h1 h3) :
    Changes ∅ h h3 :=
  h01.trans h12 fun a ha _ => absurd ha (Set.notMem_empty a)

/-- Two copies made one after the other. -/
theorem Copied.and {β : Type} {S T : Set Nat} {x : α} {y : β} {read : TraceHeap ε → α}
    {read' : TraceHeap ε → β} (hx : Copied S x read h h1) (hy : Copied T y read' h1 h2) :
    Copied (S ∪ T) (x, y) (fun h => (read h, read' h)) h h2 where
  changes := changes_trans hx.changes hy.changes
  new a ha := by
    have hle1 := hx.changes.next
    have hle2 := hy.changes.next
    rcases ha with ha | ha
    · have := hx.new a ha
      omega
    · have := hy.new a ha
      omega
  value h3 hc := by
    rw [hx.value h3 (changes_trans hy.changes hc), hy.value h3 hc]

theorem copied_call (hv : ∀ a ∈ callFootprint h p, a < h.next) :
    Copied (callFootprint (copyCall h p).2 (copyCall h p).1) (viewCall h p).copied
      (fun h2 => viewCall h2 (copyCall h p).1) h (copyCall h p).2 := by
  have hct : ∀ a ∈ (h.cell p).call.footprint, a < h.next := fun a ha => hv a (.inr ha)
  unfold copyCall viewCall
  generalize (h.cell p).call = ct at hct ⊢
  dsimp only
  have hgas := copied_slice id (f := uint64sField) (fun _ _ => rfl) (.refl ∅ h) (s := ct.gasInstRet)
    fun a ha => hct a (by simp [CallObject.footprint, ha])
  generalize ct.gasInstRet.copyWith uint64sField id h = r at hgas ⊢
  obtain ⟨gasInstRet, h1⟩ := r
  have hlogs := hgas.and
      (copied_slice TraceLog.copied (f := logsField) (fun _ _ => rfl) hgas.changes
    (s := ct.logInstRet) fun a ha => hct a (by simp [CallObject.footprint, ha]))
  generalize ct.logInstRet.copyWith logsField TraceLog.copied h1 = r at hlogs ⊢
  obtain ⟨logInstRet, h2⟩ := r
  have hhti := hlogs.and (copied_map (f := hashToIndexField) (fun _ _ => rfl) hlogs.changes
    (m := ct.sha3HashToIndex) fun a ha => hct a (by simp [CallObject.footprint, ha]))
  generalize copyMap hashToIndexField h2 ct.sha3HashToIndex = r at hhti ⊢
  obtain ⟨sha3HashToIndex, h3⟩ := r
  have hith := hhti.and (copied_map (f := indexToHashField) (fun _ _ => rfl) hhti.changes
    (m := ct.sha3IndexToHash) fun a ha => hct a (by simp [CallObject.footprint, ha]))
  generalize copyMap indexToHashField h3 ct.sha3IndexToHash = r at hith ⊢
  obtain ⟨sha3IndexToHash, h4⟩ := r
  have hlist := hith.and (copied_slice id (f := intsField) (fun _ _ => rfl) hith.changes
    (s := ct.sha3IndexList) fun a ha => hct a (by simp [CallObject.footprint, ha]))
  generalize ct.sha3IndexList.copyWith intsField id h4 = r at hlist ⊢
  obtain ⟨sha3IndexList, h5⟩ := r
  have hpos := hlist.and (copied_slice id (f := uint64sField) (fun _ _ => rfl) hlist.changes
    (s := ct.jumpInstPos) fun a ha => hct a (by simp [CallObject.footprint, ha]))
  generalize ct.jumpInstPos.copyWith uint64sField id h5 = r at hpos ⊢
  obtain ⟨jumpInstPos, h6⟩ := r
  have hall := hpos.and (copied_slice id (f := uint256sField) (fun _ _ => rfl) hpos.changes
    (s := ct.jumpInstTarget) fun a ha => hct a (by simp [CallObject.footprint, ha]))
  generalize ct.jumpInstTarget.copyWith uint256sField id h6 = r at hall ⊢
  obtain ⟨jumpInstTarget, h7⟩ := r
  dsimp only at hall ⊢
  refine ⟨changes_trans hall.changes (Changes.alloc h7 _), fun a ha => ?_, fun h8 c8 => ?_⟩
  · rw [callFootprint, alloc_cell] at ha
    rw [alloc_next]
    rcases ha with rfl | ha
    · exact ⟨hall.changes.next, Nat.lt_succ_self _⟩
    · exact ⟨(hall.new a ha).1, (hall.new a ha).2.trans (Nat.lt_succ_self _)⟩
  · -- later objects leave each part as it has been copied
    have hvalue := hall.value h8 (changes_trans (Changes.alloc h7 _) c8)
    simp only [Prod.mk.injEq, map_id, uint64sField, logsField, intsField, uint256sField]
      at hvalue
    obtain ⟨⟨⟨⟨⟨⟨vgas, vlogs⟩, vhti⟩, vith⟩, vlist⟩, vpos⟩, vtarget⟩ := hvalue
    have hcell := c8.cell h7.next (Nat.lt_succ_self _) (Set.notMem_empty _)
    rw [alloc_cell] at hcell
    rw [hcell]
    simp only [viewObject, CallValue.copied, vgas, vlogs, vhti, vith, vlist, vpos, vtarget]

theorem callFootprint_congr (hcell : (h1.cell p).call = (h.cell p).call) :
    callFootprint h1 p = callFootprint h p := by
  rw [callFootprint, hcell, callFootprint]

def ValidCalls (h : TraceHeap ε) (ps : List (Option Nat)) : Prop :=
  ∀ p ∈ ps, ∃ q, p = some q ∧ ∀ a ∈ callFootprint h q, a < h.next

theorem copied_calls {ps : List (Option Nat)} (hps : ValidCalls h0 ps) (hc : Changes ∅ h0 h) :
    ∃ qs h1, copyCalls h ps = .ok (qs, h1) ∧ Changes ∅ h h1 ∧
      ∀ h2, Changes ∅ h1 h2 →
        (∀ q, some q ∈ qs → ∀ a ∈ callFootprint h2 q, h.next ≤ a ∧ a < h1.next) ∧
        qs.map (Option.map (viewCall h2)) =
          ps.map (Option.map fun p => (viewCall h0 p).copied) := by
  induction ps generalizing h with
  | nil => exact ⟨[], h, rfl, .refl ∅ h, fun h2 _ => ⟨fun q hq => absurd hq not_mem_nil, rfl⟩⟩
  | cons p ps ih =>
    obtain ⟨p, rfl, hp⟩ := hps _ mem_cons_self
    have hsame := Heap.Changes.eqOn hc hp
    have hfoot : callFootprint h p = callFootprint h0 p :=
      callFootprint_congr (congrArg call (hsame (.inl rfl)))
    have hcall := copied_call fun a ha => (hp a (hfoot ▸ ha)).trans_le hc.next
    rw [viewCall_congr hsame] at hcall
    obtain ⟨qs, h1, hqs, hc1, hlater⟩ := ih (fun q hq => hps q (mem_cons_of_mem _ hq))
      (changes_trans hc hcall.changes)
    refine ⟨some (copyCall h p).1 :: qs, h1, ?_, changes_trans hcall.changes hc1, fun h2 hc2 => ?_⟩
    · rw [copyCalls]
      dsimp only
      rw [hqs]
      rfl
    · obtain ⟨hnew, hview⟩ := hlater h2 hc2
      have hc12 := changes_trans hc1 hc2
      constructor
      · intro q hq a ha
        rcases mem_cons.mp hq with hq | hq
        · cases hq
          have hq' := hcall.new _ (.inl rfl)
          rw [callFootprint_congr (congrArg call (hc12.cell _ hq'.2 (Set.notMem_empty _)))] at ha
          exact ⟨(hcall.new a ha).1, (hcall.new a ha).2.trans_le hc1.next⟩
        · exact ⟨hcall.changes.next.trans (hnew q hq a ha).1, (hnew q hq a ha).2⟩
      · rw [map_cons, map_cons, hview, Option.map_some, Option.map_some,
          hcall.value h2 hc12]

structure Sound (h : TraceHeap ε) (t : Nat) : Prop where
  valid : Valid h t
  calls : ∀ p ∈ callPtrs h t, p ≠ none

theorem Sound.validCalls (hs : Sound h t) : ValidCalls h (callPtrs h t) := by
  intro p hp
  cases p with
  | none => exact absurd rfl (hs.calls none hp)
  | some q => exact ⟨q, rfl, fun a ha => hs.valid a (call_subset_footprint hp ha)⟩

theorem copied_trace {h3 h5 : TraceHeap ε} {stores events : GoSlice} {qs : List (Option Nat)}
    (count : Int) (hc : Changes ∅ h0 h3)
    (hstores : ∀ a ∈ stores.footprint, h0.next ≤ a ∧ a < h3.next)
    (hevents : ∀ a ∈ events.footprint, h0.next ≤ a ∧ a < h3.next)
    (hqs : ∀ h2, Changes ∅ h3 h2 → ∀ q, some q ∈ qs →
      ∀ a ∈ callFootprint h2 q, h0.next ≤ a ∧ a < h3.next)
    (h5eq : h5 = (h3.alloc { calls := qs }).alloc { trace :=
      { sstoreCount := count, sstoreTrace := stores, eventTraces := events
        callTraces := ⟨h3.next, 0, qs.length, qs.length, le_rfl⟩ } }) :
    Changes ∅ h3 h5 ∧ callPtrs h5 (h3.next + 1) = qs ∧
      (h5.cell (h3.next + 1)).trace.sstoreCount = count ∧
      (h5.cell (h3.next + 1)).trace.sstoreTrace = stores ∧
      (h5.cell (h3.next + 1)).trace.eventTraces = events ∧
      ∀ a ∈ footprint h5 (h3.next + 1), h0.next ≤ a ∧ a < h5.next := by
  have hc5 : Changes ∅ h3 h5 := by
    rw [h5eq]
    exact changes_trans (Changes.alloc h3 _) (Changes.alloc _ _)
  have hcell : h5.cell (h3.next + 1) = { trace :=
      { sstoreCount := count, sstoreTrace := stores, eventTraces := events
        callTraces := ⟨h3.next, 0, qs.length, qs.length, le_rfl⟩ } } := by
    rw [h5eq]
    exact alloc_cell (h3.alloc _) _
  have harray : (h5.cell h3.next).calls = qs := by
    rw [h5eq, alloc_cell_of_ne _ _ (show h3.next ≠ h3.next + 1 by omega), alloc_cell]
  have hptrs : callPtrs h5 (h3.next + 1) = qs := by
    rw [callPtrs, hcell, GoSlice.read, harray]
    simp
  have hnext : h5.next = h3.next + 2 := by
    rw [h5eq]
    rfl
  have hle := hc.next
  refine ⟨hc5, hptrs, by rw [hcell], by rw [hcell], by rw [hcell], ?_⟩
  rintro a ((rfl | ha) | ⟨q, hq, ha⟩)
  · omega
  · rw [hcell] at ha
    rcases ha with (ha | ha) | ha
    · have := hstores a ha
      omega
    · have := hevents a ha
      omega
    · obtain rfl : a = h3.next := ha.1
      omega
  · rw [hptrs] at hq
    have := hqs h5 hc5 q hq a ha
    omega

theorem copyTrace_spec (hs : Sound h t) : ∃ c h1, copyTrace h t = .ok (c, h1) ∧ Apart h1 t c ∧
    view h1 t = view h t ∧ view h1 c = (view h t).copied := by
  have hstores := copied_slice id (f := stringsField) (fun _ _ => rfl) (.refl ∅ h)
    (s := (h.cell t).trace.sstoreTrace)
    fun a ha => hs.valid a (trace_subset_footprint h t (.inl (.inl ha)))
  have hevents := copied_slice id (f := eventsField) (fun _ _ => rfl) hstores.changes
    (s := (h.cell t).trace.eventTraces)
    fun a ha => hs.valid a (trace_subset_footprint h t (.inl (.inr ha)))
  have hc2 := changes_trans hstores.changes hevents.changes
  obtain ⟨qs, h3, hqs, hc3, hlater⟩ := copied_calls hs.validCalls hc2
  have hc03 := changes_trans hc2 hc3
  have hle1 := hstores.changes.next
  have hle2 := hevents.changes.next
  have hle3 := hc3.next
  obtain ⟨hc5, hptrs, hcount, hsstore, hevent, hfoot⟩ :=
    copied_trace (h.cell t).trace.sstoreCount hc03
    (fun a ha => by have := hstores.new a ha; omega)
    (fun a ha => by have := hevents.new a ha; omega)
    (fun h4 hc4 q hq a ha => by have := (hlater h4 hc4).1 q hq a ha; omega) rfl
  refine ⟨_, _, by rw [copyTrace]; dsimp only; rw [hqs]; rfl, ?_⟩
  generalize Heap.alloc (h3.alloc { calls := qs }) _ = h5 at hc5 hptrs hcount hsstore hevent hfoot ⊢
  change Apart h5 t (h3.next + 1) ∧ _ ∧ view h5 (h3.next + 1) = _
  have hc05 := changes_trans hc03 hc5
  obtain ⟨hview, hft⟩ := view_congr (Heap.Changes.eqOn hc05 hs.valid)
  refine ⟨⟨?_, fun a ha => (hfoot a ha).2, ?_⟩, hview, ?_⟩
  · intro a ha
    rw [hft] at ha
    exact (hs.valid a ha).trans_le hc05.next
  · intro a ha hac
    rw [hft] at ha
    exact absurd (hs.valid a ha) (not_lt.mpr (hfoot a hac).1)
  · have vstores := hstores.value h5 (changes_trans (changes_trans hevents.changes hc3) hc5)
    have vevents := hevents.value h5 (changes_trans hc3 hc5)
    simp only [map_id, stringsField, eventsField] at vstores vevents
    simp only [stringsField, eventsField] at hsstore hevent
    simp only [view, TraceValue.copied, hcount, hsstore, hevent, hptrs, (hlater h5 hc5).2, vstores,
      vevents, map_map]
    congr 2
    funext q
    cases q <;> rfl

/-- A copy with the same values, and afterwards two traces that do not touch each other. -/
def CopyExact (grow : Nat → Nat) (h : TraceHeap ε) (t : Nat) : Prop :=
  ∃ c h1, copyTrace h t = .ok (c, h1) ∧ view h1 t = view h t ∧ view h1 c = view h t ∧
    Independent grow h1 t c

theorem map_eq_self_iff {g : α → α} {l : List α} :
    l.map g = l ↔ ∀ x ∈ l, g x = x := by
  nth_rewrite 2 [← map_id l]
  exact map_inj_left

/-- Nothing in the fields that `Copy` leaves out. -/
structure CallValue.Copyable (ct : CallValue ε) : Prop where
  refundGas : ct.refundGas = 0
  errMsg : ct.errMsg = []
  logs : ∀ l ∈ ct.logInstRet, l.toDerivedLog = {}

theorem TraceLog.copied_eq_self_iff {l : TraceLog} : l.copied = l ↔ l.toDerivedLog = {} := by
  obtain ⟨c, d⟩ := l
  simp [TraceLog.copied, eq_comm]

theorem CallValue.copied_eq_self_iff {ct : CallValue ε} : ct.copied = ct ↔ ct.Copyable := by
  have hlogs : ct.logInstRet.map TraceLog.copied = ct.logInstRet ↔
      ∀ l ∈ ct.logInstRet, l.toDerivedLog = {} := by
    simp only [map_eq_self_iff, TraceLog.copied_eq_self_iff]
  constructor
  · intro h
    exact ⟨(congrArg (·.refundGas) h).symm, (congrArg (·.errMsg) h).symm,
      hlogs.mp (congrArg (·.logInstRet) h)⟩
  · intro h
    rw [CallValue.copied, hlogs.mpr h.logs, ← h.refundGas, ← h.errMsg]

theorem copied_eq_self_iff {v : TraceValue ε} :
    v.copied = v ↔ ∀ ct, some ct ∈ v.callTraces → ct.Copyable := by
  have hcalls : v.copied = v ↔ v.callTraces.map (Option.map CallValue.copied) = v.callTraces := by
    constructor
    · exact congrArg TraceValue.callTraces
    · intro h
      rw [TraceValue.copied, h]
  rw [hcalls, map_eq_self_iff]
  constructor
  · intro h ct hct
    exact CallValue.copied_eq_self_iff.mp (Option.some.inj (h (some ct) hct))
  · intro h ct hct
    cases ct with
    | none => rfl
    | some ct => exact congrArg some (CallValue.copied_eq_self_iff.mpr (h ct hct))

/-- `Copy` gives an exact and independent copy exactly if no call trace has a refund, the text of
an error or a log with derived fields, which it does not copy. -/
theorem copyExact_iff (grow : Nat → Nat) (hs : Sound h t) :
    CopyExact grow h t ↔ ∀ ct, some ct ∈ (view h t).callTraces → ct.Copyable := by
  obtain ⟨c, h1, hcopy, hapart, hsame, hview⟩ := copyTrace_spec hs
  rw [← copied_eq_self_iff]
  constructor
  · rintro ⟨c', h1', hcopy', -, hview', -⟩
    cases hcopy.symm.trans hcopy'
    rw [← hview, hview']
  · intro hcopied
    exact ⟨c, h1, hcopy, hsame, hview.trans hcopied, hapart.independent grow⟩

/-- The trace that operations on a new one build, at address 0. -/
def builtHeap (ops : List TraceOp) : TraceHeap GoString :=
  ops.foldl (fun h op => op.apply (· * 2) h 0) ⟨fun _ => {}, 1⟩

theorem builtHeap_valid (ops : List TraceOp) : Valid (builtHeap ops) 0 := by
  have hrun : ∀ h : TraceHeap GoString, Valid h 0 →
      Valid (ops.foldl (fun h op => op.apply (· * 2) h 0) h) 0 := by
    induction ops with
    | nil => exact fun h hv => hv
    | cons op ops ih => exact fun h hv => ih _ ((owns_apply hv op).valid hv)
  refine hrun _ ?_
  rintro a ((rfl | ha) | ⟨q, hq, -⟩)
  · exact Nat.one_pos
  · rcases ha with (ha | ha) | ha <;> exact absurd ha.2 (Nat.lt_irrefl 0)
  · cases hq

/-- One call with a result of `GAS`, a log, two hashes and a jump. -/
def soloOps : List TraceOp :=
  [.nextCallTrace, .addGasInstRet 0 21000, .addLogInstRet 0 ⟨⟨1, [2], [3]⟩, {}⟩,
    .addSHA3InstRet 0 5, .addSHA3InstRet 0 7, .addSHA3InstRet 0 5, .addJumpInstPosTarget 0 3 9,
    .incSstoreCount, .addSstoreTrace ['s'], .addEventTrace [2] [3]]

theorem copyExact_solo :
    Sound (builtHeap soloOps) 0 ∧ CopyExact (· * 2) (builtHeap soloOps) 0 := by
  have hs : Sound (builtHeap soloOps) 0 := by
    refine ⟨builtHeap_valid soloOps, fun p hp => ?_⟩
    obtain rfl : p = some 1 := mem_singleton.mp hp
    exact Option.some_ne_none 1
  refine ⟨hs, (copyExact_iff (· * 2) hs).mpr fun ct hct => ?_⟩
  cases mem_singleton.mp hct
  refine ⟨rfl, rfl, fun l hl => ?_⟩
  obtain rfl : l = ⟨⟨1, [2], [3]⟩, {}⟩ := mem_singleton.mp hl
  rfl

/-- The number of a log's block is lost, and so is the refund of a call. -/
theorem copy_loses_refund :
    let log : TraceOp := .addLogInstRet 0 ⟨⟨1, [], []⟩, { blockNumber := 46147 }⟩
    let h := setCall (builtHeap [.nextCallTrace]) 1 fun ct => { ct with refundGas := 4800 }
    (Sound (builtHeap [.nextCallTrace, log]) 0 ∧
      ¬ CopyExact (· * 2) (builtHeap [.nextCallTrace, log]) 0) ∧
    Sound h 0 ∧ ¬ CopyExact (· * 2) h 0 := by
  refine ⟨⟨⟨builtHeap_valid _, fun p hp => ?_⟩, ?_⟩, ⟨?_, fun p hp => ?_⟩, ?_⟩
  · obtain rfl : p = some 1 := mem_singleton.mp hp
    exact Option.some_ne_none 1
  · rintro ⟨c, h1, hcopy, -, hview, -⟩
    cases hcopy
    have hlogs := congrArg (fun v => v.callTraces.map (Option.map (·.logInstRet))) hview
    exact absurd hlogs (by decide)
  · have hv := builtHeap_valid [.nextCallTrace]
    refine (ownsCall_setCall hv mem_cons_self (.refl _ _)
      ⟨fun _ _ => rfl, fun _ _ => rfl, fun _ _ => rfl⟩ fun a ha => .inl (.inr ?_)).valid hv
    exact ha
  · obtain rfl : p = some 1 := mem_singleton.mp hp
    exact Option.some_ne_none 1
  · rintro ⟨c, h1, hcopy, -, hview, -⟩
    cases hcopy
    have hcalls := congrArg (fun v => v.callTraces.map (Option.map (·.refundGas))) hview
    exact absurd hcalls (by decide)

end EtherVal.Research
