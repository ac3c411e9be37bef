import EtherVal.Vm.GlobalErrors
import EtherVal.Vm.Located

/-!
# Private calls as procedure calls (`tac_interpreter.go:374-467`, `1957-1995`)

Returned values travel through a buffer of the caller, halts and reverts through flags of the
frame, errors through the results.
-/

namespace EtherVal.Vm
open EtherVal.Lib EtherVal.TacParser List
open Exec

variable {σ : Type}
variable {m m' : Machine σ} {ret : Ret} {run : Runner σ} {op : TACOperation} {ctx : TACContext}
  {dests : List Int} {prog : TACProgram} {ast : AstProgram} {fuel : Nat}

def Running (e : TACInterpreter σ) : Prop :=
  ∃ frame rest, e.frames = frame :: rest ∧ frame.reverts = false ∧ frame.halts = false

theorem Running.of_frames {e e' : TACInterpreter σ} (h : Running e) (hf : e'.frames = e.frames) :
    Running e' := by
  unfold Running
  rw [hf]
  exact h

theorem roundTail_next_running {s' : LoopState σ} (h : roundTail op ret m = .ok (.next s')) :
    Running s'.machine.engine := by
  obtain ⟨m1, -, -, -, htail⟩ := roundTail_tail op ret m
  rw [h] at htail
  cases htail with
  | next _ _ _ hreverts hhalts => exact ⟨_, _, rfl, hreverts, hhalts⟩

section
variable {host : Host σ} {op : TACOp} {m : Machine σ} {left fuel : Nat} {s s' : LoopState σ}
  {path : List (Activation σ)}

theorem round_next_running (h : round host run s = .ok (.next s')) :
    Running s'.machine.engine := by
  rcases round_inv h with ⟨_, _, hne, -⟩ | ⟨_, _, _, _, -, -, -, htail⟩
  · cases hne
  · exact roundTail_next_running htail

theorem Begins.frames_eq (h : Begins host s op m) :
    m.engine.frames = s.machine.engine.frames := by
  obtain ⟨s', hhead, rfl⟩ := h.passes
  obtain ⟨⟨e, hf, hm⟩, -⟩ := roundHead_inv hhead
  change s'.machine.engine.frames = _
  rw [hm]
  exact hf

theorem enterPrivate_engine {m1 : Machine σ} (h : enterPrivate m = .ok ((ctx, dests), m1)) :
    m1.engine = m.engine := by
  obtain ⟨_, _, henters⟩ := enterPrivate_inv h
  exact henters.engine

theorem Executes.running (h : Executes host op m left fuel s path)
    (hs : Running s.machine.engine) : Running m.engine := by
  induction h with
  | now hpc hb => exact hs.of_frames hb.frames_eq
  | later hpc hr h ih => exact ih (round_next_running hr)
  | @inside fuel s m0 m1 ctx dests path hpc hb he h ih =>
    apply ih
    change Running m1.engine
    rw [enterPrivate_engine he]
    exact hs.of_frames hb.frames_eq

end

variable {vs : List Word} {i : Nat} {buffer : List Word}

theorem returnValues_inv (hbuf : m.ctx.prevReturnData = some buffer) (hi : i ≤ buffer.length)
    (h : returnValues vs i m = .ok ((), m')) :
    i + vs.length ≤ buffer.length ∧ m'.engine = m.engine ∧
      m'.ctx.prevReturnData = some (buffer.take i ++ vs ++ buffer.drop (i + vs.length)) := by
  induction vs generalizing i m buffer with
  | nil =>
    obtain ⟨-, rfl⟩ := pure_eq_ok.mp h
    refine ⟨by simpa using hi, rfl, ?_⟩
    rw [hbuf, append_nil, length_nil, add_zero, take_append_drop]
  | cons v vs ih =>
    have h := Exec.get_bind h
    simp only [hbuf] at h
    split at h
    · next hlt =>
      obtain ⟨_, m1, hmod, h⟩ := bind_eq_ok.mp h
      have hm1 := modify_eq_ok.mp hmod
      have hbuf1 : m1.ctx.prevReturnData = some (buffer.set i v) := by rw [hm1]
      have hi1 : i + 1 ≤ (buffer.set i v).length := by
        rw [length_set]
        omega
      obtain ⟨hle, heng, hout⟩ := ih hbuf1 hi1 h
      rw [length_set] at hle
      refine ⟨by rw [length_cons]; omega, ?_, ?_⟩
      · rw [heng, hm1]
      · have htake : (buffer.set i v).take (i + 1) = buffer.take i ++ [v] := by
          rw [take_add_one, take_set_of_le (le_refl i), getElem?_set_self hlt]
          rfl
        have hdrop : (buffer.set i v).drop (i + 1 + vs.length)
            = buffer.drop (i + (v :: vs).length) := by
          rw [drop_set_of_lt (by omega), length_cons]
          congr 1
          omega
        rw [hout, htake, hdrop]
        simp
    · exact absurd h panicWith_ne_ok

def returned (m : Machine σ) : List Word :=
  valuesFrom m 2 (cellD m.ctx.function (m.pc + 1)).toNat

theorem execReturnprivate_inv (hbuf : m.ctx.prevReturnData = some buffer)
    (h : execReturnprivate m = .ok (ret, m')) :
    ret = ([], none) ∧ m'.engine = m.engine ∧ (returned m).length ≤ buffer.length ∧
      m'.ctx.prevReturnData = some (returned m ++ buffer.drop (returned m).length) := by
  obtain ⟨n, hn, h⟩ := Exec.inst_bind h
  have h := Exec.advance_bind h
  obtain ⟨values, _, hvalues, h⟩ := bind_eq_ok.mp h
  obtain ⟨hvs, rfl⟩ := operandValues_inv hvalues
  have hreturned : values = returned m := by
    rw [hvs, returned, cellD_of_inst hn]
    unfold valuesFrom
    show (cellsFrom m.ctx.function (m.pc + 2 + 0) _).map _ = _
    rw [add_zero]
    rfl
  obtain ⟨_, m3, hwrite, h⟩ := bind_eq_ok.mp h
  have h := Exec.advance_bind h
  have h := Exec.modify_bind h
  obtain ⟨rfl, rfl⟩ := done_eq_ok.mp h
  obtain ⟨hle, heng, hout⟩ := returnValues_inv (m := m.advance 2) hbuf (Nat.zero_le _) hwrite
  rw [hreturned] at hle hout
  refine ⟨rfl, heng, by omega, ?_⟩
  change m3.ctx.prevReturnData = _
  rw [hout]
  simp

def ReturnsWith (host : Host σ) (fuel : Nat) (s : LoopState σ) (vs : List Word) : Prop :=
  ∃ m left ret m', Executes host .RETURNPRIVATE m left fuel s [] ∧
    execReturnprivate m = .ok (ret, m') ∧ vs = returned m

section
variable {host : Host σ} {op : TACOp} {m m' : Machine σ} {left fuel : Nat} {s : LoopState σ}
  {path : List (Activation σ)} {ret : Ret}

theorem roundTail_of_functionStop (op : TACOperation) (ret : Ret)
    (hstop : m.ctx.functionStop = true) (hf : m.engine.frames ≠ []) :
    ∃ m2, roundTail op ret m = .ok (.returned ret m2) ∧ m2.engine.frames = m.engine.frames ∧
      m2.ctx = (increaseCycle m).ctx ∧
      m2.engine.delta.stats.tacInstCount = m.engine.delta.stats.tacInstCount := by
  obtain ⟨m1, -, hctx, ⟨data, hdata⟩, htail⟩ := roundTail_tail op ret m
  refine ⟨m1, ?_, by rw [hdata], hctx, by rw [hdata]⟩
  generalize roundTail op ret m = r at htail ⊢
  cases htail with
  | noFrame hnil => exact absurd hnil hf
  | stop => rfl
  | error _ hstop' => cases hstop.symm.trans hstop'
  | reverts _ hstop' => cases hstop.symm.trans hstop'
  | halts _ hstop' => cases hstop.symm.trans hstop'
  | next _ hstop' => cases hstop.symm.trans hstop'

theorem Executes.own_bufferLength (h : Executes host op m left fuel s path) (hpath : path = []) :
    bufferLength m = bufferLength s.machine := by
  induction h with
  | now hpc hb => rw [bufferLength, hb.ctx_eq, bufferLength]
  | later hpc hr h ih => exact (ih hpath).trans (round_bufferLength hr)
  | inside hpc hb he h ih => cases hpath

theorem Executes.returns (h : Executes host .RETURNPRIVATE m left fuel s path) (hpath : path = [])
    (hx : execReturnprivate m = .ok (ret, m')) (hf : m'.engine.frames ≠ []) :
    ∃ m2, executeFrom host fuel s = .ok (ret, m2) ∧ m2.engine.frames = m'.engine.frames ∧
      m2.ctx.prevReturnData = m'.ctx.prevReturnData := by
  induction h with
  | @now s hpc hb =>
    have hexec : execution host (executeFunc host left) .RETURNPRIVATE m = .ok (ret, m') := hx
    obtain ⟨m2, htail, hframes, hctx, -⟩ := roundTail_of_functionStop (operation .RETURNPRIVATE) ret
      (execReturnprivate_stops hx) hf
    refine ⟨m2, hb.returns hpc hexec htail, hframes, ?_⟩
    rw [hctx]
    rfl
  | @later fuel s s' path hpc hr h ih =>
    rw [executeFrom_next hpc hr]
    exact ih hpath
  | inside hpc hb he h ih => cases hpath

theorem ReturnsWith.executeFunc {e : TACInterpreter σ} {n : Nat}
    (h : ReturnsWith host fuel (startLoop ctx e) vs)
    (hbuf : ctx.prevReturnData.map List.length = some n) (he : Running e) :
    ∃ m2 tail, Vm.executeFunc host fuel ctx e = .ok (([], none), m2) ∧ Running m2.engine ∧
      m2.ctx.prevReturnData = some (vs ++ tail) ∧ vs.length + tail.length = n := by
  obtain ⟨m, left, ret, m', hexec, hx, rfl⟩ := h
  have hrun : Running m.engine := hexec.running he
  have hlen := hexec.own_bufferLength rfl
  change m.ctx.prevReturnData.map List.length = ctx.prevReturnData.map List.length at hlen
  rw [hbuf] at hlen
  obtain ⟨buffer, hbuffer, rfl⟩ := Option.map_eq_some_iff.mp hlen
  obtain ⟨rfl, heng, hle, hout⟩ := execReturnprivate_inv hbuffer hx
  have hne : m'.engine.frames ≠ [] := by
    obtain ⟨frame, rest, hframes, -⟩ := hrun
    rw [heng, hframes]
    exact cons_ne_nil _ _
  obtain ⟨m2, heq, hframes, hprev⟩ := hexec.returns rfl hx hne
  refine ⟨m2, buffer.drop (returned m).length, heq, ?_, ?_, ?_⟩
  · rw [heng] at hframes
    exact hrun.of_frames hframes
  · rw [hprev, hout]
  · rw [length_drop]
    omega

theorem assignAll_val {l : List (Int × Word)} (h : assignAll l m = .ok ((), m')) {q : Int × Word}
    (hq : l[i]? = some q) (hlast : ∀ j q', i < j → l[j]? = some q' → q'.1.toNat ≠ q.1.toNat) :
    m'.val q.1.toNat = q.2 := by
  induction l generalizing m i with
  | nil => cases hq
  | cons p l ih =>
    obtain ⟨d, hd, h⟩ := Exec.read_bind h
    obtain ⟨hp, hlt⟩ := Machine.getVar_eq_ok.mp hd
    have h := Exec.assign_bind h
    cases i with
    | zero =>
      obtain rfl : p = q := Option.some.inj hq
      have hother : p.1.toNat ∉ l.map fun q' => q'.1.toNat := by
        intro hmem
        obtain ⟨q', hq', heq⟩ := mem_map.mp hmem
        obtain ⟨j, hj⟩ := mem_iff_getElem?.mp hq'
        exact hlast (j + 1) q' (by omega) hj heq
      have hkeep := (assignAll_inv h).1.other _ hother
      rw [Machine.val, hkeep, hp, Int.toNat_natCast]
      simp [Machine.reg, Machine.assign, Machine.setReg, hlt]
    | succ i => exact ih h hq fun j q' hj hq' => hlast (j + 1) q' (by omega) hq'

end

theorem getElem?_cellsFrom (f : TACFunction) {pc : Int} {n : Nat} (hi : i < n) :
    (cellsFrom f pc n)[i]? = some (cellD f (pc + i)) := by
  induction n generalizing pc i with
  | zero => omega
  | succ n ih =>
    cases i with
    | zero => simp [cellsFrom]
    | succ i =>
      have hpos : pc + 1 + (i : Int) = pc + ((i + 1 : Nat) : Int) := by
        push_cast
        ring
      rw [cellsFrom, getElem?_cons_succ, ih (by omega), hpos]

structure ReturnsTo (tf : TACFunction) (s : AstStatement) (vs : List Word) (m m' : Machine σ) :
    Prop where
  dest : ∀ i v r w, i < s.numAssignee → s.args[i]? = some v →
    tf.variableEncoding[v.name]? = some r → vs[i]? = some w →
    (∀ j u, i < j → j < s.numAssignee → s.args[j]? = some u → u.name ≠ v.name) → m'.val r = w
  other : ∀ r, (∀ v ∈ stmtDests s, tf.variableEncoding[v.name]? ≠ some r) → m'.reg r = m.reg r

section
variable {prog : TACProgram} {f : AstFunction} {order : List AstBlock} {tf target : TACFunction}
  {m m1 mc : Machine σ} {k n : Nat} {s : AstStatement} {ctx : TACContext} {dests : List Int}

theorem CallAt.cell (hs : CallAt order k s) (hin : Within prog f order tf m)
    (hi : i < s.numAssignee) :
    ∃ v r, s.args[i]? = some v ∧ tf.variableEncoding[v.name]? = some r ∧
      cellD tf (k + 2 + i) = (r : Int) :=
  dest_cell hin.code.registered hs.item hs.operation hs.complete hi

theorem Enters.numAssignee (henters : Enters m target n ctx dests m1)
    (hin : Within prog f order tf m) (hk : m.pc = k) (hs : CallAt order k s) :
    n = s.numAssignee := by
  have hcount := henters.count
  rw [hin.function, hk, hs.count hin.code] at hcount
  exact_mod_cast hcount.symm

theorem Enters.leaves (henters : Enters m target n ctx dests m1) (hin : Within prog f order tf m)
    (hk : m.pc = k) (hs : CallAt order k s) (hrun : run ctx m1.engine = .ok (ret, mc))
    (hbuf : mc.ctx.prevReturnData = some buffer) (hlen : buffer.length = n) :
    ∃ m', leavePrivate run ctx dests m1 = .ok (ret, m') ∧ m'.engine = mc.engine ∧
      m'.ctx.functionStop = m.ctx.functionStop ∧ ReturnsTo tf s buffer m m' := by
  obtain rfl := henters.numAssignee hin hk hs
  have hexist := henters.destsExist hin hk hs 0
  have hall : ∀ q ∈ dests.zip buffer, ∃ r, (afterCallee m1 mc).getVar q.1 = .ok r :=
    fun q hq => hexist q.1 (of_mem_zip hq).1
  obtain ⟨m', hassign, heng, hstop, -⟩ := assignAll_of_exist hall
  have hdests : ∀ i < s.numAssignee, dests[i]? = some (cellD tf (k + 2 + i)) := by
    intro i hi
    rw [henters.dests, hin.function, hk, getElem?_cellsFrom tf hi]
  refine ⟨m', ?_, heng, ?_, ?_, ?_⟩
  · rw [leavePrivate_of_returned hrun, hbuf, Option.getD_some, bind_of_ok hassign]
    rfl
  · rw [hstop]
    change m1.ctx.functionStop = _
    rw [henters.ctx]
  · intro i v r w hi hv hr hw hlast
    obtain ⟨v', r', hv', hr', hcell⟩ := hs.cell hin hi
    cases hv.symm.trans hv'
    cases hr.symm.trans hr'
    have hzip : (dests.zip buffer)[i]? = some ((r : Int), w) := by
      rw [getElem?_zip_eq_some, hdests i hi, hcell, hw]
      exact ⟨rfl, rfl⟩
    have hval := assignAll_val hassign hzip
    rw [Int.toNat_natCast] at hval
    apply hval
    intro j q hij hq hsame
    obtain ⟨hd, -⟩ := getElem?_zip_eq_some.mp hq
    have hj : j < s.numAssignee := by
      have hlt := (List.getElem?_eq_some_iff.mp hd).1
      rwa [henters.dests, length_cellsFrom] at hlt
    obtain ⟨u, p, hu, hp, hcell'⟩ := hs.cell hin hj
    rw [hdests j hj, hcell'] at hd
    rw [← Option.some.inj hd, Int.toNat_natCast] at hsame
    rw [hsame] at hp
    exact hlast j u hij hj hu (hin.code.registered.table.inj _ _ r hp hr)
  · intro r hr
    have hnot : r ∉ (dests.zip buffer).map fun q => q.1.toNat := by
      intro hmem
      obtain ⟨q, hq, hqr⟩ := mem_map.mp hmem
      have hd := (of_mem_zip (show (q.1, q.2) ∈ _ from hq)).1
      rw [henters.dests, hin.function, hk] at hd
      obtain ⟨i, hi, hcell⟩ := mem_cellsFrom hd
      obtain ⟨v, p, hv, hp, hcell'⟩ := hs.cell hin hi
      rw [hcell, hcell', Int.toNat_natCast] at hqr
      refine hr v ?_ (hqr ▸ hp)
      simp only [stmtDests, hs.operation]
      exact mem_of_getElem? (i := i) (by rw [getElem?_take_of_lt hi, hv])
    rw [(assignAll_inv hassign).1.other r hnot]
    change (afterCallee m1 mc).ctx.registers.getD r {} = m.reg r
    change m1.ctx.registers.getD r {} = m.reg r
    rw [henters.ctx]
    rfl

theorem CallAt.next_pc (hs : CallAt order k s) (hin : Within prog f order tf m) (hk : m.pc = k)
    (hfit : FitsAt prog prog.functionEncoding order m.pc)
    (hexec : execCallprivate run m = .ok (ret, m')) :
    m'.pc = ((k + (stmtItem s).size : Nat) : Int) := by
  exact callprivate_behind hin.code.transformed hin.code.registered hfit hs.item hin.function hk
    hs.operation hin.prog hexec

end

section
variable {host : Host σ} {left : Nat}

theorem roundTail_of_running (hop : op.reverts = false ∧ op.halts = false) (d : Bytes)
    (hstop : m.ctx.functionStop = false) (hrun : Running m.engine) :
    ∃ s', roundTail op (d, none) m = .ok (.next s') ∧ s'.machine.pc = m.pc ∧
      s'.machine.ctx = (increaseCycle m).ctx := by
  obtain ⟨m1, hpc, hctx, -, htail⟩ := roundTail_tail op (d, none) m
  obtain ⟨frame, rest, hcons, hreverts, hhalts⟩ := hrun
  have hmark : frame.mark op = frame := by simp [TACFrame.mark, hop]
  generalize roundTail op (d, none) m = r at htail ⊢
  cases htail with
  | noFrame hnil => cases hcons.symm.trans hnil
  | stop _ hstop' => cases hstop.symm.trans hstop'
  | error _ _ herr => cases herr
  | reverts hf _ _ hreverts' =>
    obtain ⟨rfl, -⟩ := List.cons.inj (hcons.symm.trans hf)
    rw [hmark, hreverts] at hreverts'
    cases hreverts'
  | halts hf _ _ _ hhalts' =>
    obtain ⟨rfl, -⟩ := List.cons.inj (hcons.symm.trans hf)
    rw [hmark, hhalts] at hhalts'
    cases hhalts'
  | next => exact ⟨_, rfl, hpc, hctx⟩

def Continues (host : Host σ) (left : Nat) (op : TACOp) (m : Machine σ) (s' : LoopState σ) : Prop :=
  ∃ ret m', execution host (executeFunc host left) op m = .ok (ret, m') ∧
    roundTail (operation op) ret m' = .ok (.next s')

variable {prog : TACProgram} {f : AstFunction} {order : List AstBlock} {tf : TACFunction}
  {m m1 : Machine σ} {k : Nat} {s : AstStatement} {ctx : TACContext} {dests : List Int}

theorem CallAt.continues (hs : CallAt order k s) (hin : Within prog f order tf m) (hk : m.pc = k)
    (hfit : FitsAt prog prog.functionEncoding order m.pc) (hstop : m.ctx.functionStop = false)
    (hrunning : Running m.engine) (he : enterPrivate m = .ok ((ctx, dests), m1))
    (hreturns : ReturnsWith host left (startLoop ctx m1.engine) vs)
    (hlen : vs.length = s.numAssignee) :
    ∃ s', Continues host left .CALLPRIVATE m s' ∧
      s'.machine.pc = ((k + (stmtItem s).size : Nat) : Int) ∧ ReturnsTo tf s vs m s'.machine := by
  obtain ⟨target, n, henters⟩ := enterPrivate_inv he
  obtain rfl := henters.numAssignee hin hk hs
  have hbuf : ctx.prevReturnData.map List.length = some s.numAssignee := by
    obtain ⟨fresh, -, rfl⟩ := henters.created
    simp
  have hrunning1 : Running m1.engine := by rwa [henters.engine]
  obtain ⟨mc, tail, hcallee, hrunningc, hprev, htotal⟩ := hreturns.executeFunc hbuf hrunning1
  obtain rfl : tail = [] := length_eq_zero_iff.mp (by omega)
  rw [append_nil] at hprev
  obtain ⟨m', hleave, heng, hstop', hregs⟩ := henters.leaves hin hk hs hcallee hprev hlen
  have hexec := (execution_callprivate host (executeFunc host left) he).trans hleave
  have hrunning' : Running m'.engine := by rwa [heng]
  obtain ⟨s', htail, hpc, hctx⟩ := roundTail_of_running
    (show (Vm.operation .CALLPRIVATE).reverts = false ∧
      (Vm.operation .CALLPRIVATE).halts = false from
      ⟨rfl, rfl⟩) [] (hstop'.trans hstop) hrunning'
  refine ⟨s', ⟨_, m', hexec, htail⟩, ?_, ?_, ?_⟩
  · rw [hpc, hs.next_pc hin hk hfit hexec]
  · intro i v r w hi hv hr hw hlast
    rw [Machine.val, Machine.reg, hctx]
    exact hregs.dest i v r w hi hv hr hw hlast
  · intro r hr
    rw [Machine.reg, hctx]
    exact hregs.other r hr

end

section
variable {host : Host σ} {op : TACOp} {m m1 : Machine σ} {left fuel : Nat} {s : LoopState σ}
  {path : List (Activation σ)} {ret : Ret}

theorem keeps_running_onState {α : Type} (g : σ → α × σ) : Keeps Running (Exec.onState g) :=
  Keeps.of_ok fun _ hm => ⟨_, _, rfl, hm.of_frames rfl⟩

theorem keeps_running_modifyStats (g : TACStats → TACStats) :
    Keeps (σ := σ) Running (Exec.modifyStats g) :=
  Keeps.of_ok fun _ hm => ⟨_, _, rfl, hm.of_frames rfl⟩

theorem keeps_running_execReturn : Keeps (σ := σ) Running execReturn := by
  refine Keeps.bind (Keeps.operand _) fun _ => Keeps.bind (Keeps.operand _) fun _ =>
    Keeps.bind ?_ fun range => ?_
  · refine Keeps.bind (Keeps.val _) fun _ => Keeps.bind (Keeps.val _) fun _ =>
      Keeps.bind Keeps.get fun _ => Keeps.bind Keeps.getFrame fun _ =>
        Keeps.bind (Keeps.read _) fun q => Keeps.bind ?_ fun _ => Keeps.pure _
    refine Keeps.modifyEngine fun e he => ?_
    obtain ⟨frame, rest, hframes, hflags⟩ := he
    refine ⟨{ frame with memory := q.2 }, rest, ?_, hflags⟩
    rw [hframes]
  · cases range with
    | error e => exact Keeps.fail _
    | ok d => exact Keeps.pure _

theorem execution_halts (hop : (operation op).halts = true)
    (hx : execution host run op m = .ok (ret, m1)) (hret : ret.2 = none) (hm : Running m.engine) :
    m1.ctx = m.ctx ∧ Running m1.engine := by
  cases op
  case THROW =>
    obtain ⟨_, _, -, hx⟩ := bind_eq_ok.mp hx
    obtain ⟨_, _, -, hx⟩ := bind_eq_ok.mp hx
    obtain ⟨_, _, -, hx⟩ := bind_eq_ok.mp hx
    obtain ⟨rfl, -⟩ := fail_eq_ok.mp hx
    cases hret
  case STOP =>
    refine ⟨((advances_execStop always_frameInv).moves m ret m1 hx hret).1, ?_⟩
    have hkeeps : Keeps (σ := σ) Running execStop :=
      Keeps.bind Keeps.get fun _ => Keeps.bind (keeps_running_modifyStats _) fun _ =>
        Keeps.bind (Keeps.onlyIf _ (keeps_running_modifyStats _)) fun _ => Keeps.pure _
    exact (hkeeps m hm).1 _ _ hx
  case SELFDESTRUCT =>
    refine ⟨((advances_execSelfdestruct always_frameInv host).moves m ret m1 hx hret).1, ?_⟩
    have hkeeps : Keeps Running (execSelfdestruct host) :=
      Keeps.bind (Keeps.operand _) fun _ => Keeps.bind Keeps.getFrame fun _ =>
        Keeps.bind (keeps_running_onState _) fun _ => Keeps.bind (Keeps.val _) fun _ =>
          Keeps.bind (keeps_running_onState _) fun _ => Keeps.bind (keeps_running_onState _)
            fun _ => Keeps.pure _
    exact (hkeeps m hm).1 _ _ hx
  case RETURN =>
    exact ⟨((advances_execReturn always_frameInv).moves m ret m1 hx hret).1,
      (keeps_running_execReturn m hm).1 _ _ hx⟩
  all_goals cases hop

def passed (ret : Ret) : Ret := if ret.2.isSome then ([], ret.2) else ret

theorem passed_passed (ret : Ret) : passed (passed ret) = passed ret := by
  unfold passed
  split <;> simp_all

def Ended (ret : Ret) (e : TACInterpreter σ) : Prop :=
  ∃ frame rest, e.frames = frame :: rest ∧
    (ret.2 = none → frame.reverts = false ∧ frame.halts = true)

def Stops (host : Host σ) (fuel : Nat) (s : LoopState σ) (ret : Ret) (count : Int) : Prop :=
  ∃ m2, executeFrom host fuel s = .ok (ret, m2) ∧ Ended ret m2.engine ∧
    m2.engine.delta.stats.tacInstCount = count

theorem roundTail_of_ended {op : TACOperation} {frame : TACFrame} {rest : List TACFrame}
    (hcons : m.engine.frames = frame :: rest)
    (hflags : ret.2 = none → (frame.mark op).reverts = false ∧ (frame.mark op).halts = true)
    (hstop : m.ctx.functionStop = false) :
    ∃ m2, roundTail op ret m = .ok (.returned (passed ret) m2) ∧ Ended (passed ret) m2.engine ∧
      m2.engine.delta.stats.tacInstCount = m.engine.delta.stats.tacInstCount := by
  obtain ⟨m1, -, -, ⟨data, hdata⟩, htail⟩ := roundTail_tail op ret m
  have hcount : m1.engine.delta.stats.tacInstCount = m.engine.delta.stats.tacInstCount := by
    rw [hdata]
  generalize roundTail op ret m = r at htail ⊢
  cases htail with
  | noFrame hnil => cases hcons.symm.trans hnil
  | stop _ hstop' => cases hstop.symm.trans hstop'
  | error _ _ herr =>
    rw [show passed ret = _ from if_pos (by rw [herr]; rfl), herr]
    exact ⟨m1, rfl, ⟨frame, rest, by rw [hdata]; exact hcons, nofun⟩, hcount⟩
  | reverts hf _ hnone hreverts =>
    obtain ⟨rfl, -⟩ := List.cons.inj (hcons.symm.trans hf)
    rw [(hflags hnone).1] at hreverts
    cases hreverts
  | halts _ _ hnone hreverts hhalts =>
    have hpassed : passed ret = (ret.1, none) :=
      (if_neg (by simp [hnone])).trans (Prod.ext rfl hnone)
    rw [hpassed]
    exact ⟨_, rfl, ⟨_, _, rfl, fun _ => ⟨hreverts, hhalts⟩⟩, hcount⟩
  | next hf _ hnone _ hhalts =>
    obtain ⟨rfl, -⟩ := List.cons.inj (hcons.symm.trans hf)
    rw [(hflags hnone).2] at hhalts
    cases hhalts

def EndsFrame (op : TACOp) (ret : Ret) (m : Machine σ) : Prop :=
  m.engine.frames ≠ [] ∧ (ret.2 = none →
    (operation op).halts = true ∧ m.ctx.functionStop = false ∧ Running m.engine)

theorem reverts_of_halts (h : (operation op).halts = true) : (operation op).reverts = false := by
  revert h
  cases op <;> decide

theorem EndsFrame.roundTail (h : EndsFrame op ret m) :
    ∃ ret' m2, Vm.roundTail (operation op) ret m = .ok (.returned ret' m2) ∧
      passed ret' = passed ret ∧ Ended ret' m2.engine ∧
      m2.engine.delta.stats.tacInstCount = m.engine.delta.stats.tacInstCount := by
  obtain ⟨frame, rest, hcons⟩ := exists_cons_of_ne_nil h.1
  by_cases hstop : m.ctx.functionStop = true
  · obtain ⟨m2, htail, hframes, -, hcount⟩ := roundTail_of_functionStop (operation op) ret hstop h.1
    refine ⟨ret, m2, htail, rfl, ⟨frame, rest, hframes.trans hcons, fun hret => ?_⟩, hcount⟩
    rw [(h.2 hret).2.1] at hstop
    cases hstop
  · have hflags : ret.2 = none →
        (frame.mark (operation op)).reverts = false ∧ (frame.mark (operation op)).halts = true := by
      intro hret
      obtain ⟨hhalts, -, frame', rest', hcons', hclear⟩ := h.2 hret
      obtain ⟨rfl, -⟩ := List.cons.inj (hcons.symm.trans hcons')
      simp [TACFrame.mark, reverts_of_halts hhalts, hhalts, hclear]
    obtain ⟨m2, htail, hended, hcount⟩ :=
      roundTail_of_ended hcons hflags (Bool.eq_false_iff.mpr hstop)
    exact ⟨passed ret, m2, htail, passed_passed ret, hended, hcount⟩

theorem Executes.stops (h : Executes host op m left fuel s path)
    (hx : execution host (executeFunc host left) op m = .ok (ret, m1)) (hend : EndsFrame op ret m1)
    (hs : s.machine.ctx.functionStop = false) (hd : ∀ a ∈ path, a.DestsExist) :
    ∃ ret', Stops host fuel s ret' m1.engine.delta.stats.tacInstCount ∧
      passed ret' = passed ret ∧ (path ≠ [] → ret' = passed ret) := by
  induction h with
  | @now s hpc hb =>
    obtain ⟨ret', m2, htail, hpassed, hended, hcount⟩ := hend.roundTail
    exact ⟨ret', ⟨m2, hb.returns hpc hx htail, hended, hcount⟩, hpassed, fun hne => absurd rfl hne⟩
  | @later fuel s s' path hpc hr h ih =>
    unfold Stops
    rw [executeFrom_next hpc hr]
    exact ih (round_next_functionStop hr) hd
  | @inside fuel s m0 caller ctx dests path hpc hb he h ih =>
    obtain ⟨ret', ⟨m2, heq, ⟨frame, rest, hcons, hflags⟩, hcount⟩, hpassed, -⟩ :=
      ih (enterPrivate_ctx he).1 fun a ha => hd a (mem_cons_of_mem _ ha)
    have hrun : executeFunc host fuel ctx caller.engine = .ok (ret', m2) := heq
    obtain ⟨m3, hleave, heng, hstop3, -⟩ := leavePrivate_of_exist hrun (hd _ mem_cons_self)
    have hx3 := (execution_callprivate host (executeFunc host fuel) he).trans hleave
    have hstop0 := (keepsCaller_enterPrivate _ _ _ he).1
    have hstop : m3.ctx.functionStop = false := by rw [hstop3, hstop0, hb.ctx_eq, hs]
    have hcons3 : m3.engine.frames = frame :: rest := by rw [heng, hcons]
    have hflags3 : ret'.2 = none → (frame.mark (operation .CALLPRIVATE)).reverts = false ∧
        (frame.mark (operation .CALLPRIVATE)).halts = true := hflags
    obtain ⟨m4, htail, hended, hcount4⟩ := roundTail_of_ended hcons3 hflags3 hstop
    refine ⟨passed ret', ⟨m4, hb.returns hpc hx3 htail, hended, ?_⟩, ?_, fun _ => hpassed⟩
    · rw [hcount4, heng, hcount]
    · rw [passed_passed, hpassed]

theorem Executes.panic_leaves (h : Executes host op m left fuel s path) {q : GoPanic}
    (hx : execution host (executeFunc host left) op m = .error (.panic q m')) :
    ∃ m2, executeFrom host fuel s = .error (.panic q m2) := by
  induction h with
  | now hpc hb => exact ⟨m', hb.panics hpc hx⟩
  | @later fuel s s' path hpc hr h ih =>
    rw [executeFrom_next hpc hr]
    exact ih
  | @inside fuel s m0 caller ctx dests path hpc hb he h ih =>
    obtain ⟨m2, heq⟩ := ih
    have hexec := execution_callprivate host (executeFunc host fuel) he
    exact ⟨_, hb.panics hpc (hexec.trans (leavePrivate_of_panic dests heq))⟩

end

section
variable {δ : Type}

theorem enterRun_fresh {req : FrameRequest} {e start : Engine δ} {frame : TACFrame}
    (h : enterRun prog req e = .ok (.frame frame start)) :
    frame.prog = prog ∧ frame.reverts = false ∧ frame.halts = false := by
  unfold enterRun at h
  dsimp only at h
  split at h
  · cases h
  · split at h
    · cases h
    · split at h
      · cases h
      · obtain ⟨rfl, -⟩ := Entered.frame.inj (Except.ok.inj h)
        exact ⟨rfl, rfl, rfl⟩

namespace RunningFrame
variable {ast ast' : AstProgram} {w : World δ} {host : Host (EvmState δ)} {fuel : Nat}
  {p : RunningFrame δ}

theorem Reached.running_start (hp : p.Reached w host fuel) : Running p.start := by
  obtain ⟨-, hflags⟩ := enterRun_fresh hp.enters
  exact ⟨p.frame, p.before.frames, (enterRun_frame hp.enters).2, hflags⟩

theorem Reached.runsProg_start (hp : p.Reached w host fuel) : RunsProg p.prog p.start := by
  unfold RunsProg
  rw [(enterRun_frame hp.enters).2, ← (enterRun_fresh hp.enters).1]
  rfl

theorem Reached.located_start (hpatch : patchProgram ast = .ok ast')
    (hprog : transformProgram ast = .ok p.prog) (hp : p.Reached w host fuel) :
    Located ast' p.prog (startLoop p.ctx p.start).machine := by
  have hmem : p.entry ∈ p.prog.functions := mem_of_mem_head? hp.entry
  have hcode : p.entry.insts ≠ [] := by
    intro hnil
    have hlt := hp.executes.pc_lt
    have hfun : p.ctx.function = p.entry := (newContext_inv hp.ctx).choose_spec.2.2
    change (0 : Int) < (p.ctx.function.insts.length : Int) at hlt
    rw [hfun, hnil] at hlt
    exact absurd hlt (lt_irrefl _)
  obtain ⟨f, hf, order, hfcode⟩ := (functions_codeOf hpatch hprog hmem).resolve_left hcode
  exact ⟨f, hf, order, p.entry,
    within_startLoop hfcode hp.ctx p.ctx.prevReturnData hp.runsProg_start⟩

end RunningFrame

/-- Private calls of the frame `p` behave like procedure calls, seen from the instruction the
frame has come to. -/
structure BehavesAsProcedure (ast : AstProgram) (w : World δ) (host : Host (EvmState δ))
    (fuel : Nat) (p : RunningFrame δ) : Prop where
  returns : p.op = .CALLPRIVATE → ∀ ctx dests m1 vs,
    enterPrivate p.machine = .ok ((ctx, dests), m1) →
    ReturnsWith host p.left (startLoop ctx m1.engine) vs → vs.length = dests.length →
    ∃ f ∈ ast.functions, ∃ order, ∃ k : Nat, ∃ s s',
      CodeOf p.prog f order p.machine.ctx.function ∧ p.machine.pc = k ∧ CallAt order k s ∧
      Continues host p.left .CALLPRIVATE p.machine s' ∧
      s'.machine.pc = ((k + (stmtItem s).size : Nat) : Int) ∧
      ReturnsTo p.machine.ctx.function s vs p.machine s'.machine
  ends : p.path ≠ [] → ∀ ret m,
    execution host (executeFunc host p.left) p.op p.machine = .ok (ret, m) →
    ret.2 ≠ none ∨ (operation p.op).halts = true →
    ∃ gas e, runTac w host fuel p.req p.before =
        .ok (((if guarded w p.start && w.timerFires p.start then ([], some .tacTimeout)
          else passed ret), gas), e) ∧ instCount e = instCount m.engine
  panics : ∀ q m, execution host (executeFunc host p.left) p.op p.machine = .error (.panic q m) →
    ∀ ret gas e, runTac w host fuel p.req p.before = .ok ((ret, gas), e) →
    ret = ([], some .tacPanic) ∨ ret = ([], some .tacTimeout)

theorem private_calls_are_procedures {ast' : AstProgram} (hpatch : patchProgram ast = .ok ast')
    {w : World δ} {host : Host (EvmState δ)} {p : RunningFrame δ}
    (hprog : transformProgram ast = .ok p.prog) (hfits : ProgramFits ast' p.prog)
    (hhost : CallReturns (RunsProg p.prog) host) (hp : p.Reached w host fuel) :
    BehavesAsProcedure ast' w host fuel p := by
  have hs : p.ctx.functionStop = false := newContext_functionStop hp.ctx
  have hstop : p.machine.ctx.functionStop = false := hp.executes.functionStop hs
  have hrunning : Running p.machine.engine := hp.executes.running hp.running_start
  obtain ⟨⟨f, hf, order, tf, hin⟩, hdests⟩ :=
    hp.executes.located hpatch hprog (hfits.argsFit host fuel _) hhost
      (hp.located_start hpatch hprog)
  constructor
  · intro hop ctx dests m1 vs he hreturns hlen
    have hx := hp.executes
    rw [hop] at hx
    obtain ⟨k, hk, s, hcall⟩ := hin.callAt hx.machine_pc_lt hx.fetches
    obtain ⟨target, n, henters⟩ := enterPrivate_inv he
    have hcount : vs.length = s.numAssignee := by
      rw [hlen, henters.dests, length_cellsFrom, henters.numAssignee hin hk hcall]
    obtain ⟨s', hcont, hpc, hregs⟩ := hcall.continues hin hk
      ((hfits f hf order hin.code.layout).fitsAt _) hstop hrunning he hreturns hcount
    obtain rfl := hin.function
    exact ⟨f, hf, order, k, s, s', hin.code, hk, hcall, hcont, hpc, hregs⟩
  · intro hpath ret m hexec hcase
    have hprogm : RunsProg p.prog m.engine := hin.prog.execution hhost hexec
    have hne : m.engine.frames ≠ [] := by
      intro hnil
      unfold RunsProg at hprogm
      rw [hnil] at hprogm
      cases hprogm
    have hend : EndsFrame p.op ret m := by
      refine ⟨hne, fun hnone => ?_⟩
      have hhalts := hcase.resolve_left (fun h => h hnone)
      obtain ⟨hctx, hrunningm⟩ := execution_halts hhalts hexec hnone hrunning
      exact ⟨hhalts, by rw [hctx, hstop], hrunningm⟩
    obtain ⟨ret', ⟨m2, heq, -, hcount⟩, -, hret⟩ := hp.executes.stops hexec hend hs hdests
    obtain ⟨gas, e, hrun, hcount'⟩ := hp.run_of_entry heq
    rw [hret hpath] at hrun
    exact ⟨gas, e, hrun, hcount'.trans hcount⟩
  · intro q m hexec ret gas e hrun
    obtain ⟨m2, heq⟩ := hp.executes.panic_leaves hexec
    exact hp.run_panic heq hrun

end

def comesTo (host : Host σ) (op : TACOp) : Nat → LoopState σ → Option (Nat × Machine σ)
  | 0, _ => none
  | fuel + 1, s =>
    if s.machine.pc < s.machine.ctx.function.insts.length then
      match begun host s with
      | none => none
      | some (op', m) =>
        if op' = op then some (fuel, m)
        else match round host (executeFunc host fuel) s with
          | .ok (.next s') => comesTo host op fuel s'
          | _ => none
    else none

theorem executes_of_comesTo {host : Host σ} {op : TACOp} {left : Nat} {s : LoopState σ}
    (h : comesTo host op fuel s = some (left, m)) :
    Executes host op m left fuel s [] := by
  induction fuel generalizing s with
  | zero => cases h
  | succ fuel ih =>
    unfold comesTo at h
    split at h
    · next hpc =>
      split at h
      · cases h
      · next op' m' hbegin =>
        split at h
        · next hop =>
          cases h
          exact .now hpc (hop ▸ begun_eq_some.mp hbegin)
        · split at h
          · next s' hround => exact .later hpc hround (ih h)
          · cases h
    · cases h

/-! ### Programs of two functions

The entry function calls the other one, which returns constants. -/

def procWorld (prog : TACProgram) : World Unit :=
  { soloWorld {} with getTACProg := fun _ => .ok prog, timeoutEnabled := false }

def procFrame (prog : TACProgram) : TACFrame := { soloFrame {} with prog }

def procStart (prog : TACProgram) : Engine Unit := { soloStart {} with frames := [procFrame prog] }

def procHost (prog : TACProgram) : Host (EvmState Unit) := hostAt (procWorld prog) 9 1

theorem procHost_runsProg (prog : TACProgram) : CallReturns (RunsProg prog) (procHost prog) :=
  hostAt_runsProg rfl 9 1 prog

def procRunning (prog : TACProgram) (entry : TACFunction) (ctx : TACContext) (op : TACOp)
    (found : Nat × Machine (EvmState Unit)) : RunningFrame Unit where
  req := soloRequest
  before := soloEngine
  prog := prog
  entry := entry
  frame := procFrame prog
  start := procStart prog
  ctx := ctx
  op := op
  machine := found.2
  left := found.1
  path := []

theorem procRunning_reached {entry : TACFunction} {op : TACOp}
    {found : Nat × Machine (EvmState Unit)} (hentry : prog.entry = some entry)
    (hctx : newContext entry none = .ok ctx)
    (hfound : comesTo (procHost prog) op 9 (startLoop ctx (procStart prog)) = some found) :
    (procRunning prog entry ctx op found).Reached (procWorld prog) (procHost prog) 9 where
  prog := rfl
  enters := rfl
  entry := hentry
  ctx := hctx
  executes := executes_of_comesTo hfound

structure FirstCall (p : RunningFrame Unit) (dests : List Int) (vs : List Word)
    (s' : LoopState (EvmState Unit)) : Prop where
  reached : p.Reached (procWorld p.prog) (procHost p.prog) 9
  start : p.start = procStart p.prog
  op : p.op = .CALLPRIVATE
  enters : ∃ ctx m1, enterPrivate p.machine = .ok ((ctx, dests), m1) ∧
    ReturnsWith (procHost p.prog) p.left (startLoop ctx m1.engine) vs
  continues : Continues (procHost p.prog) p.left .CALLPRIVATE p.machine s'

def nextState {δ : Type} (r : Except (Stop (EvmState δ)) (Round (EvmState δ))) :
    Option (LoopState (EvmState δ)) :=
  match r with
  | .ok (.next s') => some s'
  | _ => none

def firstCall (prog : TACProgram) :
    Option (List Int × List Word × LoopState (EvmState Unit)) := do
  let entry ← prog.entry
  let ctx ← (newContext entry none).toOption
  let found ← comesTo (procHost prog) .CALLPRIVATE 9 (startLoop ctx (procStart prog))
  let q ← (enterPrivate found.2).toOption
  let last ← comesTo (procHost prog) .RETURNPRIVATE found.1 (startLoop q.1.1 q.2.engine)
  let _ ← (execReturnprivate last.2).toOption
  let r ← (execution (procHost prog) (executeFunc (procHost prog) found.1) .CALLPRIVATE
    found.2).toOption
  let s' ← nextState (roundTail (operation .CALLPRIVATE) r.1 r.2)
  return (q.1.2, returned last.2, s')

theorem eq_ok_of_toOption {ε α : Type} {x : Except ε α} {a : α} (h : x.toOption = some a) :
    x = .ok a := by
  cases x with
  | error e => cases h
  | ok b => rw [Option.some.inj h]

theorem firstCall_spec {s' : LoopState (EvmState Unit)} (h : firstCall prog = some (dests, vs, s'))
    :
    ∃ p : RunningFrame Unit, p.prog = prog ∧ FirstCall p dests vs s' := by
  obtain ⟨entry, hentry, h⟩ := Option.bind_eq_some_iff.mp h
  obtain ⟨ctx, hctx, h⟩ := Option.bind_eq_some_iff.mp h
  obtain ⟨found, hfound, h⟩ := Option.bind_eq_some_iff.mp h
  obtain ⟨⟨⟨ctx1, dests1⟩, m1⟩, henter, h⟩ := Option.bind_eq_some_iff.mp h
  obtain ⟨⟨left, m⟩, hlast, h⟩ := Option.bind_eq_some_iff.mp h
  obtain ⟨⟨ret, m'⟩, hreturn, h⟩ := Option.bind_eq_some_iff.mp h
  obtain ⟨⟨ret1, m2⟩, hexec, h⟩ := Option.bind_eq_some_iff.mp h
  obtain ⟨s1, hnext, h⟩ := Option.bind_eq_some_iff.mp h
  obtain ⟨rfl, hrest⟩ := Prod.mk.inj (Option.some.inj h)
  obtain ⟨rfl, rfl⟩ := Prod.mk.inj hrest
  have htail : roundTail (operation .CALLPRIVATE) ret1 m2 = .ok (.next s1) := by
    unfold nextState at hnext
    split at hnext
    · next s2 heq => rw [heq, Option.some.inj hnext]
    · cases hnext
  refine ⟨procRunning prog entry ctx .CALLPRIVATE found, rfl, ?_, rfl, rfl, ?_, ?_⟩
  · exact procRunning_reached hentry (eq_ok_of_toOption hctx) hfound
  · exact ⟨ctx1, m1, eq_ok_of_toOption henter, m, left, ret, m', executes_of_comesTo hlast,
      eq_ok_of_toOption hreturn, rfl⟩
  · exact ⟨ret1, m2, eq_ok_of_toOption hexec, htail⟩

def trial (ast : AstProgram) : Option (Bool × List Int × List Word × List Word × Int) := do
  let ast' ← (patchProgram ast).toOption
  let prog ← (transformProgram ast).toOption
  let q ← firstCall prog
  return (checkFits ast' prog, q.1, q.2.1, q.1.map fun d => q.2.2.machine.val d.toNat,
    q.2.2.machine.pc)

theorem trial_spec {fits : Bool} {after : List Word} {pc : Int}
    (h : trial ast = some (fits, dests, vs, after, pc)) :
    ∃ ast' p s', patchProgram ast = .ok ast' ∧ transformProgram ast = .ok p.prog ∧
      checkFits ast' p.prog = fits ∧ FirstCall p dests vs s' ∧
      (dests.map fun d => s'.machine.val d.toNat) = after ∧ s'.machine.pc = pc := by
  obtain ⟨ast', hpatch, h⟩ := Option.bind_eq_some_iff.mp h
  obtain ⟨prog, hprog, h⟩ := Option.bind_eq_some_iff.mp h
  obtain ⟨⟨dests1, vs1, s'⟩, hcall, h⟩ := Option.bind_eq_some_iff.mp h
  obtain ⟨p, rfl, hfirst⟩ := firstCall_spec hcall
  obtain ⟨hfits, h⟩ := Prod.mk.inj (Option.some.inj h)
  obtain ⟨hdests, h⟩ := Prod.mk.inj h
  obtain ⟨hvs, h⟩ := Prod.mk.inj h
  obtain ⟨hafter, hpc⟩ := Prod.mk.inj h
  obtain rfl : dests1 = dests := hdests
  obtain rfl : vs1 = vs := hvs
  exact ⟨ast', p, s', eq_ok_of_toOption hpatch, eq_ok_of_toOption hprog, hfits, hfirst, hafter, hpc⟩

def plainVar (name : String) : AstVariable := ⟨name.toList, [], .VARIABLE⟩

def constVar (name val : String) : AstVariable := ⟨name.toList, val.toList, .CONSTANT⟩

/-- `RETURNPRIVATE v4, values` in the function `0x10` without parameters, and
`dests = CALLPRIVATE v0(0x10), args` followed by `STOP` in the selector. -/
def returnsProgram (dests args values : List AstVariable) : AstProgram :=
  ⟨[⟨"0x10".toList, [], [⟨"0x10".toList, "0x10".toList, [], [],
      [⟨"0x10".toList, "0x10".toList, .RETURNPRIVATE, plainVar "v4" :: values, 0, "0x10".toList,
        false⟩]⟩], false⟩,
    ⟨"__function_selector__".toList, [], [⟨"0x0".toList, "0x0".toList, [], [],
      [⟨"0x0".toList, "0x0".toList, .CALLPRIVATE, dests ++ constVar "v0" "0x10" :: args,
        dests.length, "0x0".toList, false⟩,
       ⟨"0x2".toList, "0x2".toList, .STOP, [], 0, "0x0".toList, false⟩]⟩], true⟩]⟩

theorem private_call_pair :
    ∃ ast ast' p s', patchProgram ast = .ok ast' ∧ transformProgram ast = .ok p.prog ∧
      FirstCall p [0, 1] [1, 2] s' ∧
      BehavesAsProcedure ast' (procWorld p.prog) (procHost p.prog) 9 p := by
  obtain ⟨ast', p, s', hpatch, hprog, hfits, hcall, -, -⟩ := trial_spec
    (show trial (returnsProgram [plainVar "v1", plainVar "v2"] []
      [constVar "v5" "0x1", constVar "v6" "0x2"]) = some (true, [0, 1], [1, 2], [1, 2], 6) by
        decide +kernel)
  exact ⟨_, ast', p, s', hpatch, hprog, hcall, private_calls_are_procedures hpatch hprog
    (programFits_of_check hfits) (procHost_runsProg p.prog) hcall.reached⟩

/-- With the same destination twice the first returned value is lost. -/
theorem private_call_repeated_destination :
    ∃ ast ast' p dests vs s', patchProgram ast = .ok ast' ∧ transformProgram ast = .ok p.prog ∧
      ProgramFits ast' p.prog ∧ FirstCall p dests vs s' ∧ vs.length = dests.length ∧
      ¬ ∀ (i : Nat) (d : Int) (x : Word), dests[i]? = some d → vs[i]? = some x →
        s'.machine.val d.toNat = x := by
  obtain ⟨ast', p, s', hpatch, hprog, hfits, hcall, hafter, -⟩ := trial_spec
    (show trial (returnsProgram [plainVar "v1", plainVar "v1"] []
      [constVar "v5" "0x1", constVar "v6" "0x2"]) = some (true, [0, 0], [1, 2], [2, 2], 6) by
        decide +kernel)
  refine ⟨_, ast', p, [0, 0], [1, 2], s', hpatch, hprog, programFits_of_check hfits, hcall, rfl,
    fun hall => ?_⟩
  have hfirst := hall 0 0 1 rfl rfl
  have hsecond : s'.machine.val (0 : Int).toNat = 2 := (List.cons.inj hafter).1
  rw [hfirst] at hsecond
  exact absurd hsecond (by decide)

/-- The frame is at the start of an instruction emitted for the function it is in, and runs its
opcode. -/
def EmittedAt {δ : Type} (ast : AstProgram) (p : RunningFrame δ) : Prop :=
  ∃ f ∈ ast.functions, ∃ order, ∃ k : Nat, ∃ it,
    CodeOf p.prog f order p.machine.ctx.function ∧
    p.machine.ctx.registers.length = p.machine.ctx.function.numVars ∧
    p.machine.pc = k ∧ ItemAt (order.flatMap AstBlock.items) k it ∧ it.opcode = p.op

/-- At every depth of private calls. -/
theorem executed_instructions_emitted {δ : Type} {ast' : AstProgram}
    (hpatch : patchProgram ast = .ok ast') {w : World δ} {host : Host (EvmState δ)}
    {p : RunningFrame δ} (hprog : transformProgram ast = .ok p.prog)
    (hfits : ProgramFits ast' p.prog) (hhost : CallReturns (RunsProg p.prog) host)
    (hp : p.Reached w host fuel) : EmittedAt ast' p := by
  obtain ⟨⟨f, hf, order, tf, hin⟩, -⟩ :=
    hp.executes.located hpatch hprog (hfits.argsFit host fuel _) hhost
      (hp.located_start hpatch hprog)
  obtain ⟨k, hk, it, hat, hop⟩ := hin.item hp.executes.machine_pc_lt hp.executes.fetches
  obtain rfl := hin.function
  exact ⟨f, hf, order, k, it, hin.code, hin.registers, hk, hat, hop⟩

theorem private_call_emitted :
    ∃ ast ast' p s', patchProgram ast = .ok ast' ∧ transformProgram ast = .ok p.prog ∧
      FirstCall p [0] [1] s' ∧ EmittedAt ast' p := by
  obtain ⟨ast', p, s', hpatch, hprog, hfits, hcall, -, -⟩ := trial_spec
    (show trial (returnsProgram [plainVar "v1"] [] [constVar "v5" "0x1"]) =
      some (true, [0], [1], [1], 5) by decide +kernel)
  exact ⟨_, ast', p, s', hpatch, hprog, hcall, executed_instructions_emitted hpatch hprog
    (programFits_of_check hfits) (procHost_runsProg p.prog) hcall.reached⟩

end EtherVal.Vm
