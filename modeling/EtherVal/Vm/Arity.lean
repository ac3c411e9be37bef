import EtherVal.Vm.PrivateCalls

/-!
# Numbers of arguments and of returned values

Nothing compares the arguments of a private call with the parameters of its callee, or the
values returned with the destinations.  What the interpreter needs of the instructions it executes:
the numbers agree, and no function with destinations to fill is left at the end of its code.
-/

namespace EtherVal.Vm
open EtherVal.Lib EtherVal.TacParser
open Exec

variable {σ : Type}

variable {m' : Machine σ}
variable {m : Machine σ} {st s : LoopState σ} {host : Host σ} {n fuel : Nat} {run : Runner σ}
  {op : TACOp} {ast : AstProgram}

theorem functionStop_execPhis (h : execPhis n m = .ok ((), m')) :
    m'.ctx.functionStop = m.ctx.functionStop := by
  induction n generalizing m with
  | zero =>
    obtain ⟨-, rfl⟩ := pure_eq_ok.mp h
    rfl
  | succ n ih =>
    obtain ⟨_, m1, h1, h2⟩ := bind_eq_ok.mp h
    obtain ⟨-, hc, -⟩ := execPhi_inv h1
    rw [ih h2, hc]
    rfl

variable {ret : Ret}

theorem functionStop_execPhiStart (h : execPhiStart m = .ok (ret, m')) :
    m'.ctx.functionStop = m.ctx.functionStop := by
  obtain ⟨n, -, h⟩ := Exec.execPhiStart_inv h
  rcases h with ⟨-, rfl⟩ | ⟨m1, hphis, rfl⟩
  · rfl
  · have hkeep := functionStop_execPhis hphis
    exact hkeep

theorem functionStop_execCallprivate (h : execCallprivate run m = .ok (ret, m')) :
    m'.ctx.functionStop = m.ctx.functionStop := by
  obtain ⟨ctx, dests, m1, mc, henter, -, hassign⟩ := execCallprivate_cases h
  obtain ⟨target, n, henters⟩ := enterPrivate_inv henter
  rw [(assignAll_inv hassign).2.2.2, ← henters.ctx]

theorem execution_functionStop (hop : op ≠ .RETURNPRIVATE)
    (h : execution host run op m = .ok (ret, m')) (hret : ret.2 = none) :
    m'.ctx.functionStop = m.ctx.functionStop := by
  have hI := always_frameInv (σ := σ)
  by_cases hplain : isPlain op = true
  · have hx := execution_plain hplain host run
    unfold Plain at hx
    split at hx
    · obtain ⟨d, w, -, hctx, -⟩ := hx.writes m ret m' h hret
      rw [hctx]
      rfl
    · rw [(hx.moves m ret m' h hret).1]
  · cases op
    case RETURNPRIVATE => exact absurd rfl hop
    case NOT =>
      obtain ⟨d, a, -, -, -, rfl⟩ := execNot_eq_ok.mp h
      rfl
    case PHI_START => exact functionStop_execPhiStart h
    case CALLPRIVATE => exact functionStop_execCallprivate h
    case BLOCK_FLAG =>
      have h := Exec.modify_bind h
      have h := Exec.advance_bind h
      obtain ⟨-, rfl⟩ := done_eq_ok.mp h
      rfl
    case PHI | PHI_END => exact absurd h panicWith_ne_ok
    case JUMP => rw [(keepsContext_execJump hI).same m ret m' h]
    case JUMPI => rw [(keepsContext_execJumpi hI).same m ret m' h]
    case JUMP_VAR => rw [(keepsContext_execJumpVar hI).same m ret m' h]
    case JUMPI_VAR => rw [(keepsContext_execJumpiVar hI).same m ret m' h]
    all_goals exact absurd rfl hplain

theorem roundTail_returned_none {op : TACOperation} {ret' : Ret}
    (h : roundTail op ret m = .ok (.returned ret' m')) (hret : ret'.2 = none) :
    ret.2 = none ∧ (m.ctx.functionStop = true ∨ ¬ Running m'.engine) := by
  obtain ⟨m1, -, -, -, htail⟩ := roundTail_tail op ret m
  rw [h] at htail
  cases htail with
  | stop _ hstop => exact ⟨hret, .inl hstop⟩
  | error => cases hret
  | reverts => cases hret
  | halts _ _ hnone _ hhalts =>
    refine ⟨hnone, .inr ?_⟩
    rintro ⟨frame', rest', hcons, -, hclear⟩
    obtain ⟨rfl, -⟩ := List.cons.inj hcons
    rw [hhalts] at hclear
    cases hclear

theorem round_returned_cases (h : round host run s = .ok (.returned ret m')) (hret : ret.2 = none) :
    ∃ op m ret1 m1, Begins host s op m ∧ execution host run op m = .ok (ret1, m1) ∧
      roundTail (operation op) ret1 m1 = .ok (.returned ret m') := by
  rcases round_cases host run s with ⟨stop, -, heq⟩ | ⟨ret0, s1, hhead, heq⟩ | ⟨p, s1, -, heq⟩ |
      ⟨op, m, hb⟩
  · rw [heq] at h
    cases h
  · rw [heq] at h
    obtain ⟨rfl, -⟩ := Round.returned.inj (Except.ok.inj h)
    exact absurd hret ((roundHead_inv hhead).2 _ rfl)
  · rw [heq] at h
    cases h
  · rw [hb.round_eq run] at h
    cases hx : execution host run op m with
    | error stop =>
      rw [hx] at h
      cases h
    | ok q =>
      rw [hx] at h
      exact ⟨op, m, q.1, q.2, hb, hx, h⟩

theorem flags_of_mark {op : TACOperation} {frame : TACFrame}
    (hreverts : (frame.mark op).reverts = false) (hhalts : (frame.mark op).halts = false) :
    frame.reverts = false ∧ frame.halts = false := by
  unfold TACFrame.mark at hreverts hhalts
  split at hreverts
  · cases hreverts
  next hop =>
  rw [if_neg hop] at hhalts
  split at hhalts
  · cases hhalts
  next hop' =>
  rw [if_neg hop'] at hreverts
  exact ⟨hreverts, hhalts⟩

variable {s' : LoopState σ}

theorem running_of_roundTail_next {op : TACOperation} (h : roundTail op ret m = .ok (.next s')) :
    Running m.engine := by
  obtain ⟨m1, -, -, -, htail⟩ := roundTail_tail op ret m
  rw [h] at htail
  cases htail with
  | next hf _ _ hreverts hhalts => exact ⟨_, _, hf, flags_of_mark hreverts hhalts⟩

/-- The instruction is the last one of its function, and execution goes on behind it. -/
def FallsOff (op : TACOp) (m : Machine σ) : Prop :=
  nextPc m op = m.ctx.function.insts.length ∧ closes op = false ∧
    (isConditional op = true → NotTaken m)

/-- What an executed instruction needs: a call passes as many arguments as its callee declares,
and a function with destinations to fill has code, does not run off its end and returns at least
as many values. -/
structure StepFits (ast : AstProgram) (prog : TACProgram) (op : TACOp) (m : Machine σ) : Prop where
  args : ∀ f ∈ ast.functions, ∀ order, CodeOf prog f order m.ctx.function →
    FitsAt prog prog.functionEncoding order m.pc
  values : op = .RETURNPRIVATE → ∀ n, bufferLength m = some n → n ≤ (returned m).length
  code : op = .CALLPRIVATE → cellD m.ctx.function (m.pc + 1) ≠ 0 →
    ∀ callee, calleeAt m = some callee → callee.insts ≠ []
  stays : ∀ n, bufferLength m = some (n + 1) → ¬ FallsOff op m

def RunFits (ast : AstProgram) (prog : TACProgram) (host : Host σ) (fuel : Nat)
    (s : LoopState σ) : Prop :=
  ∀ op m left path, Executes host op m left fuel s path → StepFits ast prog op m

structure SoundCall (host : Host σ) (left k : Nat) (s : AstStatement) (m : Machine σ)
    (s' : LoopState σ) : Prop where
  behind : s'.machine.pc = ((k + (stmtItem s).size : Nat) : Int)
  returned : ∃ ctx dests m1 vs, enterPrivate m = .ok ((ctx, dests), m1) ∧
    vs.length = s.numAssignee ∧ ReturnsTo m.ctx.function s vs m s'.machine ∧
    (vs ≠ [] → ReturnsWith host left (startLoop ctx m1.engine) vs)

section
variable {ast ast' : AstProgram} {prog : TACProgram} {f : AstFunction} {order : List AstBlock}
  {tf : TACFunction} {host : Host σ} {op : TACOp} {m m1 : Machine σ} {left fuel k : Nat}

theorem RunFits.argsFit (h : RunFits ast prog host fuel st) :
    ArgsFit ast prog host fuel st :=
  fun op m left path hx => (h op m left path hx).args

theorem fallsOff_begins (hb : Begins host st op m) (h : FallsOff op st.machine) :
    FallsOff op m := by
  obtain ⟨hend, hopen, hcond⟩ := h
  refine ⟨?_, hopen, fun hc => ?_⟩
  · rw [hb.ctx_eq, ← hend]
    unfold nextPc calleeAt
    rw [hb.pc_eq, hb.ctx_eq, hb.frames_eq]
  · obtain ⟨c, hc, hzero⟩ := hcond hc
    refine ⟨c, operand_congr hb.pc_eq hb.ctx_eq 2 ▸ hc, ?_⟩
    rw [Machine.val, Machine.reg, hb.ctx_eq]
    exact hzero

theorem Within.stays {st' : LoopState σ} (h : Within prog f order tf st.machine)
    (hfit : FitsAt prog prog.functionEncoding order st.machine.pc) (hb : Begins host st op m)
    (hstep : Step host st st') (hnot : ¬ FallsOff op m) :
    st'.machine.pc < st'.machine.ctx.function.insts.length := by
  have hcode := h.code.transformed
  have hfetch : fetch st.machine = .ok op := by
    rw [← hb.fetches, fetch, fetch, Machine.inst, Machine.inst, hb.pc_eq, hb.ctx_eq]
  obtain ⟨k, hpc, it, hat, rfl⟩ := h.item hstep.1 hfetch
  have hlen : (tf.insts.length : Int) = codeSize order := hcode.length
  have hinside : ∀ {k : Nat} {it : Item}, ItemAt (order.flatMap AstBlock.items) k it →
      k < codeSize order := by
    intro k it hat
    have hle : k + it.size ≤ codeSize order := hat.le
    have hpos := hcode.sized it hat.mem
    omega
  rw [(step_frame hstep).1, h.function, hlen]
  rcases step_lands hcode h.code.registered hfit h.function h.prog hpc hat hstep with
    ⟨name, hplaced⟩ | ⟨hnext, hopen, hcond⟩
  · obtain ⟨k', hk', hflag⟩ := Transformed.itemAt_of_placed hcode hplaced
    rw [hk']
    exact_mod_cast hinside hflag
  · have hle : k + it.size ≤ codeSize order := hat.le
    have hne : k + it.size ≠ codeSize order := by
      intro hend
      refine hnot (fallsOff_begins hb ⟨?_, hopen, hcond⟩)
      have hjump : it.opcode ≠ .JUMP ∧ it.opcode ≠ .JUMP_VAR := by
        constructor <;>
          · intro heq
            rw [heq] at hopen
            cases hopen
      rw [← step_pc hstep hfetch hjump hcond, hnext, hend, h.function, hlen]
    rw [hnext]
    exact_mod_cast Nat.lt_of_le_of_ne hle hne

/-- A function with destinations to fill that ends without error, with the frame still running,
came to a `RETURNPRIVATE`. -/
theorem Within.returns (hf : f ∈ ast.functions) (hhost : CallReturns (RunsProg prog) host)
    (h : executeFrom host fuel st = .ok (ret, m')) (hret : ret.2 = none) (hrun : Running m'.engine)
    (hs : st.machine.ctx.functionStop = false) (hfits : RunFits ast prog host fuel st)
    (hin : Within prog f order tf st.machine)
    (hpc : st.machine.pc < st.machine.ctx.function.insts.length)
    (hbuf : bufferLength st.machine = some (n + 1)) : ∃ vs, ReturnsWith host fuel st vs := by
  induction fuel generalizing st with
  | zero => cases h
  | succ fuel ih =>
    rw [executeFrom_succ hpc] at h
    cases hr : round host (executeFunc host fuel) st with
    | error stop =>
      rw [hr] at h
      cases h
    | ok r =>
      rw [hr] at h
      cases r with
      | returned ret1 m1 =>
        cases h
        obtain ⟨op, m, ret2, m2, hb, hexec, htail⟩ := round_returned_cases hr hret
        obtain ⟨hnone, hstop | hnot⟩ := roundTail_returned_none htail hret
        · have hop : op = .RETURNPRIVATE := by
            by_contra hop
            have hkeep := execution_functionStop hop hexec hnone
            rw [hb.ctx_eq, hs, hstop] at hkeep
            cases hkeep
          subst hop
          exact ⟨Vm.returned m, m, fuel, ret2, m2, .now hpc hb, hexec, rfl⟩
        · exact absurd hrun hnot
      | next st' =>
        obtain ⟨op, m, hb⟩ := round_next_begins hr
        have hstep : Step host st st' := ⟨hpc, fuel, hr⟩
        have hfit := hfits.argsFit.here hpc hb hf hin
        have hown : bufferLength m = some (n + 1) := by rw [bufferLength, hb.ctx_eq]; exact hbuf
        have hstay := hin.stays hfit hb hstep ((hfits op m fuel [] (.now hpc hb)).stays n hown)
        obtain ⟨vs, m, left, ret1, m1, hx, hrest⟩ := ih h (round_next_functionStop hr)
          (fun _ _ _ _ hx => hfits _ _ _ _ (.later hpc hr hx)) (hin.step hfit hhost hstep) hstay
          ((round_bufferLength hr).trans hbuf)
        exact ⟨vs, m, left, ret1, m1, .later hpc hr hx, hrest⟩

theorem Executes.enter {path path' : List (Activation σ)} {ctx : TACContext} {dests : List Int}
    {m0 : Machine σ} {left' : Nat} (h : Executes host .CALLPRIVATE m left fuel st path)
    (he : enterPrivate m = .ok ((ctx, dests), m1))
    (h' : Executes host op m0 left' left (startLoop ctx m1.engine) path') :
    Executes host op m0 left' fuel st (path ++ ⟨left, ctx, m1, dests⟩ :: path') := by
  induction h with
  | now hpc hb => exact .inside hpc hb he h'
  | later hpc hr _ ih => exact .later hpc hr ih
  | inside hpc hb hcall _ ih => exact .inside hpc hb hcall ih

variable {s : AstStatement}

theorem CallAt.sound (hs : CallAt order k s) (hpatch : patchProgram ast = .ok ast')
    (hprog : transformProgram ast = .ok prog) (hf : f ∈ ast'.functions)
    (hin : Within prog f order tf m) (hk : m.pc = k) (hfit : StepFits ast' prog .CALLPRIVATE m)
    (hfits : ∀ ctx dests m1, enterPrivate m = .ok ((ctx, dests), m1) →
      RunFits ast' prog host left (startLoop ctx m1.engine))
    (hhost : CallReturns (RunsProg prog) host) (hrunning : Running m.engine)
    (hcont : Continues host left .CALLPRIVATE m s') : SoundCall host left k s m s' := by
  obtain ⟨ret, m', hexec, htail⟩ := hcont
  obtain ⟨hnone, -, -, hpc, hctx⟩ := roundTail_next htail
  obtain ⟨ctx, dests, m1, mc, he, hrun, hassign⟩ := execCallprivate_cases hexec
  have hmc := running_of_roundTail_next htail
  rw [(assignAll_inv hassign).2.2.1] at hmc
  obtain ⟨target, n, henters⟩ := enterPrivate_inv he
  obtain rfl := henters.numAssignee hin hk hs
  have hown : ctx.prevReturnData.map List.length = some s.numAssignee := by
    obtain ⟨fresh, -, rfl⟩ := henters.created
    simp
  obtain ⟨buffer, hbuffer, hsize⟩ :=
    Option.map_eq_some_iff.mp ((executeFrom_buffer hrun hnone).trans hown)
  obtain ⟨m'', hleave, -, -, hregs⟩ := henters.leaves hin hk hs hrun hbuffer hsize
  obtain rfl : m' = m'' := (Prod.mk.inj (Except.ok.inj
    (hexec.symm.trans ((execution_callprivate host (executeFunc host left) he).trans hleave)))).2
  have hargs := hfit.args f hf order (by rw [hin.function]; exact hin.code)
  refine ⟨by rw [hpc, hs.next_pc hin hk hargs hexec], ctx, dests, m1, buffer, he, hsize, ⟨?_, ?_⟩,
    fun hne => ?_⟩
  · intro i v r w hi hv hr hw hlast
    rw [Machine.val, Machine.reg, hctx]
    exact hregs.dest i v r w hi hv (hin.function ▸ hr) hw hlast
  · intro r hr
    rw [Machine.reg, hctx]
    exact hregs.other r (hin.function ▸ hr)
  -- the callee has destinations to fill, so it runs code and comes to a `RETURNPRIVATE`
  · obtain ⟨n, hn⟩ := Nat.exists_eq_succ_of_ne_zero
      (show s.numAssignee ≠ 0 by rw [← hsize]; exact mt List.length_eq_zero_iff.mp hne)
    have hcode : target.insts ≠ [] := by
      refine hfit.code rfl ?_ target henters.callee
      rw [hin.function, hk, hs.count hin.code, hn]
      exact Int.natCast_ne_zero.mpr (Nat.succ_ne_zero n)
    obtain ⟨g, hg, gorder, gtf, hing⟩ := henters.located hpatch hprog hin.prog hcode
    have hstart : (startLoop ctx m1.engine).machine.pc <
        (startLoop ctx m1.engine).machine.ctx.function.insts.length := by
      obtain ⟨fresh, hfresh, rfl⟩ := henters.created
      change (0 : Int) < (fresh.function.insts.length : Int)
      rw [(newContext_inv hfresh).choose_spec.2.2]
      exact_mod_cast List.length_pos_iff.mpr hcode
    have hcallee := hfits ctx dests m1 he
    obtain ⟨vs, hvs⟩ := hing.returns hg hhost hrun hnone hmc (enterPrivate_ctx he).1 hcallee hstart
      (hown.trans (congrArg some hn))
    obtain ⟨m2, tail, heq, -, hprev, htotal⟩ := hvs.executeFunc hown (by rwa [henters.engine])
    obtain rfl : mc = m2 := (Prod.mk.inj (Except.ok.inj (hrun.symm.trans heq))).2
    have hge : s.numAssignee ≤ vs.length := by
      obtain ⟨mr, rest, _, _, hx, -, rfl⟩ := hvs
      exact (hcallee _ mr rest [] hx).values rfl _ ((hx.own_bufferLength rfl).trans hown)
    obtain rfl : tail = [] := List.length_eq_zero_iff.mp (by omega)
    rw [List.append_nil, hbuffer] at hprev
    rw [Option.some.inj hprev]
    exact hvs

theorem CallAt.behind_iff (hs : CallAt order k s) (hin : Within prog f order tf m) (hk : m.pc = k)
    {callee : TACFunction}
    (hcallee : prog.functions[calleeOf prog.functionEncoding s]? = some callee)
    (hcont : Continues host left .CALLPRIVATE m s') :
    s'.machine.pc = ((k + (stmtItem s).size : Nat) : Int) ↔ callee.args.length = passedArgs s := by
  obtain ⟨ret, m', hexec, htail⟩ := hcont
  obtain ⟨-, -, -, hpc', -⟩ := roundTail_next htail
  obtain ⟨target, htarget, hnext⟩ := execCallprivate_inv hexec
  rw [calleeAt_item hin.code.transformed hin.code.registered hs.item hin.function hk hs.operation
    hin.prog, hcallee] at htarget
  cases htarget
  have hpos : m.pc + 1 = (k : Int) + 1 := by rw [hk]
  have hsize : (stmtItem s).size = 3 + s.numAssignee + passedArgs s := by
    simp [stmtItem, stmtSize, hs.operation]
  rw [hpc', hnext, hin.function, hpos, hs.count hin.code, hk, hsize]
  push_cast
  omega

end

def Panics {α : Type} (x : Exec σ α) : Prop :=
  ∀ m stop, x m = .error stop → ∃ q m', stop = .panic q m'

section
variable {α β : Type}

theorem Panics.of_ok {x : Exec σ α} (h : ∀ m, ∃ q, x m = .ok q) : Panics x := by
  intro m stop hx
  obtain ⟨q, hq⟩ := h m
  rw [hq] at hx
  cases hx

theorem Panics.panicWith (p : GoPanic) : Panics (Exec.panicWith p : Exec σ α) := by
  intro m stop hx
  exact ⟨p, m, (Except.error.inj hx).symm⟩

theorem Panics.bind {x : Exec σ α} {f : α → Exec σ β} (hx : Panics x) (hf : ∀ a, Panics (f a)) :
    Panics (x >>= f) := by
  intro m stop h
  rw [bind_apply] at h
  cases hxm : x m with
  | error stop' =>
    rw [hxm] at h
    obtain rfl := Except.error.inj h
    exact hx m _ hxm
  | ok q =>
    rw [hxm] at h
    exact hf q.1 q.2 stop h

theorem Panics.read (g : Machine σ → Except GoPanic α) : Panics (Exec.read g) := by
  intro m stop h
  unfold Exec.read at h
  split at h
  · cases h
  · exact ⟨_, m, (Except.error.inj h).symm⟩

theorem Panics.operandValues (first : Int) (n : Nat) :
    Panics (Vm.operandValues first n : Exec σ (List Word)) := by
  induction n generalizing first with
  | zero => exact Panics.of_ok fun m => ⟨_, rfl⟩
  | succ n ih =>
    refine Panics.bind (Panics.read _) fun r =>
      Panics.bind (Panics.of_ok fun m => ⟨_, rfl⟩) fun w =>
      Panics.bind (ih _) fun rest => Panics.of_ok fun m => ⟨_, rfl⟩

theorem Panics.returnValues (vs : List Word) (i : Nat) :
    Panics (Vm.returnValues vs i : Exec σ Unit) := by
  induction vs generalizing i with
  | nil => exact Panics.of_ok fun m => ⟨_, rfl⟩
  | cons v vs ih =>
    refine Panics.bind (Panics.of_ok fun m => ⟨_, rfl⟩) fun m => ?_
    split
    · exact Panics.panicWith _
    · split
      · exact Panics.bind (Panics.of_ok fun m => ⟨_, rfl⟩) fun _ => ih _
      · exact Panics.panicWith _

theorem panics_execReturnprivate : Panics (execReturnprivate : Exec σ Ret) := by
  refine Panics.bind (Panics.read _) fun n => Panics.bind (Panics.of_ok fun m => ⟨_, rfl⟩) fun _ =>
    Panics.bind (Panics.operandValues _ _) fun values =>
      Panics.bind (Panics.returnValues _ _) fun _ =>
      Panics.of_ok fun m => ⟨_, rfl⟩

end

section
variable {host : Host σ} {op : TACOp} {m : Machine σ} {left fuel : Nat} {s : LoopState σ}
  {path : List (Activation σ)}

theorem Executes.innermost_buffer (h : Executes host op m left fuel s path) {a : Activation σ}
    (ha : path.getLast? = some a) : bufferLength m = some a.dests.length := by
  induction h with
  | now hpc hb => cases ha
  | later hpc hr h ih => exact ih ha
  | @inside fuel s m0 m1 ctx dests path hpc hb he h ih =>
    cases path with
    | nil =>
      cases ha
      rw [h.own_bufferLength rfl]
      exact (enterPrivate_ctx he).2
    | cons b path =>
      apply ih
      rw [List.getLast?_cons_cons] at ha
      exact ha

theorem execReturnprivate_of_more (hbuf : bufferLength m = some n) (hmore : n < (returned m).length)
    : ∃ q m', execReturnprivate m = .error (.panic q m') := by
  obtain ⟨buffer, hbuffer, rfl⟩ := Option.map_eq_some_iff.mp hbuf
  cases hx : execReturnprivate m with
  | error stop =>
    obtain ⟨q, m', rfl⟩ := panics_execReturnprivate m stop hx
    exact ⟨q, m', rfl⟩
  | ok r =>
    obtain ⟨ret, m'⟩ := r
    obtain ⟨-, -, hle, -⟩ := execReturnprivate_inv hbuffer hx
    omega

end

section
variable {δ : Type}

def CallsSound (ast : AstProgram) (host : Host (EvmState δ)) (p : RunningFrame δ) : Prop :=
  p.op = .CALLPRIVATE → ∀ s', Continues host p.left .CALLPRIVATE p.machine s' →
    ∃ f ∈ ast.functions, ∃ order, ∃ k : Nat, ∃ s,
      CodeOf p.prog f order p.machine.ctx.function ∧ p.machine.pc = k ∧ CallAt order k s ∧
      SoundCall host p.left k s p.machine s'

/-- Values without destinations are always noticed.  Where a call goes on depends on its
arguments, and if every executed instruction has what it needs all calls are sound. -/
theorem arities_noticed {ast' : AstProgram} (hpatch : patchProgram ast = .ok ast') {w : World δ}
    {host : Host (EvmState δ)} {p : RunningFrame δ} (hprog : transformProgram ast = .ok p.prog)
    (hhost : CallReturns (RunsProg p.prog) host) (hp : p.Reached w host fuel) :
    (p.op = .RETURNPRIVATE → ∀ a, p.path.getLast? = some a →
      a.dests.length < (returned p.machine).length →
      ∀ ret gas e, runTac w host fuel p.req p.before = .ok ((ret, gas), e) →
        ret = ([], some .tacPanic) ∨ ret = ([], some .tacTimeout)) ∧
    (∀ (f : AstFunction) (order : List AstBlock) (tf callee : TACFunction)
      (m : Machine (EvmState δ)) (k left : Nat) (s : AstStatement) (s' : LoopState (EvmState δ)),
      Within p.prog f order tf m → m.pc = k → CallAt order k s →
      p.prog.functions[calleeOf p.prog.functionEncoding s]? = some callee →
      Continues host left .CALLPRIVATE m s' →
      (s'.machine.pc = ((k + (stmtItem s).size : Nat) : Int) ↔
        callee.args.length = passedArgs s)) ∧
    (RunFits ast' p.prog host fuel (startLoop p.ctx p.start) → CallsSound ast' host p) := by
  refine ⟨?_, ?_, ?_⟩
  · intro hop a ha hmore ret gas e hrun
    have hx := hp.executes
    rw [hop] at hx
    obtain ⟨q, m', hpanic⟩ := execReturnprivate_of_more (hx.innermost_buffer ha) hmore
    obtain ⟨m2, heq⟩ := hx.panic_leaves hpanic
    exact hp.run_panic heq hrun
  · intro f order tf callee m k left s s' hin hk hs hcallee hcont
    exact hs.behind_iff hin hk hcallee hcont
  · intro hfits hop s' hcont
    have hrunning : Running p.machine.engine := hp.executes.running hp.running_start
    obtain ⟨⟨f, hf, order, tf, hin⟩, -⟩ :=
      hp.executes.located hpatch hprog hfits.argsFit hhost (hp.located_start hpatch hprog)
    have hx := hp.executes
    rw [hop] at hx
    obtain ⟨k, hk, s, hcall⟩ := hin.callAt hx.machine_pc_lt hx.fetches
    have hsound := hcall.sound hpatch hprog hf hin hk (hfits _ _ _ _ hx)
      (fun ctx dests m1 he op m left path h => hfits op m left _ (hx.enter he h)) hhost hrunning
      hcont
    obtain rfl := hin.function
    exact ⟨f, hf, order, k, s, hin.code, hk, hcall, hsound⟩

end

/-- The instructions a run executes, in private calls as well. -/
def visited (host : Host σ) : Nat → LoopState σ → List (TACOp × Machine σ)
  | 0, _ => []
  | fuel + 1, s =>
    if s.machine.pc < s.machine.ctx.function.insts.length then
      match begun host s with
      | none => []
      | some (op, m) =>
        (op, m) ::
          ((if op = .CALLPRIVATE then match enterPrivate m with
            | .ok ((ctx, _), m1) => visited host fuel (startLoop ctx m1.engine)
            | .error _ => []
          else []) ++
          match round host (executeFunc host fuel) s with
          | .ok (.next s') => visited host fuel s'
          | _ => [])
    else []

theorem Executes.mem_visited {left : Nat} {path : List (Activation σ)}
    (h : Executes host op m left fuel s path) :
    (op, m) ∈ visited host fuel s := by
  induction h with
  | now hpc hb =>
    rw [visited, if_pos hpc, begun_eq_some.mpr hb]
    exact List.mem_cons_self
  | @later fuel s s' path hpc hr h ih =>
    obtain ⟨op', m', hb⟩ := round_next_begins hr
    rw [visited, if_pos hpc, begun_eq_some.mpr hb, hr]
    exact List.mem_cons_of_mem _ (List.mem_append_right _ ih)
  | inside hpc hb he h ih =>
    rw [visited, if_pos hpc, begun_eq_some.mpr hb]
    dsimp only
    rw [if_pos rfl, he]
    exact List.mem_cons_of_mem _ (List.mem_append_left _ ih)

def checkStep (op : TACOp) (m : Machine σ) : Bool :=
  (op ≠ .RETURNPRIVATE || (bufferLength m).all (· ≤ (returned m).length)) &&
    (op ≠ .CALLPRIVATE || (calleeAt m).all (·.insts ≠ [])) &&
    (closes op || nextPc m op ≠ m.ctx.function.insts.length)

theorem runFits_of_check {prog : TACProgram} (hargs : ProgramFits ast prog)
    (h : ((visited host fuel s).all fun q => checkStep q.1 q.2) = true) :
    RunFits ast prog host fuel s := by
  intro op m left path hx
  have hstep := List.all_eq_true.mp h _ hx.mem_visited
  simp only [checkStep, Bool.and_eq_true, Bool.or_eq_true, decide_eq_true_eq, ne_eq] at hstep
  obtain ⟨⟨hvalues, hcode⟩, hstays⟩ := hstep
  refine ⟨hargs.argsFit host fuel s op m left path hx, fun hop n hn => ?_,
    fun hop _ callee hcallee => ?_, fun n _ hoff => ?_⟩
  · have hall := hvalues.resolve_left (not_not_intro hop)
    rw [hn] at hall
    exact of_decide_eq_true hall
  · have hall := hcode.resolve_left (not_not_intro hop)
    rw [hcallee] at hall
    exact of_decide_eq_true hall
  · rcases hstays with hclosed | hne
    · rw [hoff.2.1] at hclosed
      cases hclosed
    · exact hne hoff.1

def arityTrial (ast : AstProgram) : Option Bool := do
  let prog ← (transformProgram ast).toOption
  let entry ← prog.entry
  let ctx ← (newContext entry none).toOption
  return (visited (procHost prog) 9 (startLoop ctx (procStart prog))).all fun q =>
    checkStep q.1 q.2

theorem runFits_of_trial {ast' : AstProgram} {p : RunningFrame Unit} {dests : List Int}
    {vs : List Word} {s' : LoopState (EvmState Unit)} (h : arityTrial ast = some true)
    (hprog : transformProgram ast = .ok p.prog) (hcall : FirstCall p dests vs s')
    (hargs : ProgramFits ast' p.prog) :
    RunFits ast' p.prog (procHost p.prog) 9 (startLoop p.ctx p.start) := by
  unfold arityTrial at h
  rw [hprog] at h
  obtain ⟨prog, hsome, h⟩ := Option.bind_eq_some_iff.mp h
  cases hsome
  obtain ⟨entry, hentry, h⟩ := Option.bind_eq_some_iff.mp h
  cases hcall.reached.entry.symm.trans hentry
  rw [hcall.reached.ctx, ← hcall.start] at h
  exact runFits_of_check hargs (Option.some.inj h)

theorem arities_noticed_pair :
    ∃ ast ast' p s', patchProgram ast = .ok ast' ∧ transformProgram ast = .ok p.prog ∧
      FirstCall p [0, 1] [1, 2] s' ∧
      RunFits ast' p.prog (procHost p.prog) 9 (startLoop p.ctx p.start) ∧
      CallsSound ast' (procHost p.prog) p := by
  obtain ⟨ast', p, s', hpatch, hprog, hfits, hcall, -, -⟩ := trial_spec
    (show trial (returnsProgram [plainVar "v1", plainVar "v2"] []
      [constVar "v5" "0x1", constVar "v6" "0x2"]) = some (true, [0, 1], [1, 2], [1, 2], 6) by
        decide +kernel)
  have hrun := runFits_of_trial (by decide +kernel) hprog hcall (programFits_of_check hfits)
  exact ⟨_, ast', p, s', hpatch, hprog, hcall, hrun,
    (arities_noticed hpatch hprog (procHost_runsProg p.prog) hcall.reached).2.2 hrun⟩

/-- Two calls that go on.  The first callee returns nothing, and the destination is 0.  The
second call passes an argument to a function without parameters, and goes on at its last operand. -/
theorem arity_mismatches_unnoticed :
    (∃ ast' p s', patchProgram (returnsProgram [plainVar "v1"] [] []) = .ok ast' ∧
      transformProgram (returnsProgram [plainVar "v1"] [] []) = .ok p.prog ∧
      FirstCall p [0] [] s' ∧ s'.machine.val 0 = 0) ∧
    ∃ ast' p s', patchProgram (returnsProgram [plainVar "v1"] [constVar "v7" "0x3"]
        [constVar "v5" "0x1"]) = .ok ast' ∧
      transformProgram (returnsProgram [plainVar "v1"] [constVar "v7" "0x3"]
        [constVar "v5" "0x1"]) = .ok p.prog ∧
      checkFits ast' p.prog = false ∧ FirstCall p [0] [1] s' ∧ s'.machine.pc = 5 := by
  constructor
  · obtain ⟨ast', p, s', hpatch, hprog, -, hcall, hafter, -⟩ := trial_spec
      (show trial (returnsProgram [plainVar "v1"] [] []) = some (true, [0], [], [0], 5) by
        decide +kernel)
    exact ⟨ast', p, s', hpatch, hprog, hcall, (List.cons.inj hafter).1⟩
  · obtain ⟨ast', p, s', hpatch, hprog, hfits, hcall, -, hpc⟩ := trial_spec
      (show trial (returnsProgram [plainVar "v1"] [constVar "v7" "0x3"] [constVar "v5" "0x1"])
        = some (false, [0], [1], [1], 5) by decide +kernel)
    exact ⟨ast', p, s', hpatch, hprog, hfits, hcall, hpc⟩

end EtherVal.Vm
