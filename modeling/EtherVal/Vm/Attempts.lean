import EtherVal.Vm.Executes
import EtherVal.Vm.MemoryExec
import EtherVal.Vm.OwnEvents

/-!
# What a run of the interpreter attempts
-/

namespace EtherVal.Vm
open EtherVal.Lib EtherVal.TacParser Exec

variable {σ : Type}

def sstoreArgs : Exec σ SstoreEntry := do
  let loc ← operand 1
  let value ← operand 2
  let l ← val loc
  let v ← val value
  return ⟨(← getFrame).contract.address, l, v⟩

def sstoreUse (host : Host σ) (entry : SstoreEntry) : Exec σ Ret := do
  onState fun s => ((), host.setState entry.address entry.loc entry.val s)
  advance 3
  checkDeviation "SSTORE" (sstoreDeviates entry)
  modifyDelta fun d => { d with substrateTrace := { d.substrateTrace with
    sstoreTrace := d.substrateTrace.sstoreTrace ++ [entry],
    sstoreCount := d.substrateTrace.sstoreCount + 1 } }
  done

theorem execSstore_eq_args (host : Host σ) : execSstore host = sstoreArgs >>= sstoreUse host := by
  unfold execSstore sstoreArgs
  simp only [bind_assoc, pure_bind]
  rfl

def logArgs (size : Nat) : Exec σ (Except VmError EVMEventTrace) := do
  let offset ← operand 1
  let length ← operand 2
  advance 3
  let topics ← operandValues 0 size
  match ← memoryRange offset length with
  | .error e => return .error e
  | .ok data => return .ok ⟨topics, data⟩

def orFail {α : Type} (use : α → Exec σ Ret) : Except VmError α → Exec σ Ret
  | .error e => fail e
  | .ok a => use a

theorem makeTACLog_eq_args (host : Host σ) (size : Nat) :
    makeTACLog host size =
      logArgs size >>= orFail fun event => logUse host event.topics size event.data := by
  unfold makeTACLog logArgs
  simp only [bind_assoc]
  refine bind_congr fun offset => bind_congr fun length => bind_congr fun _ =>
    bind_congr fun topics => bind_congr fun range => ?_
  cases range <;> rfl

def sha3Args : Exec σ (Except VmError (Nat × Bytes)) := do
  let d ← operand 1
  let offset ← operand 2
  let length ← operand 3
  match ← memoryRange offset length with
  | .error e => return .error e
  | .ok data => return .ok (d, data)

theorem execSha3_eq_args (host : Host σ) :
    execSha3 host = sha3Args >>= orFail fun q => sha3Use host q.1 q.2 := by
  unfold execSha3 sha3Args
  simp only [bind_assoc]
  refine bind_congr fun d => bind_congr fun offset => bind_congr fun length =>
    bind_congr fun range => ?_
  cases range <;> rfl

def callUse (kind : CallKind) (host : Host σ) (q : Address × CallSite σ) : Exec σ Ret := do
  checkDeviation kind.name (callDeviates q.1)
  let res ← external host q.2.call
  q.2.resume res

theorem execCallKind_eq_args (kind : CallKind) (host : Host σ) :
    execCallKind kind host = callArgs kind host >>= orFail (callUse kind host) := by
  rw [execCallKind_eq, askCall, bind_assoc]
  refine bind_congr fun r => ?_
  cases r with
  | error e => rfl
  | ok q =>
    unfold asked
    rw [bind_assoc]
    rfl

def attemptOf {ε α : Type} (g : α → OwnEvent) :
    Except (Stop σ) (Except ε α × Machine σ) → List OwnEvent
  | .ok (.ok a, _) => [g a]
  | _ => []

def attemptCreate (host : Host σ) :
    Except (Stop σ) (Except Ret (CallSite σ) × Machine σ) → List OwnEvent
  | .ok (.ok site, m) =>
    match host.external site.call m.engine with
    | .ok (res, _) => [.create res.addr]
    | .error _ => []
  | _ => []

/-- The events an instruction attempts itself; the address of a new contract is known when it
has been created. -/
def attempt (host : Host σ) (op : TACOp) (m : Machine σ) : List OwnEvent :=
  match op with
  | .SSTORE =>
    match sstoreArgs m with
    | .ok (entry, _) => [.sstore entry]
    | .error _ => []
  | .LOG0 => attemptOf .log (logArgs 0 m)
  | .LOG1 => attemptOf .log (logArgs 1 m)
  | .LOG2 => attemptOf .log (logArgs 2 m)
  | .LOG3 => attemptOf .log (logArgs 3 m)
  | .LOG4 => attemptOf .log (logArgs 4 m)
  | .SHA3 => attemptOf (fun q => .sha3 (host.keccak256 q.2)) (sha3Args m)
  | .CALL => attemptOf (fun q => .call q.1) (callArgs .call host m)
  | .CALLCODE => attemptOf (fun q => .call q.1) (callArgs .callcode host m)
  | .DELEGATECALL => attemptOf (fun q => .call q.1) (callArgs .delegatecall host m)
  | .STATICCALL => attemptOf (fun q => .call q.1) (callArgs .staticcall host m)
  | .CREATE => attemptCreate host (askCreate false m)
  | .CREATE2 => attemptCreate host (askCreate true m)
  | _ => []

def attempts (host : Host σ) : Nat → LoopState σ → List OwnEvent
  | 0, _ => []
  | fuel + 1, s =>
    if s.machine.pc < s.machine.ctx.function.insts.length then
      match begun host s with
      | none => []
      | some (op, m) =>
        let inside :=
          if op = .CALLPRIVATE then
            match enterPrivate m with
            | .ok ((ctx, _), m1) => attempts host fuel (startLoop ctx m1.engine)
            | .error _ => []
          else attempt host op m
        let later :=
          match round host (executeFunc host fuel) s with
          | .ok (.next s') => attempts host fuel s'
          | _ => []
        inside ++ later
    else []

end EtherVal.Vm
