import EtherVal.TacParser.Parser

/-!
# Does the parser end?

Every loop of the parser reads a token in each round, except the one that collects the signature
of a function: at the end of the tokens `next` goes on returning `EOF`.
-/

namespace EtherVal.TacParser
open EtherVal.Lib Parse

variable {α : Type} {n bound : Nat}

def Ended {α : Type} (n bound : Nat) : Except ParseFailure (α × List Token) → Prop
  | .ok (_, toks') => toks'.length + n ≤ bound
  | .error e => e ≠ .diverges

theorem Ended.bind {β : Type} {m bound' : Nat} {r : Except ParseFailure (α × List Token)}
    {f : α × List Token → Except ParseFailure (β × List Token)} (hr : Ended n bound r)
    (hf : ∀ a toks, r = .ok (a, toks) → toks.length + n ≤ bound → Ended m bound' (f (a, toks))) :
    Ended m bound' (r >>= f) := by
  cases r with
  | error e => exact hr
  | ok p => exact hf p.1 p.2 rfl hr

theorem Ended.weaken {m bound' : Nat} {r : Except ParseFailure (α × List Token)}
    (h : Ended n bound r) (hle : bound + m ≤ bound' + n) : Ended m bound' r := by
  cases r with
  | error e => exact h
  | ok p =>
    have hp : p.2.length + n ≤ bound := h
    change p.2.length + m ≤ bound'
    omega

theorem Ended.ne_diverges {r : Except ParseFailure (α × List Token)} (h : Ended n bound r) :
    r ≠ .error .diverges := by
  rintro rfl
  exact h rfl

def Halts {α : Type} (x : Parse α) (n : Nat) : Prop := ∀ toks, Ended n toks.length (x toks)

namespace Halts
variable {α β : Type} {x : Parse α} {f : α → Parse β} {n m : Nat}

theorem pure (a : α) : Halts (Pure.pure a : Parse α) 0 := fun _ => Nat.le_refl _

theorem throw (p : GoPanic) : Halts (MonadExcept.throw (ParseFailure.panic p) : Parse α) n := by
  intro toks h
  cases h

theorem bind (hx : Halts x n) (hf : ∀ a, Halts (f a) m) : Halts (x >>= f) (n + m) := by
  intro toks
  refine (hx toks).bind fun a toks' _ hle => (hf a toks').weaken ?_
  omega

theorem ite {c : Prop} [Decidable c] {y : Parse α} (hx : Halts x n) (hy : Halts y n) :
    Halts (if c then x else y) n := by
  split
  · exact hx
  · exact hy

theorem first (hx : Halts x 1) (hf : ∀ a, Halts (f a) 0) : Halts (x >>= f) 1 := hx.bind hf

theorem seq (hx : Halts x 0) (hf : ∀ a, Halts (f a) n) : Halts (x >>= f) n := by
  have h := hx.bind hf
  rwa [Nat.zero_add] at h

theorem some (hx : Halts x 1) : Halts x 0 := fun toks => (hx toks).weaken (by omega)

theorem next : Halts Parse.next 0 := by
  intro toks
  cases toks with
  | nil => exact Nat.le_refl _
  | cons tok rest => exact Nat.le_succ _

theorem peek : Halts Parse.peek 0 := fun _ => Nat.le_refl _

theorem expect (types : List TokenType) : Halts (Parse.expect types) 1 := by
  intro toks
  cases toks with
  | nil =>
    intro h
    cases h
  | cons tok rest =>
    change Ended 1 (rest.length + 1)
      ((if types.contains tok.typ = true then _ else _ : Parse Token) rest)
    split
    · exact Nat.le_refl _
    · intro h
      cases h

theorem liftGo (r : Except GoPanic α) : Halts (Parse.liftGo r) 0 := by
  cases r with
  | ok a => exact pure a
  | error p => exact throw p

theorem loopFrom {cond : Token → Bool → Bool} {body : α → Parse α}
    (hbody : ∀ acc, Halts (body acc) 1)
    (fuel : Nat) (acc : α) (toks : List Token) (hfuel : toks.length < fuel) :
    Ended 0 toks.length (Parse.loopFrom cond body fuel acc toks) := by
  induction fuel generalizing acc toks with
  | zero => exact absurd hfuel (Nat.not_lt_zero _)
  | succ fuel ih =>
    change Ended 0 toks.length ((if cond (toks.headD eofToken) (!toks.isEmpty) = true then
      (body acc >>= fun acc => Parse.loopFrom cond body fuel acc)
      else Pure.pure acc : Parse α) toks)
    split
    · refine (hbody acc toks).bind fun acc' toks' _ hle => ?_
      exact (ih acc' toks' (by omega)).weaken (by omega)
    · exact Nat.le_refl _

theorem loopWhile {cond : Token → Bool → Bool} {body : α → Parse α}
    (hbody : ∀ acc, Halts (body acc) 1)
    (acc : α) : Halts (Parse.loopWhile cond body acc) 0 :=
  fun toks => loopFrom hbody (toks.length + 1) acc toks (Nat.lt_succ_self _)

end Halts

theorem halts_parseList (start stop : TokenType) (argTypes : List TokenType) :
    Halts (parseList start stop argTypes) 1 := by
  refine (Halts.expect _).first fun _ => ?_
  refine (Halts.loopWhile (fun acc => ?_) []).seq fun _ =>
    (Halts.expect _).some.seq fun _ => .pure _
  refine (Halts.expect _).first fun tok => Halts.peek.seq fun following => ?_
  exact .ite ((Halts.expect _).some.seq fun _ => .pure _) (.pure _)

theorem halts_parseVariable : Halts parseVariable 1 := by
  refine (Halts.expect _).first fun name => Halts.peek.seq fun tok => .ite ?_ (.pure _)
  exact (Halts.expect _).some.seq fun _ => (Halts.expect _).some.seq fun _ =>
    (Halts.expect _).some.seq fun _ => .pure _

theorem halts_parseOperation : Halts parseOperation 0 :=
  Halts.next.seq fun _ => .ite (.throw _) (.pure _)

theorem halts_parseArguments (args : List AstVariable) : Halts (parseArguments args) 0 := by
  refine halts_parseVariable.some.seq fun arg => .loopWhile (fun args => ?_) _
  exact (Halts.expect _).first fun _ => halts_parseVariable.some.seq fun _ => .pure _

theorem halts_parseAssignees : Halts parseAssignees 0 := by
  refine .loopWhile (fun args => .ite ?_ ?_) _
  · exact (Halts.expect _).first fun _ => halts_parseVariable.some.seq fun _ => .pure _
  · exact halts_parseVariable.first fun _ => .pure _

theorem halts_parseRightHandSide (assigned : Bool) (args : List AstVariable) :
    Halts (parseRightHandSide assigned args) 0 := by
  have hargs : ∀ operation : TokenType, Halts (do
      return (operation, ← parseArguments args) : Parse (TokenType × List AstVariable)) 0 :=
    fun operation => (halts_parseArguments args).seq fun _ => .pure _
  refine halts_parseOperation.seq fun op => .ite ?_ (.ite (.pure _) (hargs op.1))
  refine Halts.peek.seq fun tok => .ite ?_ (hargs op.1)
  exact (Halts.expect _).some.seq fun _ => (halts_parseArguments args).seq fun _ =>
    (Halts.expect _).some.seq fun _ => .pure _

theorem halts_parseStatement (blockName : GoString) : Halts (parseStatement blockName) 1 := by
  refine (Halts.expect _).first fun name => (Halts.liftGo _).seq fun address =>
    (Halts.expect _).some.seq fun _ => Halts.peek.seq fun tok => .ite ?_ ?_
  · exact halts_parseAssignees.seq fun _ => (Halts.expect _).some.seq fun _ =>
      (halts_parseRightHandSide _ _).seq fun _ => .pure _
  · exact (halts_parseRightHandSide _ _).seq fun _ => .pure _

theorem halts_parseBlock : Halts parseBlock 1 := by
  refine (Halts.expect _).first fun _ => (Halts.expect _).some.seq fun _ =>
    (Halts.expect _).some.seq fun name => (Halts.liftGo _).seq fun address =>
    (Halts.expect _).some.seq fun _ => (Halts.expect _).some.seq fun _ =>
    (halts_parseList _ _ _).some.seq fun _ => (Halts.expect _).some.seq fun _ =>
    (Halts.expect _).some.seq fun _ => (Halts.expect _).some.seq fun _ =>
    (halts_parseList _ _ _).some.seq fun _ => ?_
  refine (Halts.loopWhile (fun acc => ?_) _).seq fun _ => .pure _
  exact (halts_parseStatement _).first fun _ => .pure _

def closes : Nat → List Token → Bool
  | 0, _ => true
  | _ + 1, [] => false
  | level + 1, tok :: rest =>
    closes (match tok.typ with
      | .LEFT_PAREN => level + 2
      | .RIGHT_PAREN => level
      | _ => level + 1) rest

def hasSignature (name : GoString) : Bool :=
  !GoString.hasPrefix name "0x".toList && name ≠ "__function_selector__".toList

inductive OpenSignature : List Token → Prop
  | intro {function name paren : Token} {rest : List Token} (hfunction : function.typ = .FUNCTION)
      (hname : name.typ ∈ [TokenType.IDENT, .HEX_NUM] ++ keywords.map Prod.snd)
      (hsignature : hasSignature name.val = true) (hparen : paren.typ = .LEFT_PAREN)
      (hopen : closes 1 rest = false) : OpenSignature (function :: name :: paren :: rest)

theorem signatureLoop_go (level : Nat) (name : GoString) (toks : List Token) :
    (closes level toks = true → Ended 0 toks.length (signatureLoop.go level name toks)) ∧
      (closes level toks = false → signatureLoop.go level name toks = .error .diverges) := by
  induction toks generalizing level name with
  | nil =>
    cases level with
    | zero => exact ⟨fun _ => Nat.le_refl _, fun h => (nomatch h)⟩
    | succ level => exact ⟨fun h => (nomatch h), fun _ => rfl⟩
  | cons tok rest ih =>
    cases level with
    | zero => exact ⟨fun _ => Nat.le_refl _, fun h => nomatch h⟩
    | succ level =>
      unfold closes signatureLoop.go
      have hrest := ih (match tok.typ with
        | .LEFT_PAREN => level + 2
        | .RIGHT_PAREN => level
        | _ => level + 1) (name ++ tok.val)
      exact ⟨fun h => (hrest.1 h).weaken (Nat.le_succ _), hrest.2⟩

theorem expect_cons {types : List TokenType} {tok : Token} (rest : List Token)
    (h : types.contains tok.typ = true) : expect types (tok :: rest) = .ok (tok, rest) := by
  change (if types.contains tok.typ = true then _ else _ : Parse Token) rest = _
  rw [if_pos h]
  rfl

variable {toks : List Token}

theorem expect_inv {types : List TokenType} {rest : List Token} {tok : Token}
    (h : expect types toks = .ok (tok, rest)) : toks = tok :: rest ∧ tok.typ ∈ types := by
  cases toks with
  | nil => cases h
  | cons tok' rest' =>
    change (if types.contains tok'.typ = true then _ else _ : Parse Token) rest' = _ at h
    split at h
    · next htyp =>
      cases h
      exact ⟨rfl, List.contains_iff_mem.mp htyp⟩
    · cases h

theorem parseFunctionName_eq (token : Token) : parseFunctionName token =
    if hasSignature token.val = true then
      (expect [.LEFT_PAREN] >>= fun _ => signatureLoop 1 (token.val ++ "(".toList))
    else pure token.val := by
  unfold parseFunctionName hasSignature
  rfl

theorem halts_parseFunction_rest (name : GoString) : Halts (do
    let args ← parseList .LEFT_PAREN .RIGHT_PAREN [.IDENT]
    let visibility ← expect [.PUBLIC, .PRIVATE]
    let _ ← expect [.LEFT_BRAC]
    let blocks ← loopWhile (fun tok _ => tok.typ != .RIGHT_BRAC) (fun acc => do
      let block ← parseBlock
      return acc ++ [block]) []
    let _ ← expect [.RIGHT_BRAC]
    return { name, args, blocks, isPublic := visibility.typ = .PUBLIC } : Parse AstFunction) 0 := by
  refine (halts_parseList _ _ _).some.seq fun _ => (Halts.expect _).some.seq fun _ =>
    (Halts.expect _).some.seq fun _ => (Halts.loopWhile (fun acc => ?_) _).seq fun _ =>
    (Halts.expect _).some.seq fun _ => .pure _
  exact halts_parseBlock.first fun _ => .pure _

theorem ended_parseFunction (h : ¬ OpenSignature toks) :
    Ended 1 toks.length (parseFunction toks) := by
  refine (Halts.expect [.FUNCTION] toks).bind fun function toks₁ hfunction _ => ?_
  obtain ⟨rfl, hftyp⟩ := expect_inv hfunction
  refine (Halts.expect _ toks₁).bind fun name toks₂ hname _ => ?_
  obtain ⟨rfl, hntyp⟩ := expect_inv hname
  have hparsed : Ended 0 toks₂.length (parseFunctionName name toks₂) := by
    rw [parseFunctionName_eq]
    split
    · next hsignature =>
      refine (Halts.expect [.LEFT_PAREN] toks₂).bind fun paren toks₃ hparen hle => ?_
      obtain ⟨rfl, hptyp⟩ := expect_inv hparen
      cases hclosed : closes 1 toks₃ with
      | true => exact ((signatureLoop_go 1 _ toks₃).1 hclosed).weaken (by omega)
      | false =>
        exact absurd (OpenSignature.intro (List.mem_singleton.mp hftyp) hntyp hsignature
          (List.mem_singleton.mp hptyp) hclosed) h
    · exact Nat.le_refl _
  refine hparsed.bind fun name' toks₃ _ hle => (halts_parseFunction_rest name' toks₃).weaken ?_
  simp only [List.length_cons]
  omega

theorem parseFunction_open (h : OpenSignature toks) :
    parseFunction toks = .error .diverges := by
  obtain @⟨function, name, paren, rest, hfunction, hname, hsignature, hparen, hopen⟩ := h
  have hstep₁ : expect [.FUNCTION] (function :: name :: paren :: rest) =
      .ok (function, name :: paren :: rest) := expect_cons _ (by simp [hfunction])
  have hstep₂ : expect ([.IDENT, .HEX_NUM] ++ keywords.map Prod.snd) (name :: paren :: rest) =
      .ok (name, paren :: rest) := expect_cons _ (List.contains_iff_mem.mpr hname)
  have hstep₃ : parseFunctionName name (paren :: rest) = .error .diverges := by
    rw [parseFunctionName_eq, if_pos hsignature]
    change (expect [.LEFT_PAREN] (paren :: rest) >>= _) = _
    rw [expect_cons _ (by simp [hparen])]
    exact (signatureLoop_go 1 _ rest).2 hopen
  unfold parseFunction
  change (expect [.FUNCTION] (function :: name :: paren :: rest) >>= _) = _
  rw [hstep₁]
  change (expect ([.IDENT, .HEX_NUM] ++ keywords.map Prod.snd) (name :: paren :: rest) >>= _) = _
  rw [hstep₂]
  change (parseFunctionName name (paren :: rest) >>= _) = _
  rw [hstep₃]
  rfl

inductive FunctionsRead : List Token → List Token → Prop
  | nil (toks : List Token) : FunctionsRead toks toks
  | cons {f : AstFunction} {toks toks₁ toks₂ : List Token}
      (hf : parseFunction toks = .ok (f, toks₁))
      (hrest : FunctionsRead toks₁ toks₂) : FunctionsRead toks toks₂

def SignaturesClose (toks : List Token) : Prop :=
  ∀ toks', FunctionsRead toks toks' → ¬ OpenSignature toks'

abbrev functionLoop (fuel : Nat) (acc : List AstFunction) : Parse (List AstFunction) :=
  loopFrom (fun tok ok => ok && tok.typ = .FUNCTION) (fun acc => do
    let function ← parseFunction
    return acc ++ [function]) fuel acc

def startsFunction (toks : List Token) : Bool :=
  !toks.isEmpty && decide ((toks.headD eofToken).typ = .FUNCTION)

theorem functionLoop_succ (fuel : Nat) (acc : List AstFunction) (toks : List Token) :
    functionLoop (fuel + 1) acc toks =
      if startsFunction toks = true then
        parseFunction toks >>= fun r => functionLoop fuel (acc ++ [r.1]) r.2
      else .ok (acc, toks) := by
  change ((if startsFunction toks = true then
    ((parseFunction >>= fun function => pure (acc ++ [function])) >>= fun acc =>
      functionLoop fuel acc) else pure acc : Parse (List AstFunction)) toks) = _
  split
  · change ((parseFunction toks >>= fun r => _) >>= fun r => _) = _
    cases parseFunction toks with
    | error e => rfl
    | ok r => rfl
  · rfl

theorem startsFunction_of_open (h : OpenSignature toks) :
    startsFunction toks = true := by
  obtain @⟨function, name, paren, rest, hfunction, -, -, -, -⟩ := h
  simp [startsFunction, hfunction]

theorem startsFunction_of_ok {toks' : List Token} {f : AstFunction}
    (h : parseFunction toks = .ok (f, toks')) : startsFunction toks = true := by
  obtain ⟨⟨function, rest⟩, hexpect, -⟩ := bind_ok h
  obtain ⟨rfl, htyp⟩ := expect_inv hexpect
  simp [startsFunction, List.mem_singleton.mp htyp]

theorem ended_functionLoop {fuel : Nat} {acc : List AstFunction} (hfuel : toks.length < fuel)
    (h : SignaturesClose toks) :
    Ended 0 toks.length (functionLoop fuel acc toks) := by
  induction fuel generalizing acc toks with
  | zero => exact absurd hfuel (Nat.not_lt_zero _)
  | succ fuel ih =>
    rw [functionLoop_succ]
    split
    · refine (ended_parseFunction (h toks (.nil toks))).bind fun f toks₁ hf hle => ?_
      have hrest : SignaturesClose toks₁ := fun toks' hread => h toks' (.cons hf hread)
      exact (ih (by omega) hrest).weaken (by omega)
    · exact Nat.le_refl _

theorem functionLoop_open {fuel : Nat} {acc : List AstFunction} {toks' : List Token}
    (hfuel : toks.length < fuel) (hread : FunctionsRead toks toks') (hopen : OpenSignature toks') :
    functionLoop fuel acc toks = .error .diverges := by
  induction hread generalizing fuel acc with
  | nil toks =>
    obtain ⟨fuel, rfl⟩ := Nat.exists_eq_succ_of_ne_zero (Nat.ne_zero_of_lt hfuel)
    rw [functionLoop_succ, if_pos (startsFunction_of_open hopen), parseFunction_open hopen]
    rfl
  | @cons f toks toks₁ toks₂ hf hrest ih =>
    obtain ⟨fuel, rfl⟩ := Nat.exists_eq_succ_of_ne_zero (Nat.ne_zero_of_lt hfuel)
    have hclosed : ¬ OpenSignature toks := by
      intro h
      rw [parseFunction_open h] at hf
      cases hf
    have hshorter : toks₁.length + 1 ≤ toks.length := by
      have h := ended_parseFunction hclosed
      rw [hf] at h
      exact h
    rw [functionLoop_succ, if_pos (startsFunction_of_ok hf), hf]
    exact ih (by omega) hopen

theorem parseProgram_diverges_iff (input : GoString) :
    parseProgram input = .error .diverges ↔
      functionLoop ((lex input).length + 1) [] (lex input) = .error .diverges := by
  have hprogram : parseProgramTokens (lex input) =
      (functionLoop ((lex input).length + 1) [] (lex input) >>= fun r =>
        (peek >>= fun p => if p.2 = true then
            panicWith ("Program is not exhausted! Got ".toList ++ p.1.string)
          else pure { functions := r.1 } : Parse AstProgram) r.2) := rfl
  unfold parseProgram
  rw [hprogram]
  cases functionLoop ((lex input).length + 1) [] (lex input) with
  | error e =>
    constructor
    · intro h
      exact congrArg _ (Except.error.inj h)
    · intro h
      obtain rfl := Except.error.inj h
      rfl
  | ok r =>
    obtain ⟨functions, toks⟩ := r
    refine ⟨fun h => ?_, fun h => nomatch h⟩
    cases toks with
    | nil => cases h
    | cons tok toks => cases h

/-- Lexing ends after at most one round for each byte; parsing ends unless it meets a function whose
signature is not closed. -/
theorem parseProgram_ends_iff (input : GoString) :
    (∀ rounds, input.length < rounds → Lexer.run rounds { rest := input } = lex input) ∧
      (parseProgram input ≠ .error .diverges ↔ SignaturesClose (lex input)) := by
  refine ⟨fun rounds h => Lexer.run_fuel rounds _ h, ?_⟩
  rw [ne_eq, parseProgram_diverges_iff]
  constructor
  · intro h toks' hread hopen
    exact h (functionLoop_open (Nat.lt_succ_self _) hread hopen)
  · intro h
    exact (ended_functionLoop (Nat.lt_succ_self _) h).ne_diverges

/-- The signature of `f` is never closed. -/
theorem parseProgram_unclosed_diverges :
    parseProgram "function f(".toList = .error .diverges := by decide +kernel

end EtherVal.TacParser
