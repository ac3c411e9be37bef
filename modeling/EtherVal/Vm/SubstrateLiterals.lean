import EtherVal.TacParser.Transformer
import EtherVal.Vm.SubstrateStorage

/-!
# Integer literals and types of Substrate programs
(`substrate_act.go:819-861`, `1661-1684`, `1795-1825`, `substrate_interpreter.go:790-805`)
-/

namespace EtherVal.Vm
open EtherVal.Lib

variable {digits : GoString}

/-- `strconv.Atoi` of a text without a sign, with the number that comes with an error. -/
def atoi (s : GoString) : Nat × Option GoString.NumError :=
  if s.isEmpty || s.any (!·.isDigit) then (0, some .syntaxError)
  else if Nat.ofDigitChars 10 s 0 < 2 ^ 63 then (Nat.ofDigitChars 10 s 0, none)
  else (2 ^ 63 - 1, some .range)

/-- `ActPrimary` for `TypeNUM`; the error of `strconv.ParseUint` is dropped. -/
def numLiteral (val : GoString) : Word :=
  match GoString.parseUint val with
  | .ok u => BitVec.ofNat 256 u.toNat
  | .error .syntaxError => 0
  | .error .range => BitVec.ofNat 256 (2 ^ 64 - 1)

/-- `getUint256` for a `ValueHex`, which `ActPrimary` makes of a literal of at most 68 characters;
`uint256.FromHex` gets `0x` and the digits. -/
def hexLiteral (depth : Nat) (val : GoString) : Except GoPanic Word :=
  let trimmed := (val.drop 2).dropWhile (· = '0')
  -- the bare text `0x` is not changed by the trimming and stays without a digit
  let digits := if trimmed = [] ∧ val.drop 2 ≠ [] then ['0'] else trimmed
  match TacParser.fromHex digits with
  | some u => .ok u
  | none => .error (substratePanic depth ("Wrong type info of hex digit ".toList ++
      if digits = [] then "hex string \"0x\"".toList
      else if 64 < digits.length then "hex number > 256 bits".toList
      else "invalid hex string".toList))

def checkedAtoi (depth : Nat) (s : GoString) : Except GoPanic Nat :=
  match atoi s with
  | (n, none) => .ok n
  | (_, some .syntaxError) =>
    .error (substratePanic depth ("strconv.Atoi: parsing \"".toList ++ s ++
      "\": invalid syntax".toList))
  | (_, some .range) =>
    .error (substratePanic depth ("strconv.Atoi: parsing \"".toList ++ s ++
      "\": value out of range".toList))

/-- `ActCastExpression` on the word of its operand. -/
def castExpression (depth : Nat) (typeName : GoString) (x : Word) : Except GoPanic Word :=
  let bytes := Uint256.bytes32 x
  if typeName = "bool".toList then .ok (Uint256.setBytes bytes)
  else if "uint".toList <:+: typeName then do
    let bitLen ← checkedAtoi depth (typeName.drop 4)
    return Uint256.setBytes (← slice bytes (32 - (bitLen / 8 : Nat)) 32)
  else if "int".toList <:+: typeName then do
    let bitLen ← checkedAtoi depth (typeName.drop 3)
    return Uint256.setBytes (← slice bytes (32 - (bitLen / 8 : Nat)) 32)
  else if "bytes".toList <:+: typeName ∧ 5 < typeName.length then do
    let byteLen ← checkedAtoi depth (typeName.drop 5)
    return Uint256.setBytes ((← slice bytes 0 byteLen) ++ List.replicate (32 - byteLen) 0)
  else if typeName = "address".toList then return Uint256.setBytes (← slice bytes 12 32)
  else .error (substratePanic depth ("Not implemented Cast Expression ".toList ++ typeName))

/-- `uint(n - 1)` for an `int` that is not negative. -/
def uintPred (n : Nat) : Nat := (n + (2 ^ 64 - 1)) % 2 ^ 64

def typeMax (depth : Nat) (inttype : GoString) : Except GoPanic Word :=
  if inttype.length < 4 then .error .indexOutOfRange
  else if inttype.take 4 = "uint".toList then
    .ok (Uint256.lsh 1 (atoi (inttype.drop 4)).1 - 1)
  else if inttype.take 3 = "int".toList then
    .ok (Uint256.lsh 1 (uintPred (atoi (inttype.drop 3)).1) - 1)
  else .error (substratePanic depth ("Unknown type for max ".toList ++ inttype))

def typeMin (depth : Nat) (inttype : GoString) : Except GoPanic Word :=
  if inttype.length < 3 then .error .indexOutOfRange
  else if inttype.take 3 ≠ "int".toList then
    .error (substratePanic depth ("Unknown type for min ".toList ++ inttype))
  else .ok (Uint256.lsh 1 (uintPred (atoi (inttype.drop 3)).1))

/-- The width of `intN` and `uintN`: `8 * (k + 1)` bits. -/
abbrev IntWidth := Fin 32

def IntWidth.bits (k : IntWidth) : Nat := 8 * (k + 1)

def hexValue (digits : GoString) : Nat :=
  digits.foldl (fun acc c => acc * 16 + (TacParser.hexDigit c).getD 0) 0

/-- Literals, casts of a word and limits of types. -/
inductive IntForm where
  | decimal (digits : GoString) (nonempty : digits ≠ []) (isDigit : ∀ c ∈ digits, c.isDigit = true)
      (bound : Nat.ofDigitChars 10 digits 0 < 2 ^ 256)
  | hex (digits : GoString) (nonempty : digits ≠ [])
      (isHexDigit : ∀ c ∈ digits, (TacParser.hexDigit c).isSome = true)
      (length_le : digits.length ≤ 64)
  | uintCast (k : IntWidth) (x : Word)
  | intCast (k : IntWidth) (x : Word)
  | intMax (k : IntWidth)
  | intMin (k : IntWidth)

namespace IntForm

def eval (depth : Nat) : IntForm → Except GoPanic Word
  | decimal digits _ _ _ => .ok (numLiteral digits)
  | hex digits _ _ _ => hexLiteral depth (['0', 'x'] ++ digits)
  | uintCast k x => castExpression depth ("uint".toList ++ GoString.itoa k.bits) x
  | intCast k x => castExpression depth ("int".toList ++ GoString.itoa k.bits) x
  | intMax k => typeMax depth ("int".toList ++ GoString.itoa k.bits)
  | intMin k => typeMin depth ("int".toList ++ GoString.itoa k.bits)

def denoted : IntForm → Word
  | decimal digits _ _ _ => BitVec.ofNat 256 (Nat.ofDigitChars 10 digits 0)
  | hex digits _ _ _ => BitVec.ofNat 256 (hexValue digits)
  | uintCast k x => BitVec.ofNat 256 (x.toNat % 2 ^ k.bits)
  | intCast k x => (x.setWidth k.bits).signExtend 256
  | intMax k => BitVec.ofInt 256 (2 ^ (k.bits - 1) - 1)
  | intMin k => BitVec.ofInt 256 (-2 ^ (k.bits - 1))

def Exact : IntForm → Prop
  | decimal digits _ _ _ => Nat.ofDigitChars 10 digits 0 < 2 ^ 64
  | intCast k x => k = 31 ∨ x.getLsbD (k.bits - 1) = false
  | intMin k => k = 31
  | _ => True

end IntForm

theorem numLiteral_eq_iff (hne : digits ≠ []) (hdigits : ∀ c ∈ digits, c.isDigit = true)
    (hbound : Nat.ofDigitChars 10 digits 0 < 2 ^ 256) :
    numLiteral digits = BitVec.ofNat 256 (Nat.ofDigitChars 10 digits 0) ↔
      Nat.ofDigitChars 10 digits 0 < 2 ^ 64 := by
  unfold numLiteral
  rw [GoString.parseUint_of_digits hne hdigits]
  generalize Nat.ofDigitChars 10 digits 0 = n at hbound ⊢
  by_cases hlt : n < 2 ^ 64
  · rw [if_pos hlt]
    simp only [hlt, UInt64.toNat_ofNat', Nat.mod_eq_of_lt hlt]
  · rw [if_neg hlt]
    simp only [hlt, iff_false]
    intro h
    have hval := congrArg BitVec.toNat h
    rw [BitVec.toNat_ofNat, BitVec.toNat_ofNat, Nat.mod_eq_of_lt hbound] at hval
    omega

theorem mapM_hexDigit (h : ∀ c ∈ digits, (TacParser.hexDigit c).isSome = true) :
    digits.mapM TacParser.hexDigit = some (digits.map fun c => (TacParser.hexDigit c).getD 0) := by
  induction digits with
  | nil => rfl
  | cons c digits ih =>
    obtain ⟨d, hd⟩ := Option.isSome_iff_exists.mp (h c List.mem_cons_self)
    rw [List.mapM_cons, ih fun c hc => h c (List.mem_cons_of_mem _ hc), List.map_cons, hd]
    rfl

theorem hexValue_dropZeros (digits : GoString) :
    hexValue (digits.dropWhile (· = '0')) = hexValue digits := by
  induction digits with
  | nil => rfl
  | cons c digits ih =>
    by_cases hc : c = '0'
    · subst hc
      exact ih
    · rw [List.dropWhile_cons_of_neg (by simpa using hc)]

theorem fromHex_of_digits (hne : digits ≠ [])
    (hhex : ∀ c ∈ digits, (TacParser.hexDigit c).isSome = true) (hlen : digits.length ≤ 64)
    (hhead : digits.head? = some '0' → digits.length ≤ 1) :
    TacParser.fromHex digits = some (BitVec.ofNat 256 (hexValue digits)) := by
  have hcheck : ¬ (digits.isEmpty || (1 < digits.length && digits.head? = some '0') ||
      64 < digits.length) = true := by
    simp only [List.isEmpty_iff, Bool.or_eq_true, Bool.and_eq_true, decide_eq_true_eq]
    rintro ((hnil | ⟨hone, hzero⟩) | hlong)
    · exact hne hnil
    · exact absurd (hhead hzero) (by omega)
    · omega
  unfold TacParser.fromHex
  rw [if_neg hcheck, mapM_hexDigit hhex]
  exact congrArg (fun n => some (BitVec.ofNat 256 n)) List.foldl_map

theorem hexLiteral_eq (depth : Nat) (hne : digits ≠ [])
    (hhex : ∀ c ∈ digits, (TacParser.hexDigit c).isSome = true)
    (hlen : digits.length ≤ 64) :
    hexLiteral depth (['0', 'x'] ++ digits) = .ok (BitVec.ofNat 256 (hexValue digits)) := by
  have hsuffix := List.dropWhile_suffix (l := digits) (· = '0')
  have hvalue := hexValue_dropZeros digits
  unfold hexLiteral
  change (match TacParser.fromHex (if digits.dropWhile (· = '0') = [] ∧ digits ≠ [] then ['0']
    else digits.dropWhile (· = '0')) with | some u => _ | none => _) = _
  by_cases hzero : digits.dropWhile (· = '0') = []
  · rw [hzero] at hvalue
    rw [if_pos ⟨hzero, hne⟩, ← hvalue]
    rfl
  · rw [if_neg fun h => hzero h.1, fromHex_of_digits hzero (fun c hc => hhex c (hsuffix.subset hc))
      (hsuffix.length_le.trans hlen) ?_, hvalue]
    intro hhead
    have := List.head?_dropWhile_not (· = '0') digits
    simp [hhead] at this

theorem slice_low (x : Word) (k : IntWidth) :
    slice (Uint256.bytes32 x) (32 - (k.bits / 8 : Nat)) 32 = .ok (beBytes (k + 1) x.toNat) := by
  have hk := k.isLt
  have hbits : k.bits / 8 = k + 1 := by unfold IntWidth.bits; omega
  have hslice := slice_eq_readAt (b := Uint256.bytes32 x) (o := 32 - (k + 1)) (n := k + 1) (k := 32)
    (by omega) (length_bytes32 x).ge
  rw [readAt_bytes32_last x (by omega)] at hslice
  rw [hbits, ← hslice]
  congr 1
  omega

theorem setBytes_low (x : Word) (k : IntWidth) :
    Uint256.setBytes (beBytes (k + 1) x.toNat) = BitVec.ofNat 256 (x.toNat % 2 ^ k.bits) := by
  have hpow : 256 ^ (k.val + 1) = 2 ^ k.bits := Nat.pow_mul 2 8 (k + 1) ▸ rfl
  exact congrArg (BitVec.ofNat 256) (hpow ▸ beVal_beBytes_mod (k + 1) x.toNat)

theorem uintName : ∀ k : IntWidth, "uint".toList <:+: "uint".toList ++ GoString.itoa k.bits ∧
    "uint".toList ++ GoString.itoa k.bits ≠ "bool".toList ∧
    atoi (("uint".toList ++ GoString.itoa k.bits).drop 4) = (k.bits, none) := by
  decide +kernel

theorem intName : ∀ k : IntWidth, "int".toList <:+: "int".toList ++ GoString.itoa k.bits ∧
    ¬ "uint".toList <:+: "int".toList ++ GoString.itoa k.bits ∧
    "int".toList ++ GoString.itoa k.bits ≠ "bool".toList ∧
    ("int".toList ++ GoString.itoa k.bits).take 4 ≠ "uint".toList ∧
    ("int".toList ++ GoString.itoa k.bits).take 3 = "int".toList ∧
    3 < ("int".toList ++ GoString.itoa k.bits).length ∧
    atoi (("int".toList ++ GoString.itoa k.bits).drop 3) = (k.bits, none) := by
  decide +kernel

theorem castExpression_uint (depth : Nat) (k : IntWidth) (x : Word) :
    castExpression depth ("uint".toList ++ GoString.itoa k.bits) x =
      .ok (BitVec.ofNat 256 (x.toNat % 2 ^ k.bits)) := by
  obtain ⟨huint, hbool, hatoi⟩ := uintName k
  unfold castExpression checkedAtoi
  dsimp only
  rw [if_neg hbool, if_pos huint, hatoi]
  dsimp only [bind, Except.bind]
  rw [slice_low, ← setBytes_low]
  rfl

theorem castExpression_int (depth : Nat) (k : IntWidth) (x : Word) :
    castExpression depth ("int".toList ++ GoString.itoa k.bits) x =
      .ok (BitVec.ofNat 256 (x.toNat % 2 ^ k.bits)) := by
  obtain ⟨hint, huint, hbool, -, -, -, hatoi⟩ := intName k
  unfold castExpression checkedAtoi
  dsimp only
  rw [if_neg hbool, if_neg huint, if_pos hint, hatoi]
  dsimp only [bind, Except.bind]
  rw [slice_low, ← setBytes_low]
  rfl

theorem uintPred_bits (k : IntWidth) : uintPred k.bits = k.bits - 1 := by
  have hk := k.isLt
  unfold uintPred IntWidth.bits
  omega

theorem typeMax_int (depth : Nat) (k : IntWidth) :
    typeMax depth ("int".toList ++ GoString.itoa k.bits) =
      .ok (Uint256.lsh 1 (k.bits - 1) - 1) := by
  obtain ⟨-, -, -, huint, hint, hlen, hatoi⟩ := intName k
  unfold typeMax
  rw [if_neg (by omega), if_neg huint, if_pos hint, hatoi, uintPred_bits]

theorem typeMin_int (depth : Nat) (k : IntWidth) :
    typeMin depth ("int".toList ++ GoString.itoa k.bits) = .ok (Uint256.lsh 1 (k.bits - 1)) := by
  obtain ⟨-, -, -, -, hint, hlen, hatoi⟩ := intName k
  unfold typeMin
  rw [if_neg (by omega), if_neg (not_not.mpr hint), hatoi, uintPred_bits]

theorem max_eq : ∀ k : IntWidth,
    Uint256.lsh 1 (k.bits - 1) - 1 = BitVec.ofInt 256 (2 ^ (k.bits - 1) - 1) := by
  decide +kernel

theorem min_eq_iff : ∀ k : IntWidth,
    Uint256.lsh 1 (k.bits - 1) = BitVec.ofInt 256 (-2 ^ (k.bits - 1)) ↔ k = 31 := by
  decide +kernel

/-- Without its sign bit a narrow number is its own extension. -/
theorem low_eq_signExtend_iff (k : IntWidth) (x : Word) :
    BitVec.ofNat 256 (x.toNat % 2 ^ k.bits) = (x.setWidth k.bits).signExtend 256 ↔
      k = 31 ∨ x.getLsbD (k.bits - 1) = false := by
  have hk := k.isLt
  have hbits : k.bits = 8 * (k + 1) := rfl
  have hmsb : (x.setWidth k.bits).msb = x.getLsbD (k.bits - 1) := by
    rw [BitVec.msb_setWidth]
    simp [hbits]
  have hlow : BitVec.ofNat 256 (x.toNat % 2 ^ k.bits) = (x.setWidth k.bits).setWidth 256 := by
    rw [← BitVec.toNat_setWidth, BitVec.ofNat_toNat]
  rw [hlow, ← hmsb]
  by_cases hfull : k = 31
  · subst hfull
    simp [IntWidth.bits]
  cases hsign : (x.setWidth k.bits).msb with
  | false => simp [BitVec.signExtend_eq_setWidth_of_msb_false hsign]
  | true =>
    simp only [hfull, false_or, Bool.true_eq_false, iff_false]
    intro h
    have hk' : k.val ≠ 31 := fun h => hfull (Fin.ext h)
    have hwide : ¬ 255 < k.bits := by omega
    have htop := congrArg (·.getLsbD 255) h
    simp [BitVec.getElem_signExtend, hwide, hsign] at htop

theorem IntForm.eval_denoted_iff (depth : Nat) (e : IntForm) :
    e.eval depth = .ok e.denoted ↔ e.Exact := by
  cases e with
  | decimal digits hne hdigits hbound =>
    rw [eval, Except.ok.injEq]
    exact numLiteral_eq_iff hne hdigits hbound
  | hex digits hne hhex hlen => exact iff_true_intro (hexLiteral_eq depth hne hhex hlen)
  | uintCast k x => exact iff_true_intro (castExpression_uint depth k x)
  | intCast k x =>
    rw [eval, castExpression_int, Except.ok.injEq]
    exact low_eq_signExtend_iff k x
  | intMax k =>
    rw [eval, typeMax_int, max_eq]
    exact iff_true_intro rfl
  | intMin k =>
    rw [eval, typeMin_int, Except.ok.injEq]
    exact min_eq_iff k

/-- The literal `18446744073709551616`, the cast `int8(0x80)` and `int8.min`. -/
theorem narrow_ints_lost :
    numLiteral "18446744073709551616".toList = 18446744073709551615 ∧
      castExpression 0 "int8".toList 0x80 = .ok 0x80 ∧
      (BitVec.setWidth 8 (0x80 : Word)).signExtend 256 = -0x80 ∧
      typeMin 0 "int8".toList = .ok 0x80 ∧ BitVec.ofInt 256 (-2 ^ 7) = -0x80 := by
  decide +kernel

end EtherVal.Vm
