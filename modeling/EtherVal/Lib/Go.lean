import Mathlib.Tactic

/-!
# Go strings and panics

A Go string is a sequence of bytes; each byte is written as the character of that code.
-/

namespace EtherVal.Lib

variable {α β ε : Type}

abbrev GoString := List Char

instance lawfulBEqGoString : LawfulBEq GoString := inferInstance

inductive GoPanic where
  | text (msg : GoString)
  | indexOutOfRange
  | nilDereference
  deriving DecidableEq, Repr, Inhabited

theorem bind_ok_iff {x : Except ε α} {f : α → Except ε β} {b : β} :
    (x >>= f) = .ok b ↔ ∃ a, x = .ok a ∧ f a = .ok b := by
  cases x with
  | error e =>
    constructor
    · intro h
      cases h
    · rintro ⟨a, h, -⟩
      cases h
  | ok a =>
    constructor
    · intro h
      exact ⟨a, rfl, h⟩
    · rintro ⟨a', h, hf⟩
      cases h
      exact hf

theorem bind_ok {x : Except ε α} {f : α → Except ε β} {b : β} (h : (x >>= f) = .ok b) :
    ∃ a, x = .ok a ∧ f a = .ok b :=
  bind_ok_iff.mp h

theorem toOption_map {x : Except ε α} {f : α → β} {b : β} (h : x.toOption.map f = some b) :
    ∃ a, x = .ok a ∧ f a = b := by
  cases x with
  | error e => cases h
  | ok a => exact ⟨a, rfl, Option.some.inj h⟩

theorem mapM_eq_ok {g : α → Except ε β} {l : List α} {l' : List β} (h : l.mapM g = .ok l') :
    List.Forall₂ (fun a b => g a = .ok b) l l' := by
  induction l generalizing l' with
  | nil =>
    cases h
    exact .nil
  | cons a l ih =>
    rw [List.mapM_cons] at h
    obtain ⟨b, hb, h⟩ := bind_ok h
    obtain ⟨bs, hbs, h⟩ := bind_ok h
    cases h
    exact .cons hb (ih hbs)

theorem exists_of_forall₂_mem {R : α → β → Prop} {l : List α} {l' : List β}
    (h : List.Forall₂ R l l') {b : β} (hb : b ∈ l') : ∃ a ∈ l, R a b := by
  induction h with
  | nil => cases hb
  | cons hab _ ih =>
    rcases List.mem_cons.mp hb with rfl | hb
    · exact ⟨_, List.mem_cons_self, hab⟩
    · obtain ⟨a, ha, hr⟩ := ih hb
      exact ⟨a, List.mem_cons_of_mem _ ha, hr⟩

namespace GoString

def hasPrefix (s p : GoString) : Bool := p.isPrefixOf s

theorem hasPrefix_iff (s p : GoString) : hasPrefix s p = true ↔ p <+: s := by
  simp [hasPrefix]

/-- `strings.Split(s, sep)[0]` for a non-empty separator. -/
def beforeFirst (sep : GoString) : GoString → GoString
  | [] => []
  | c :: s => if sep.isPrefixOf (c :: s) then [] else c :: beforeFirst sep s

theorem beforeFirst_prefix (sep s : GoString) : beforeFirst sep s <+: s := by
  induction s with
  | nil => exact List.prefix_rfl
  | cons c s ih =>
    simp only [beforeFirst]
    split
    · exact List.nil_prefix
    · exact (List.cons_prefix_cons).mpr ⟨rfl, ih⟩

theorem not_infix_beforeFirst {sep : GoString} (hsep : sep ≠ []) (s : GoString) :
    ¬ sep <:+: beforeFirst sep s := by
  induction s with
  | nil =>
    intro h
    exact hsep (List.infix_nil.mp h)
  | cons c s ih =>
    simp only [beforeFirst]
    split
    · intro h
      exact hsep (List.infix_nil.mp h)
    · next hpre =>
      intro h
      rcases List.infix_cons_iff.mp h with h | h
      · -- an occurrence at the start would be one in the whole string
        have hfull : sep <+: c :: s :=
          h.trans (List.cons_prefix_cons.mpr ⟨rfl, beforeFirst_prefix sep s⟩)
        exact hpre (by simpa using hfull)
      · exact ih h

theorem beforeFirst_eq_self {sep s : GoString} (h : ¬ sep <:+: s) : beforeFirst sep s = s := by
  induction s with
  | nil => rfl
  | cons c s ih =>
    have hpre : ¬ sep <+: c :: s := fun hp => h hp.isInfix
    have htail : ¬ sep <:+: s := fun hi => h (hi.trans (List.suffix_cons c s).isInfix)
    simp only [beforeFirst]
    rw [if_neg (by simpa using hpre), ih htail]

/-- `strings.ReplaceAll(s, "0x", "")` -/
def removeHexMarks : GoString → GoString
  | [] => []
  | '0' :: 'x' :: s => removeHexMarks s
  | c :: s => c :: removeHexMarks s

/-- `strings.ToUpper(s)` as far as ASCII results go: besides the small ASCII letters,
only `ı` (C4 B1) and `ſ` (C5 BF) have an ASCII capital.  All other bytes stay. -/
def toUpper : GoString → GoString
  | [] => []
  | [c] => [c.toUpper]
  | c :: d :: s =>
    if c.toNat = 0xC4 ∧ d.toNat = 0xB1 then 'I' :: toUpper s
    else if c.toNat = 0xC5 ∧ d.toNat = 0xBF then 'S' :: toUpper s
    else c.toUpper :: toUpper (d :: s)

def itoa (n : Nat) : GoString := Nat.toDigits 10 n

inductive NumError where
  | syntaxError
  | range
  deriving DecidableEq, Repr

def parseUint (s : GoString) : Except NumError UInt64 :=
  if s.isEmpty || s.any (!·.isDigit) then .error .syntaxError
  else if Nat.ofDigitChars 10 s 0 < 2 ^ 64 then .ok (.ofNat (Nat.ofDigitChars 10 s 0))
  else .error .range

theorem parseUint_of_digits {s : GoString} (hne : s ≠ []) (hs : ∀ c ∈ s, c.isDigit = true) :
    parseUint s = if Nat.ofDigitChars 10 s 0 < 2 ^ 64 then .ok (.ofNat (Nat.ofDigitChars 10 s 0))
      else .error .range := by
  have hdigits : ¬ (s.isEmpty || s.any (!·.isDigit)) = true := by
    simpa [hne] using hs
  rw [parseUint, if_neg hdigits]

end GoString
end EtherVal.Lib
