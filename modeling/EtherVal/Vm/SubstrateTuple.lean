import Mathlib.Data.List.DropRight
import EtherVal.Lib.Go

/-!
# Tuple types (`core/vm/substrate_unpack.go`)

Texts are sequences of runes here, as `range` and `strings.TrimSpace` see them.
-/

namespace EtherVal.Vm
open EtherVal.Lib List

def isSpace (c : Char) : Bool :=
  c.toNat ∈ [0x09, 0x0a, 0x0b, 0x0c, 0x0d, 0x20, 0x85, 0xa0, 0x1680, 0x2028, 0x2029, 0x202f,
    0x205f, 0x3000] || (0x2000 ≤ c.toNat && c.toNat ≤ 0x200a)

def trimSpace (s : GoString) : GoString := (s.dropWhile isSpace).rdropWhile isSpace

/-- The loop of `splitTopTuple`; `piece` is the text from `last` on. -/
def splitLoop (depth : Int) (piece : GoString) : GoString → List GoString
  | [] => [piece]
  | ch :: rest =>
    let depth := if ch = '(' then depth + 1 else if ch = ')' then depth - 1 else depth
    if ch = ',' ∧ depth = 0 then piece :: splitLoop depth [] rest
    else splitLoop depth (piece ++ [ch]) rest

def splitTopTuple (typeStr : GoString) : List GoString := splitLoop 0 [] typeStr

inductive ArgumentMarshaling where
  | mk (type : GoString) (components : List ArgumentMarshaling)

def ArgumentMarshaling.type : ArgumentMarshaling → GoString
  | .mk type _ => type

theorem length_le_of_mem_splitLoop {s e : GoString} {depth : Int} {piece : GoString}
    (h : e ∈ splitLoop depth piece s) : e.length ≤ piece.length + s.length := by
  induction s generalizing depth piece with
  | nil => simp_all [splitLoop]
  | cons ch rest ih =>
    simp only [splitLoop] at h
    generalize (if ch = '(' then depth + 1 else if ch = ')' then depth - 1 else depth) = d at h
    split at h
    · rcases mem_cons.mp h with rfl | h
      · simp
      · have := ih h
        simp only [length_nil, length_cons] at this ⊢
        omega
    · have := ih h
      simp only [length_append, length_cons, length_nil] at this ⊢
      omega

theorem length_trimSpace_le (s : GoString) : (trimSpace s).length ≤ s.length :=
  (List.rdropWhile_prefix _ _).length_le.trans (dropWhile_suffix _).length_le

/-- `parseTuple`; the inner text of a tuple is `elem[1 : len(elem)-1]`. -/
def parseTuple (tupleStr : GoString) : Except GoPanic (List ArgumentMarshaling) :=
  (splitTopTuple tupleStr).attach.mapM fun elem =>
    match _ : trimSpace elem.1 with
    | '(' :: rest =>
      if rest = [] then .error .indexOutOfRange
      else do return .mk "tuple".toList (← parseTuple rest.dropLast)
    | _ => .ok (.mk (trimSpace elem.1) [])
termination_by tupleStr.length
decreasing_by
  have h1 := length_le_of_mem_splitLoop elem.2
  have h2 := length_trimSpace_le elem.1
  rw [‹trimSpace elem.1 = _›] at h2
  simp only [length_cons, length_nil, length_dropLast] at h1 h2 ⊢
  omega

def parseElem (elem : GoString) : Except GoPanic ArgumentMarshaling :=
  match trimSpace elem with
  | '(' :: rest =>
    if rest = [] then .error .indexOutOfRange
    else do return .mk "tuple".toList (← parseTuple rest.dropLast)
  | elem => .ok (.mk elem [])

theorem parseTuple_eq (s : GoString) : parseTuple s = (splitTopTuple s).mapM parseElem := by
  rw [parseTuple]
  conv => rhs; rw [← attach_map_subtype_val (splitTopTuple s), mapM_map]
  congr 1
  funext elem
  unfold parseElem
  split <;> simp_all

structure TypeName where
  text : GoString
  ne_nil : text ≠ []
  plain : ∀ c ∈ text, c ≠ '(' ∧ c ≠ ')' ∧ c ≠ ',' ∧ isSpace c = false

mutual
inductive AbiType where
  | elementary (name : TypeName)
  | tuple (components : AbiTypes)
  | array (elem : AbiType) (size : Option Nat)
inductive AbiTypes where
  | one (t : AbiType)
  | cons (t : AbiType) (spaces : Nat) (ts : AbiTypes)
end

def arraySuffix : Option Nat → GoString
  | none => "[]".toList
  | some n => '[' :: GoString.itoa n ++ [']']

mutual
def AbiType.text : AbiType → GoString
  | .elementary name => name.text
  | .tuple ts => '(' :: ts.text ++ [')']
  | .array t size => t.text ++ arraySuffix size
def AbiTypes.text : AbiTypes → GoString
  | .one t => t.text
  | .cons t spaces ts => t.text ++ ',' :: (List.replicate spaces ' ' ++ ts.text)
end

mutual
/-- What a type is as a component: an array suffix stays in the type. -/
def AbiType.marshaling : AbiType → ArgumentMarshaling
  | .elementary name => .mk name.text []
  | .tuple ts => .mk "tuple".toList ts.marshalings
  | .array t size => match t.marshaling with
    | .mk type components => .mk (type ++ arraySuffix size) components
def AbiTypes.marshalings : AbiTypes → List ArgumentMarshaling
  | .one t => [t.marshaling]
  | .cons t _ ts => t.marshaling :: ts.marshalings
end

def AbiType.overTuple : AbiType → Bool
  | .elementary _ => false
  | .tuple _ => true
  | .array t _ => t.overTuple

mutual
def AbiType.NoTupleArray : AbiType → Prop
  | .elementary _ => True
  | .tuple ts => ts.NoTupleArray
  | .array t _ => t.overTuple = false
def AbiTypes.NoTupleArray : AbiTypes → Prop
  | .one t => t.NoTupleArray
  | .cons t _ ts => t.NoTupleArray ∧ ts.NoTupleArray
end

theorem splitLoop_plain {s : GoString} (h : ∀ c ∈ s, c ≠ '(' ∧ c ≠ ')' ∧ c ≠ ',') (d : Int)
    (piece rest : GoString) : splitLoop d piece (s ++ rest) = splitLoop d (piece ++ s) rest := by
  induction s generalizing piece with
  | nil => simp
  | cons c s ih =>
    obtain ⟨hopen, hclose, hcomma⟩ := h c mem_cons_self
    rw [cons_append, splitLoop]
    simp only [hopen, hclose, hcomma, if_false, false_and]
    rw [ih fun c hc => h c (mem_cons_of_mem _ hc), append_assoc]
    rfl

theorem spaces_plain (n : Nat) : ∀ c ∈ List.replicate n ' ', c ≠ '(' ∧ c ≠ ')' ∧ c ≠ ',' := by
  intro c hc
  rw [eq_of_mem_replicate hc]
  decide

theorem arraySuffix_plain (size : Option Nat) :
    ∀ c ∈ arraySuffix size, c ≠ '(' ∧ c ≠ ')' ∧ c ≠ ',' := by
  intro c hc
  cases size with
  | none =>
    have hc : c = '[' ∨ c = ']' := by simpa [arraySuffix] using hc
    rcases hc with rfl | rfl <;> decide
  | some n =>
    simp only [arraySuffix, cons_append, mem_cons, mem_append, not_mem_nil,
      or_false] at hc
    rcases hc with rfl | hc | rfl
    · decide
    · have hdigit := Nat.isDigit_of_mem_toDigits (by decide) (by decide) hc
      refine ⟨?_, ?_, ?_⟩ <;> rintro rfl <;> revert hdigit <;> decide
    · decide

mutual
theorem splitLoop_text (t : AbiType) {d : Int} (hd : 0 ≤ d) (piece rest : GoString) :
    splitLoop d piece (t.text ++ rest) = splitLoop d (piece ++ t.text) rest := by
  cases t with
  | elementary name =>
    exact splitLoop_plain (fun c hc => ⟨(name.plain c hc).1, (name.plain c hc).2.1,
      (name.plain c hc).2.2.1⟩) d piece rest
  | tuple ts =>
    have hin := splitLoop_texts ts (d := d + 1) (by omega) (piece ++ ['(']) (')' :: rest)
    have hclose : d + 1 - 1 = d := by omega
    simp only [AbiType.text, cons_append, append_assoc, nil_append, splitLoop]
    simp only [if_true, Char.reduceEq, if_false, false_and]
    rw [hin, splitLoop]
    simp only [Char.reduceEq, if_false, if_true, false_and, hclose, append_assoc,
      cons_append, nil_append]
  | array t size =>
    rw [AbiType.text, append_assoc, splitLoop_text t hd,
      splitLoop_plain (arraySuffix_plain size), append_assoc]
theorem splitLoop_texts (ts : AbiTypes) {d : Int} (hd : 0 < d) (piece rest : GoString) :
    splitLoop d piece (ts.text ++ rest) = splitLoop d (piece ++ ts.text) rest := by
  cases ts with
  | one t => exact splitLoop_text t (by omega) piece rest
  | cons t spaces ts =>
    have hd0 : d ≠ 0 := by omega
    rw [AbiTypes.text, append_assoc, splitLoop_text t (by omega), cons_append, splitLoop]
    simp only [Char.reduceEq, if_false, hd0, and_false]
    rw [append_assoc (List.replicate _ _), splitLoop_plain (spaces_plain _), splitLoop_texts ts hd]
    simp only [append_assoc, cons_append, nil_append]
end

def AbiTypes.pieces (spaces : Nat) : AbiTypes → List GoString
  | .one t => [List.replicate spaces ' ' ++ t.text]
  | .cons t n ts => (List.replicate spaces ' ' ++ t.text) :: ts.pieces n

theorem splitLoop_pieces (ts : AbiTypes) (spaces : Nat) :
    splitLoop 0 (List.replicate spaces ' ') ts.text = ts.pieces spaces := by
  cases ts with
  | one t =>
    have h := splitLoop_text t (Int.le_refl 0) (List.replicate spaces ' ') []
    rwa [append_nil] at h
  | cons t n ts =>
    rw [AbiTypes.text, splitLoop_text t (Int.le_refl 0), splitLoop]
    simp only [Char.reduceEq, if_false, and_self, if_true]
    rw [splitLoop_plain (spaces_plain _), nil_append, splitLoop_pieces ts n, AbiTypes.pieces]

theorem arraySuffix_eq (size : Option Nat) : ∃ s, arraySuffix size = '[' :: s ++ [']'] := by
  cases size with
  | none => exact ⟨[], rfl⟩
  | some n => exact ⟨GoString.itoa n, rfl⟩

theorem text_head (t : AbiType) : ∃ c s, t.text = c :: s ∧ isSpace c = false ∧
    (c = '(' ↔ t.overTuple = true) := by
  cases t with
  | elementary name =>
    obtain ⟨c, s, hs⟩ := exists_cons_of_ne_nil name.ne_nil
    obtain ⟨hopen, -, -, hspace⟩ := name.plain c (by simp [hs])
    exact ⟨c, s, hs, hspace, by simp [hopen, AbiType.overTuple]⟩
  | tuple ts => exact ⟨'(', ts.text ++ [')'], rfl, by decide, by simp [AbiType.overTuple]⟩
  | array t size =>
    obtain ⟨c, s, hs, hspace, hiff⟩ := text_head t
    exact ⟨c, s ++ arraySuffix size, by rw [AbiType.text, hs, cons_append], hspace, hiff⟩

theorem text_last (t : AbiType) : ∃ s c, t.text = s ++ [c] ∧ isSpace c = false := by
  cases t with
  | elementary name =>
    have hlast := dropLast_append_getLast name.ne_nil
    exact ⟨_, _, hlast.symm, (name.plain _ (getLast_mem name.ne_nil)).2.2.2⟩
  | tuple ts => exact ⟨'(' :: ts.text, ')', rfl, by decide⟩
  | array t size =>
    obtain ⟨s, hs⟩ := arraySuffix_eq size
    exact ⟨t.text ++ '[' :: s, ']', by rw [AbiType.text, hs, append_assoc], by decide⟩

theorem trimSpace_text (n : Nat) (t : AbiType) :
    trimSpace (List.replicate n ' ' ++ t.text) = t.text := by
  have hleft : (List.replicate n ' ' ++ t.text).dropWhile isSpace = t.text := by
    obtain ⟨c, s, hs, hspace, -⟩ := text_head t
    induction n with
    | zero => simp [hs, hspace]
    | succ n ih =>
      rw [replicate_succ, cons_append, dropWhile_cons_of_pos (by decide), ih]
  obtain ⟨s, c, hs, hspace⟩ := text_last t
  rw [trimSpace, hleft, hs, rdropWhile_concat_neg _ _ _ (by simp [hspace])]

theorem marshaling_elementary {t : AbiType} (h : t.overTuple = false) :
    t.marshaling = .mk t.text [] := by
  cases t with
  | elementary name => rfl
  | tuple ts => cases h
  | array t size => rw [AbiType.marshaling, marshaling_elementary (t := t) h, AbiType.text]

theorem length_type_overTuple {t : AbiType} (h : t.overTuple = true) :
    5 ≤ t.marshaling.type.length := by
  cases t with
  | elementary name => cases h
  | tuple ts => exact Nat.le_refl 5
  | array t size =>
    have hin := length_type_overTuple (t := t) h
    rw [AbiType.marshaling]
    cases ht : t.marshaling with
    | mk type components =>
      rw [ht] at hin
      simp only [ArgumentMarshaling.type, length_append] at hin ⊢
      omega

theorem parseElem_of_open {e rest : GoString} (h : trimSpace e = '(' :: rest) :
    parseElem e = if rest = [] then .error .indexOutOfRange
      else do return .mk "tuple".toList (← parseTuple rest.dropLast) := by
  unfold parseElem
  rw [h]
  rfl

theorem type_of_parseElem {t : AbiType} {n : Nat} {arg : ArgumentMarshaling}
    (ht : t.overTuple = true) (h : parseElem (List.replicate n ' ' ++ t.text) = .ok arg) :
    arg.type = "tuple".toList := by
  obtain ⟨c, s, hs, -, hiff⟩ := text_head t
  obtain rfl := hiff.mpr ht
  rw [parseElem_of_open ((trimSpace_text n t).trans hs)] at h
  split at h
  · cases h
  · obtain ⟨components, -, h⟩ := bind_ok h
    cases h
    rfl

theorem parseTuple_text (ts : AbiTypes) : parseTuple ts.text = (ts.pieces 0).mapM parseElem := by
  rw [parseTuple_eq, splitTopTuple, ← splitLoop_pieces ts 0]
  rfl

theorem parseElem_tuple (ts : AbiTypes) (n : Nat) :
    parseElem (List.replicate n ' ' ++ (AbiType.tuple ts).text) =
      do return .mk "tuple".toList (← parseTuple ts.text) := by
  have htext : (AbiType.tuple ts).text = '(' :: (ts.text ++ [')']) := rfl
  rw [parseElem_of_open ((trimSpace_text n _).trans htext), if_neg (by simp), dropLast_concat]

mutual
theorem parseElem_iff (t : AbiType) (n : Nat) :
    parseElem (List.replicate n ' ' ++ t.text) = .ok t.marshaling ↔ t.NoTupleArray := by
  cases ht : t.overTuple with
  | false =>
    obtain ⟨c, s, hs, -, hiff⟩ := text_head t
    have hopen : c ≠ '(' := fun hc => by simp [hiff.mp hc] at ht
    refine iff_of_true ?_ ?_
    · rw [marshaling_elementary ht]
      unfold parseElem
      rw [trimSpace_text, hs]
      split
      · next h => exact absurd (List.cons.inj h).1 hopen
      · rfl
    · cases t with
      | elementary name => trivial
      | tuple ts => cases ht
      | array t size => exact ht
  | true =>
    cases t with
    | elementary name => cases ht
    | tuple ts =>
      rw [parseElem_tuple, AbiType.marshaling, AbiType.NoTupleArray, ← pieces_iff ts 0,
        ← parseTuple_text]
      cases parseTuple ts.text with
      | error e => simp [bind, Except.bind]
      | ok args => simp [bind, Except.bind, pure, Except.pure]
    | array t size =>
      have hover : t.overTuple = true := ht
      refine iff_of_false (fun h => ?_) (by simp [AbiType.NoTupleArray, hover])
      -- The component has type `tuple`, without the suffix.
      have htype := congrArg List.length (type_of_parseElem ht h)
      have hin := length_type_overTuple (t := t) ht
      obtain ⟨s, hs⟩ := arraySuffix_eq size
      rw [AbiType.marshaling] at htype
      cases hm : t.marshaling with
      | mk type components =>
        rw [hm] at htype hin
        simp only [ArgumentMarshaling.type, length_append, hs, length_cons] at htype hin
        have hfive : "tuple".toList.length = 5 := by decide
        omega
theorem pieces_iff (ts : AbiTypes) (n : Nat) :
    (ts.pieces n).mapM parseElem = .ok ts.marshalings ↔ ts.NoTupleArray := by
  cases ts with
  | one t =>
    rw [AbiTypes.NoTupleArray, ← parseElem_iff t n, AbiTypes.pieces, AbiTypes.marshalings,
      mapM_cons, mapM_nil]
    cases parseElem (List.replicate n ' ' ++ t.text) with
    | error e => simp [bind, Except.bind]
    | ok arg => simp [bind, Except.bind, pure, Except.pure]
  | cons t m ts =>
    rw [AbiTypes.NoTupleArray, ← parseElem_iff t n, ← pieces_iff ts m, AbiTypes.pieces,
      AbiTypes.marshalings, mapM_cons]
    cases parseElem (List.replicate n ' ' ++ t.text) with
    | error e => simp [bind, Except.bind]
    | ok arg =>
      cases (ts.pieces m).mapM parseElem with
      | error e => simp [bind, Except.bind]
      | ok args => simp [bind, Except.bind, pure, Except.pure]
end

/-- A list of types is read back exactly if no array suffix stands on a tuple. -/
theorem parseTuple_marshalings_iff (ts : AbiTypes) :
    parseTuple ts.text = .ok ts.marshalings ↔ ts.NoTupleArray := by
  rw [parseTuple_text]
  exact pieces_iff ts 0

def nameOf (text : GoString) (h : text ≠ [] ∧ ∀ c ∈ text, c ≠ '(' ∧ c ≠ ')' ∧ c ≠ ',' ∧
    isSpace c = false) : AbiType := .elementary ⟨text, h.1, h.2⟩

def pairArray : AbiTypes :=
  .one (.array (.tuple (.cons (nameOf "uint256".toList (by simp [isSpace])) 0
    (.one (nameOf "bool".toList (by simp [isSpace]))))) none)

/-- `(uint256,bool)[]` is a tuple of a `uint256` and a `bool)[`. -/
theorem pairArray_misread :
    pairArray.text = "(uint256,bool)[]".toList ∧
      parseTuple pairArray.text = .ok [.mk "tuple".toList
        [.mk "uint256".toList [], .mk "bool)[".toList []]] ∧
      parseTuple pairArray.text ≠ .ok pairArray.marshalings := by
  have hsplit : splitTopTuple "uint256,bool)[".toList = ["uint256".toList, "bool)[".toList] := by
    decide
  have hinner : parseTuple "uint256,bool)[".toList =
      .ok [.mk "uint256".toList [], .mk "bool)[".toList []] := by
    rw [parseTuple_eq, hsplit]
    rfl
  have hread : parseTuple "(uint256,bool)[]".toList = .ok [.mk "tuple".toList
      [.mk "uint256".toList [], .mk "bool)[".toList []]] := by
    have houter : splitTopTuple "(uint256,bool)[]".toList = ["(uint256,bool)[]".toList] := by
      decide
    have hstep : parseElem "(uint256,bool)[]".toList =
        do return .mk "tuple".toList (← parseTuple "uint256,bool)[".toList) := rfl
    rw [parseTuple_eq, houter, mapM_cons, hstep, hinner]
    rfl
  refine ⟨rfl, hread, fun h => ?_⟩
  have hargs := Except.ok.inj (hread.symm.trans h)
  exact absurd (congrArg (List.map fun a => a.type.length) hargs) (by decide)

end EtherVal.Vm
