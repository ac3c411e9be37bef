import EtherVal.Lib.BigEndian

/-!
# Recursive length prefixed items and codecs for them

An item is a byte string or a list of items.  A `Codec` reads one item, `Fields` reads the leading
items of a list; a struct is a list that its fields use up.
-/

namespace EtherVal.Lib.Rlp

inductive Item where
  | str (b : Bytes)
  | list (items : List Item)

structure Codec (α : Type) where
  enc : α → Item
  dec : Item → Option α
  Valid : α → Prop
  dec_enc : ∀ a, Valid a → dec (enc a) = some a

structure Fields (α : Type) where
  arity : Nat
  enc : α → List Item
  dec : List Item → Option (α × List Item)
  Valid : α → Prop
  dec_enc : ∀ a rest, Valid a → dec (enc a ++ rest) = some (a, rest)
  enc_length : ∀ a, (enc a).length = arity
  dec_length : ∀ items a rest, dec items = some (a, rest) → items.length = arity + rest.length

variable {α β : Type}

namespace Codec

def bytes : Codec Bytes where
  enc b := .str b
  dec
    | .str b => some b
    | .list _ => none
  Valid _ := True
  dec_enc _ _ := rfl

def bool : Codec Bool where
  enc b := .str (if b then [1] else [])
  dec
    | .str [] => some false
    | .str [1] => some true
    | _ => none
  Valid _ := True
  dec_enc b _ := by cases b <;> rfl

def fixed (k : Nat) : Codec (BitVec (8 * k)) where
  enc x := .str (beBytes k x.toNat)
  dec
    | .str b => if b.length = k then some (BitVec.ofNat (8 * k) (beVal b)) else none
    | .list _ => none
  Valid _ := True
  dec_enc x _ := by
    have hlt : x.toNat < 256 ^ k := by
      have h := x.isLt
      rwa [Nat.pow_mul] at h
    simp [beVal_beBytes hlt]

def sized (k : Nat) : Codec Bytes where
  enc b := .str b
  dec
    | .str b => if b.length = k then some b else none
    | .list _ => none
  Valid b := b.length = k
  dec_enc b h := by simp [h]

theorem head?_natBytes (n : Nat) : (natBytes n).head? ≠ some 0 := by
  by_cases hn : n = 0
  · simp [natBytes, beBytes, hn]
  · have hlow : 256 ^ Nat.log 256 n ≤ n := Nat.pow_log_le_self 256 hn
    have hhigh : n < 256 ^ (Nat.log 256 n + 1) := Nat.lt_pow_succ_log_self (by omega) n
    have hpos : 0 < n / 256 ^ Nat.log 256 n := Nat.div_pos hlow (by positivity)
    have hbyte : n / 256 ^ Nat.log 256 n < 256 := by
      rw [Nat.div_lt_iff_lt_mul (by positivity), Nat.mul_comm, ← Nat.pow_succ]
      exact hhigh
    simp only [natBytes, hn, if_false, beBytes, List.head?_map, List.head?_range]
    simp only [Nat.add_one_ne_zero, if_false, Option.map_some, Nat.add_sub_cancel, Nat.sub_zero,
      ne_eq, Option.some.injEq]
    intro hzero
    have htoNat := congrArg UInt8.toNat hzero
    simp only [UInt8.toNat_ofNat', UInt8.toNat_zero] at htoNat
    omega

/-- Numbers in their shortest form, below a bound if there is one. -/
def nat (bound : Option Nat) : Codec Nat where
  enc n := .str (natBytes n)
  dec
    | .str b =>
      if b.head? = some 0 ∨ ∃ m ∈ bound, m ≤ beVal b then none else some (beVal b)
    | .list _ => none
  Valid n := ∀ m ∈ bound, n < m
  dec_enc n h := by
    have hbound : ¬ ∃ m ∈ bound, m ≤ n := by
      rintro ⟨m, hm, hle⟩
      have := h m hm
      omega
    simp only [beVal_natBytes, head?_natBytes, hbound, or_self, if_false]

def uint64 : Codec Nat := nat (some (2 ^ 64))

/-- `*big.Int`; a negative one cannot be written. -/
def big : Codec Int where
  enc n := (nat none).enc n.toNat
  dec item := ((nat none).dec item).map Int.ofNat
  Valid n := 0 ≤ n
  dec_enc n h := by
    rw [(nat none).dec_enc n.toNat (fun _ hm => nomatch hm)]
    simp [h]

def nilPtr (c : Codec α) : Codec (Option α) where
  enc
    | none => .str []
    | some a => c.enc a
  dec
    | .str [] => some none
    | item => (c.dec item).map some
  Valid o := ∀ a ∈ o, c.Valid a ∧ c.enc a ≠ .str []
  dec_enc o h := by
    cases o with
    | none => rfl
    | some a =>
      obtain ⟨hvalid, hne⟩ := h a rfl
      have hdec := c.dec_enc a hvalid
      dsimp only
      split
      · next heq => exact absurd heq hne
      · rw [hdec]
        rfl

def listOf (c : Codec α) : Codec (List α) where
  enc l := .list (l.map c.enc)
  dec
    | .list items => items.mapM c.dec
    | .str _ => none
  Valid l := ∀ a ∈ l, c.Valid a
  dec_enc l h := by
    dsimp only
    induction l with
    | nil => rfl
    | cons a l ih =>
      rw [List.map_cons, List.mapM_cons, c.dec_enc a (h a List.mem_cons_self),
        ih fun b hb => h b (List.mem_cons_of_mem a hb)]
      rfl

end Codec

namespace Fields

def one (c : Codec α) : Fields α where
  arity := 1
  enc a := [c.enc a]
  dec
    | [] => none
    | item :: rest => (c.dec item).map (·, rest)
  Valid := c.Valid
  dec_enc a rest h := by simp [c.dec_enc a h]
  enc_length _ := rfl
  dec_length items a rest h := by
    cases items with
    | nil => cases h
    | cons item items =>
      obtain ⟨b, -, hb⟩ := Option.map_eq_some_iff.mp h
      rw [← (Prod.mk.inj hb).2, List.length_cons, Nat.add_comm]

def and (f : Fields α) (g : Fields β) : Fields (α × β) where
  arity := f.arity + g.arity
  enc p := f.enc p.1 ++ g.enc p.2
  dec items := (f.dec items).bind fun (a, items') => (g.dec items').map fun (b, rest) =>
    ((a, b), rest)
  Valid p := f.Valid p.1 ∧ g.Valid p.2
  dec_enc p rest h := by
    rw [List.append_assoc, f.dec_enc p.1 _ h.1, Option.bind_some]
    dsimp only
    rw [g.dec_enc p.2 _ h.2]
    rfl
  enc_length p := by rw [List.length_append, f.enc_length, g.enc_length]
  dec_length items p rest h := by
    obtain ⟨⟨a, items'⟩, hf, h⟩ := Option.bind_eq_some_iff.mp h
    obtain ⟨⟨b, rest'⟩, hg, heq⟩ := Option.map_eq_some_iff.mp h
    have hlen := f.dec_length _ _ _ hf
    have hlen' := g.dec_length _ _ _ hg
    have hrest : rest' = rest := (Prod.mk.inj heq).2
    rw [hlen, hlen', hrest]
    omega

def record (f : Fields α) (build : α → β) (parts : β → α)
    (h : ∀ b, build (parts b) = b) : Fields β where
  arity := f.arity
  enc b := f.enc (parts b)
  dec items := (f.dec items).map fun (a, rest) => (build a, rest)
  Valid b := f.Valid (parts b)
  dec_enc b rest hb := by
    rw [f.dec_enc _ rest hb, Option.map_some]
    dsimp only
    rw [h]
  enc_length b := f.enc_length (parts b)
  dec_length items b rest hb := by
    obtain ⟨⟨a, rest'⟩, hf, heq⟩ := Option.map_eq_some_iff.mp hb
    have hrest : rest' = rest := (Prod.mk.inj heq).2
    rw [f.dec_length _ _ _ hf, hrest]

theorem one_and_dec (c : Codec α) (g : Fields β) (item : Item) (items : List Item) :
    ((one c).and g).dec (item :: items) =
      (c.dec item).bind fun a => (g.dec items).map fun p => ((a, p.1), p.2) := by
  simp only [one, and]
  cases c.dec item with
  | none => rfl
  | some a => rfl

theorem one_and_dec_head {c : Codec α} (g : Fields β) {item : Item} (items : List Item)
    (h : c.dec item = none) : ((one c).and g).dec (item :: items) = none := by
  rw [one_and_dec, h, Option.bind_none]

theorem one_and_dec_tail (c : Codec α) {g : Fields β} (item : Item) {items : List Item}
    (h : g.dec items = none) : ((one c).and g).dec (item :: items) = none := by
  rw [one_and_dec, h]
  cases c.dec item with
  | none => rfl
  | some a => rfl

end Fields

/-- A struct takes a list exactly as long as its fields. -/
def Codec.struct (f : Fields α) : Codec α where
  enc a := .list (f.enc a)
  dec
    | .list items =>
      match f.dec items with
      | some (a, []) => some a
      | _ => none
    | .str _ => none
  Valid := f.Valid
  dec_enc a h := by
    have hdec := f.dec_enc a [] h
    rw [List.append_nil] at hdec
    simp only [hdec]

theorem Codec.struct_dec_eq_none {f : Fields α} {items : List Item} (h : f.dec items = none) :
    (Codec.struct f).dec (.list items) = none := by
  simp only [Codec.struct, h]

theorem Codec.struct_dec_of_length {f : Fields α} {items : List Item} (h : items.length ≠ f.arity) :
    (Codec.struct f).dec (.list items) = none := by
  simp only [Codec.struct]
  split
  · next a hdec =>
    have hlen := f.dec_length _ _ _ hdec
    rw [List.length_nil, Nat.add_zero] at hlen
    exact absurd hlen h
  · rfl

theorem Codec.struct_apart {f : Fields α} {g : Fields β} (h : f.arity ≠ g.arity) (a : α) :
    (Codec.struct g).dec ((Codec.struct f).enc a) = none := by
  apply Codec.struct_dec_of_length
  rw [f.enc_length]
  exact h

end EtherVal.Lib.Rlp
