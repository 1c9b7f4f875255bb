import Bsdi.Compact.Tree

/-!
# `compact` and `uncompact`

The encoder of `compact.c` and the decoder of `uncompact.c`, on the bytes of a file. The members
`chars.hib` and `chars.lob` of `union cio` are meant to be the high and the low byte of `integ`; the
header takes every machine but the vax and the pdp11 for one that stores the high byte first, so
that on the i386 they are exchanged.
-/

namespace Bsdi.Compact

abbrev Byte := UInt8

/-- How `struct charac` lies over `integ`. -/
inductive Order
  /-- `hib` is the high byte. -/
  | straight
  /-- `hib` is the low byte. -/
  | swapped
  deriving DecidableEq, Repr

/-- The i386 is little-endian, and `compact.h` puts `hib` first there. -/
def i386 : Order := .swapped

def compacted : UInt16 := 0x1fff

def packed : UInt16 := 0x1f1f

def lowByte (integ : UInt16) : Byte := integ.toUInt8

def highByte (integ : UInt16) : Byte := (integ >>> 8).toUInt8

/-- `chars.hib`. -/
def Order.hib : Order → UInt16 → Byte
  | .straight, integ => highByte integ
  | .swapped, integ => lowByte integ

/-- `chars.lob`. -/
def Order.lob : Order → UInt16 → Byte
  | .straight, integ => lowByte integ
  | .swapped, integ => highByte integ

/-- `integ` after a byte is stored in `chars.hib`. -/
def Order.setHib : Order → UInt16 → Byte → UInt16
  | .straight, integ, b => (integ &&& (0xff : UInt16)) ||| (b.toUInt16 <<< (8 : UInt16))
  | .swapped, integ, b => (integ &&& (0xff00 : UInt16)) ||| b.toUInt16

/-- The tables as `main` and the first lines of `compact` leave them: `dir[1]` is `dirp`, and the
cells behind it are free. -/
def tables : Tree where
  inp ch := ⟨none, if ch = ef then fbit ||| seen else 0⟩
  dir i := ⟨0, if i = 1 ∨ 513 ≤ i then none else some (i + 1)⟩
  dict _ := ⟨⟨none, 0⟩, ⟨0, some 1, 0⟩, ⟨0, some 1, 0⟩⟩
  head := 0
  flist := some 2
  dirp := 1
  dirq := some 2
  bottom := 0

/-- The last lines of both `setup` functions: the tree of the character `ch`, `NC` and `EF`. -/
def plant (t : Tree) (ch : Nat) : Option Tree := do
  let (dirq, t) ← t.new
  let t := { t with dirq := some dirq, bottom := 1 }
  let t := t.setDir t.dirp { t.dir t.dirp with next := some dirq }
  let t := t.setDir dirq ⟨0, none⟩
  let t := t.setIn nc ⟨some 1, seen⟩
  let t := t.setIn ef ⟨some 1, (t.inp ef).flags⟩
  let t := t.setIn ch ⟨some 0, fbit ||| seen⟩
  let t := t.setNode 0 ⟨⟨none, rleaf⟩, ⟨1, (t.dict 0).left.top, 2⟩, ⟨ch, some dirq, 1⟩⟩
  pure (t.setNode 1 ⟨⟨some 0, lleaf ||| rleaf⟩, ⟨nc, some dirq, 1⟩, ⟨ef, some dirq, 1⟩⟩)

/-- The encoder between two characters: the tree, `d.integ`, `bits` and the output. -/
structure Encoder where
  tree : Tree
  d : UInt16
  bits : Nat
  out : List Byte

def Encoder.putBit (o : Order) (e : Encoder) (b : Bool) : Encoder :=
  let d := (e.d <<< 1) + (if b then 1 else 0)
  let bits := (e.bits + 1) % 16
  ⟨e.tree, d, bits, if bits = 0 then e.out ++ [o.hib d, o.lob d] else e.out⟩

def path (t : Tree) : Nat → Nat → Option (List Bool)
  | 0, _ => none
  | fuel + 1, pp =>
    match (t.dict pp).fath.fp with
    | none => some []
    | some up => (path t fuel up).map fun l => l ++ [decide ((t.dict pp).fath.flags % 2 = 1)]

/-- `encode`. The stack of the code holds the bits in words of 16; they are popped in the order
of `path`. -/
def encode (o : Order) (e : Encoder) (ch : Nat) : Option Encoder := do
  let pp ← (e.tree.inp ch).fp
  let l ← path e.tree nf pp
  pure ((l ++ [decide ((e.tree.inp ch).flags % 2 = 1)]).foldl (Encoder.putBit o) e)

/-- The bits of a character, from the mask `0200` on. -/
def charBits (ch : Nat) : List Bool := (List.range 8).map fun j => ch.testBit (7 - j)

/-- The code of a character: the escape and the character itself when it is new. -/
def emit (o : Order) (e : Encoder) (ch : Nat) : Option Encoder :=
  if (e.tree.inp ch).flags &&& seen = 0 then do
    let e ← encode o e nc
    let t ← uptree e.tree nc
    let t ← insert t ch
    pure ((charBits ch).foldl (Encoder.putBit o) { e with tree := t })
  else encode o e ch

/-- The body of the loop of `compress`. -/
def compressChar (o : Order) (e : Encoder) (ch : Nat) : Option Encoder := do
  let e ← emit o e ch
  let t ← uptree e.tree ch
  pure { e with tree := t }

def compress (o : Order) : Encoder → List Nat → Option Encoder
  | e, [] => some e
  | e, ch :: l => do
    let e ← compressChar o e ch
    compress o e l

def Encoder.finish (o : Order) (e : Encoder) : List Byte :=
  if e.bits = 0 then e.out
  else
    let d := e.d <<< UInt16.ofNat (16 - e.bits)
    if 8 < e.bits then e.out ++ [o.hib d, o.lob d] else e.out ++ [o.hib d]

/-- `setup` of the encoder on the first two bytes of a file: the encoder, or that the file is
refused. -/
def compactSetup (o : Order) (b₀ b₁ : Byte) : Option Encoder := do
  let d := o.setHib b₀.toUInt16 b₁
  if d = compacted ∨ d = packed then none
  else
    let t ← plant tables (d &&& 0xff).toNat
    pure ⟨t, d, 8, [o.lob compacted, o.hib compacted]⟩

/-- `compact` on the bytes of a file: the bytes it writes. -/
def compact (o : Order) : List Byte → Option (List Byte)
  | b₀ :: b₁ :: input => do
    let e ← compactSetup o b₀ b₁
    let e ← compress o e (((e.d >>> 8) &&& 0xff).toNat :: input.map UInt8.toNat)
    let e ← encode o e ef
    pure (e.finish o)
  | _ => none

/-- The decoder: the tree, the node it is at, the byte it reads, the bits of it that are left,
the bytes behind it, and the output. -/
structure Decoder where
  tree : Tree
  p : Nat
  c : Nat
  m : Nat
  rest : List Byte
  out : List Byte

/-- The next bit of the character behind `NC`. At the end of the file `c` is -1. -/
def Decoder.nextBit (s : Decoder) : Bool × Decoder :=
  let s := if s.m = 0 then
      { s with c := s.rest.head?.elim 0xff UInt8.toNat, m := 8, rest := s.rest.tail }
    else s
  (s.c.testBit (s.m - 1), { s with m := s.m - 1 })

def Decoder.newChar : Nat → Nat → Decoder → Nat × Decoder
  | 0, d, s => (d, s)
  | j + 1, d, s => Decoder.newChar j (2 * d + s.nextBit.1.toNat) s.nextBit.2

/-- The loops of `decompress`: one bit, or the next byte. -/
def decompress (o : Order) : Nat → Decoder → Option (List Byte)
  | 0, _ => none
  | fuel + 1, s =>
    if s.m = 0 then
      match s.rest with
      | [] => some s.out
      | c :: rest => decompress o fuel { s with c := c.toNat, m := 8, rest := rest }
    else
      let b := s.c.testBit (s.m - 1)
      let s := { s with m := s.m - 1 }
      let n := s.tree.dict s.p
      if n.fath.flags &&& leafFlag b ≠ 0 then
        let ch := (s.tree.son s.p b).sp
        if ch = ef then decompress o fuel { s with m := 0 }
        else do
          let (ch, s) ←
            if ch = nc then do
              let t ← uptree s.tree nc
              let (ch, s) := Decoder.newChar 8 0 { s with tree := t }
              let t ← insert s.tree ch
              pure (ch, { s with tree := t })
            else pure (ch, s)
          let t ← uptree s.tree ch
          decompress o fuel
            { s with tree := t, p := 0, out := s.out ++ [o.lob (UInt16.ofNat ch)] }
      else decompress o fuel { s with p := (s.tree.son s.p b).sp }

/-- `uncompact` on the bytes of a file: the bytes it writes, or that the file is refused. -/
def uncompact (o : Order) : List Byte → Option (List Byte)
  | b₀ :: b₁ :: b₂ :: rest => do
    if o.setHib b₀.toUInt16 b₁ ≠ compacted then none
    else
      let t ← plant tables b₂.toNat
      decompress o (9 * (rest.length + 1)) ⟨t, 0, 0, 0, rest, [o.lob b₂.toUInt16]⟩
  | _ => none

variable {o : Order} {e e' : Encoder}

def Extends (e e' : Encoder) : Prop := e.out <+: e'.out

theorem Extends.trans {e₁ e₂ e₃ : Encoder} (h : Extends e₁ e₂) (h' : Extends e₂ e₃) :
    Extends e₁ e₃ := List.IsPrefix.trans h h'

theorem extends_putBit (b : Bool) : Extends e (e.putBit o b) := by
  simp only [Extends, Encoder.putBit]
  split
  · exact List.prefix_append _ _
  · exact List.prefix_refl _

theorem extends_foldl (l : List Bool) : Extends e (l.foldl (Encoder.putBit o) e) := by
  induction l generalizing e with
  | nil => exact List.prefix_refl _
  | cons b l ih => exact (extends_putBit b).trans ih

theorem extends_encode {ch : Nat} (h : encode o e ch = some e') : Extends e e' := by
  obtain ⟨pp, -, h⟩ := Option.bind_eq_some_iff.1 h
  obtain ⟨l, -, h⟩ := Option.bind_eq_some_iff.1 h
  obtain rfl := Option.some.inj h
  exact extends_foldl _

theorem Extends.setTree (h : Extends e e') (t : Tree) : Extends e { e' with tree := t } := h

theorem extends_emit {ch : Nat} (h : emit o e ch = some e') : Extends e e' := by
  unfold emit at h
  split at h
  · obtain ⟨e₁, h₁, h⟩ := Option.bind_eq_some_iff.1 h
    obtain ⟨t₁, -, h⟩ := Option.bind_eq_some_iff.1 h
    obtain ⟨t₂, -, h⟩ := Option.bind_eq_some_iff.1 h
    rw [← Option.some.inj h]
    exact ((extends_encode h₁).setTree t₂).trans (extends_foldl (charBits ch))
  · exact extends_encode h

theorem extends_compressChar {ch : Nat} (h : compressChar o e ch = some e') : Extends e e' := by
  obtain ⟨e₁, h₁, h⟩ := Option.bind_eq_some_iff.1 h
  obtain ⟨t, -, h⟩ := Option.bind_eq_some_iff.1 h
  rw [← Option.some.inj h]
  exact (extends_emit h₁).setTree t

theorem extends_compress {l : List Nat} (h : compress o e l = some e') : Extends e e' := by
  induction l generalizing e with
  | nil =>
    obtain rfl := Option.some.inj h
    exact List.prefix_refl _
  | cons ch l ih =>
    obtain ⟨e₁, h₁, h⟩ := Option.bind_eq_some_iff.1 h
    exact (extends_compressChar h₁).trans (ih h)

theorem finish_extends : e.out <+: e.finish o := by
  unfold Encoder.finish
  split
  · exact List.prefix_refl _
  · dsimp only
    split
    · exact List.prefix_append _ _
    · exact List.prefix_append _ _

theorem starts_with_magic {input out : List Byte} (h : compact o input = some out) :
    [o.lob compacted, o.hib compacted] <+: out := by
  match input, h with
  | b₀ :: b₁ :: input, h =>
    obtain ⟨e, hsetup, h⟩ := Option.bind_eq_some_iff.1 h
    obtain ⟨e₁, h₁, h⟩ := Option.bind_eq_some_iff.1 h
    obtain ⟨e₂, h₂, h⟩ := Option.bind_eq_some_iff.1 h
    obtain rfl := Option.some.inj h
    have hout : e.out = [o.lob compacted, o.hib compacted] := by
      unfold compactSetup at hsetup
      dsimp only at hsetup
      split at hsetup
      · exact absurd hsetup (by simp)
      · obtain ⟨t, -, hsetup⟩ := Option.bind_eq_some_iff.1 hsetup
        obtain rfl := Option.some.inj hsetup
        rfl
    rw [← hout]
    exact List.IsPrefix.trans ((extends_compress h₁).trans (extends_encode h₂)) finish_extends

theorem uncompact_of_magic {out : List Byte}
    (h : [i386.lob compacted, i386.hib compacted] <+: out) :
    uncompact i386 out = none := by
  obtain ⟨rest, rfl⟩ := h
  cases rest with
  | nil => rfl
  | cons b₂ rest => rfl

/-- On the i386 the decoder refuses whatever the encoder wrote. -/
theorem uncompact_i386 (input : List Byte) : (compact i386 input).bind (uncompact i386) = none := by
  cases h : compact i386 input with
  | none => rfl
  | some out => exact uncompact_of_magic (starts_with_magic h)

/-- The first two bytes are one of the magic numbers that `compact` refuses. -/
def Refused (input : List Byte) : Prop :=
  ∃ b₀ b₁ rest, input = b₀ :: b₁ :: rest ∧
    ((b₁.toUInt16 <<< 8) ||| b₀.toUInt16 = compacted ∨ (b₁.toUInt16 <<< 8) ||| b₀.toUInt16 = packed)

/-- The two programs do not reproduce `abab`. -/
theorem compact_loses : ¬ ∀ input : List Byte, 2 ≤ input.length → ¬ Refused input →
    (compact i386 input).bind (uncompact i386) = some input := by
  intro h
  have hlost : (compact i386 [97, 98, 97, 98]).bind (uncompact i386) = none := by
    cases h : compact i386 [97, 98, 97, 98] with
    | none => rfl
    | some out => exact uncompact_of_magic (starts_with_magic h)
  have hkept := h [97, 98, 97, 98] (by decide) (by
    rintro ⟨b₀, b₁, rest, heq, hmagic⟩
    obtain ⟨rfl, rfl, -⟩ := by simpa using heq
    revert hmagic
    decide)
  rw [hlost] at hkept
  simp at hkept

-- With the bytes in the order that the names say, the decoder reads what the encoder wrote.
example : (compact .straight [97, 98, 97, 98]).bind (uncompact .straight) =
    some [97, 98, 97, 98] := by
  decide +kernel

end Bsdi.Compact
