import Mathlib.Tactic.Common

/-!
# Arithmetic on quads

`muldi3.c`, `qdivrem.c`, `divdi3.c` and `moddi3.c`, on a machine with 32-bit longs. A `u_long` is a
number below `ulongMod` and a digit, an `unsigned short`, one below `base`.
-/

namespace Bsdi.Quad

/-- `B`: the digit base. -/
def base : ℕ := 65536

def halfBits : ℕ := 16

/-- `ULONG_MAX + 1`. -/
def ulongMod : ℕ := 4294967296

def hhalf (x : ℕ) : ℕ := x / base

def lhalf (x : ℕ) : ℕ := x % base

def lhup (x : ℕ) : ℕ := x * base % ulongMod

def combine (a b : ℕ) : ℕ := lhup a ||| b

def addLong (a b : ℕ) : ℕ := (a + b) % ulongMod

def subLong (a b : ℕ) : ℕ := (a + (ulongMod - b % ulongMod)) % ulongMod

def mulLong (a b : ℕ) : ℕ := a * b % ulongMod

/-- `ul[H]` of a quad. -/
def highLong (x : BitVec 64) : ℕ := x.toNat / ulongMod

/-- `ul[L]` of a quad. -/
def lowLong (x : BitVec 64) : ℕ := x.toNat % ulongMod

def ofLongs (high low : ℕ) : BitVec 64 := BitVec.ofNat 64 (high * ulongMod + low)

def absDiff (a b : ℕ) : ℕ × Bool := if b ≤ a then (a - b, false) else (b - a, true)

/-- `__lmulq`: the product of two longs. -/
def lmulq (u v : ℕ) : BitVec 64 :=
  let u1 := hhalf u
  let u0 := lhalf u
  let v1 := hhalf v
  let v0 := lhalf v
  let low := mulLong u0 v0
  if u1 = 0 ∧ v1 = 0 then BitVec.ofNat 64 low
  else
    let udiff := absDiff u1 u0
    let vdiff := absDiff v0 v1
    let neg := xor udiff.2 vdiff.2
    let mid := mulLong udiff.1 vdiff.1
    let high := mulLong u1 v1
    -- prod = (high << 2N) + (high << N)
    let prodh := addLong high (hhalf high)
    let prodl := lhup high
    -- the middle term, with the borrow or the carry
    let was := prodl
    let prodl := if neg then subLong prodl (lhup mid) else addLong prodl (lhup mid)
    let prodh :=
      if neg then subLong prodh (addLong (hhalf mid) (if was < prodl then 1 else 0))
      else addLong prodh (addLong (hhalf mid) (if prodl < was then 1 else 0))
    -- prod += low << N
    let was := prodl
    let prodl := addLong prodl (lhup low)
    let prodh := addLong prodh (addLong (hhalf low) (if prodl < was then 1 else 0))
    let prodl := addLong prodl low
    let prodh := if prodl < low then addLong prodh 1 else prodh
    ofLongs prodh prodl

def absQuad (a : BitVec 64) : BitVec 64 × Bool := if a.slt 0 then (-a, true) else (a, false)

def muldi3 (a b : BitVec 64) : BitVec 64 :=
  let u := absQuad a
  let v := absQuad b
  let negall := xor u.2 v.2
  let u1 := highLong u.1
  let u0 := lowLong u.1
  let v1 := highLong v.1
  let v0 := lowLong v.1
  let prod :=
    if u1 = 0 ∧ v1 = 0 then lmulq u0 v0
    else
      let low := lmulq u0 v0
      let udiff := absDiff u1 u0
      let vdiff := absDiff v0 v1
      let negmid := xor udiff.2 vdiff.2
      let mid := mulLong udiff.1 vdiff.1
      let high := mulLong u1 v1
      ofLongs
        (addLong (addLong (addLong high (if negmid then subLong 0 mid else mid)) (lowLong low))
          (highLong low))
        (lowLong low)
  if negall then -prod else prod

/-- `shl`: shift the digits in `len + 1` cells from `p` on to the left. -/
def shl (sh : ℕ) : ℕ → ℕ → (ℕ → ℕ) → ℕ → ℕ
  | p, 0, u => Function.update u p (lhalf (u p <<< sh))
  | p, len + 1, u =>
    shl sh (p + 1) len
      (Function.update u p (lhalf (u p <<< sh) ||| (u (p + 1) >>> (halfBits - sh))))

/-- The shift of the remainder to the right, in `len` cells behind `p`. -/
def shr (sh p : ℕ) : ℕ → (ℕ → ℕ) → ℕ → ℕ
  | 0, u => u
  | len + 1, u =>
    shr sh p len (Function.update u (p + (len + 1))
      ((u (p + (len + 1)) >>> sh) ||| lhalf (u (p + len) <<< (halfBits - sh))))

def digits (x : BitVec 64) : ℕ → ℕ
  | 1 => hhalf (highLong x)
  | 2 => lhalf (highLong x)
  | 3 => hhalf (lowLong x)
  | 4 => lhalf (lowLong x)
  | _ => 0

def ofDigits (u : ℕ → ℕ) : BitVec 64 :=
  ofLongs (combine (u 1) (u 2)) (combine (u 3) (u 4))

/-- The number of digits of the divisor, from `n` on down, and the cell before its first one. It is
one digit if only the last of the four cells can be different from zero. -/
def divisorLength (v : ℕ → ℕ) : ℕ → ℕ → ℕ × ℕ
  | n + 1, p =>
    if v (p + 1) = 0 then if n = 1 then (1, p + 1) else divisorLength v n (p + 1) else (n + 1, p)
  | 0, p => (0, p)

/-- The leading zeros of the dividend: `m` without them and the cell before its first digit. -/
def skipZeros (u : ℕ → ℕ) : ℕ → ℕ → ℕ → ℕ × ℕ
  | 0, m, p => (m, p)
  | fuel + 1, m, p => if u (p + 1) = 0 then skipZeros u fuel (m - 1) (p + 1) else (m, p)

/-- Division by the only digit `t` of the divisor, per exercise 16. -/
def divDigit (u : ℕ → ℕ) (t : ℕ) : BitVec 64 × BitVec 64 :=
  let q1 := u 1 / t
  let rbj := combine (u 1 % t) (u 2)
  let q2 := rbj / t
  let rbj := combine (rbj % t) (u 3)
  let q3 := rbj / t
  let rbj := combine (rbj % t) (u 4)
  let q4 := rbj / t
  (ofLongs (combine (lhalf q1) (lhalf q2)) (combine (lhalf q3) (lhalf q4)),
    BitVec.ofNat 64 (rbj % t))

/-- D1: the number of bits to shift, so that the first digit of the divisor is at least `B / 2`. -/
def normShift : ℕ → ℕ → ℕ → ℕ
  | 0, _, d => d
  | fuel + 1, t, d => if t < base / 2 then normShift fuel (t * 2 % ulongMod) (d + 1) else d

/-- The loop of D3: decrease `qhat` until it is right for three digits. -/
def qhatLoop (v1 v2 uj2 : ℕ) : ℕ → ℕ → ℕ → ℕ
  | 0, qhat, _ => qhat
  | fuel + 1, qhat, rhat =>
    if combine rhat uj2 < mulLong v2 qhat then
      if base ≤ rhat + v1 then qhat - 1 else qhatLoop v1 v2 uj2 fuel (qhat - 1) (rhat + v1)
    else qhat

def guess (v1 v2 uj0 uj1 uj2 : ℕ) : ℕ :=
  if uj0 = v1 then
    -- `goto qhat_too_big`, into the loop
    if base ≤ uj1 + v1 then base - 1 else qhatLoop v1 v2 uj2 base (base - 1) (uj1 + v1)
  else qhatLoop v1 v2 uj2 base (combine uj0 uj1 / v1) (combine uj0 uj1 % v1)

/-- D4: multiply and subtract, in `i` cells behind `p`. It returns the digits and the borrow. -/
def mulSub (v : ℕ → ℕ) (vp qhat p : ℕ) : ℕ → (ℕ → ℕ) → ℕ → (ℕ → ℕ) × ℕ
  | 0, u, t => (u, t)
  | i + 1, u, t =>
    let t := subLong (subLong (u (p + (i + 1))) (mulLong (v (vp + (i + 1))) qhat)) t
    mulSub v vp qhat p i (Function.update u (p + (i + 1)) (lhalf t))
      ((base - hhalf t) &&& (base - 1))

/-- D6: add the divisor back, in `i` cells behind `p`. It returns the digits and the carry. -/
def addBack (v : ℕ → ℕ) (vp p : ℕ) : ℕ → (ℕ → ℕ) → ℕ → (ℕ → ℕ) × ℕ
  | 0, u, t => (u, t)
  | i + 1, u, t =>
    let t := addLong t (u (p + (i + 1)) + v (vp + (i + 1)))
    addBack v vp p i (Function.update u (p + (i + 1)) (lhalf t)) (hhalf t)

/-- D3 to D6: one digit of the quotient, and the dividend less that multiple of the divisor. -/
def divStep (v : ℕ → ℕ) (vp n p : ℕ) (u : ℕ → ℕ) : (ℕ → ℕ) × ℕ :=
  let qhat := guess (v (vp + 1)) (v (vp + 2)) (u p) (u (p + 1)) (u (p + 2))
  let (u, t) := mulSub v vp qhat p n u 0
  let t := subLong (u p) t
  let u := Function.update u p (lhalf t)
  if hhalf t ≠ 0 then
    let (u, t) := addBack v vp p n u 0
    (Function.update u p (lhalf (u p + t)), qhat - 1)
  else (u, qhat)

/-- The loop of Program D, for the digits of the quotient from cell `q` on. -/
def divLoop (v : ℕ → ℕ) (vp n : ℕ) : ℕ → ℕ → ℕ → (ℕ → ℕ) → (ℕ → ℕ) → (ℕ → ℕ) × (ℕ → ℕ)
  | 0, _, _, u, qs => (u, qs)
  | cnt + 1, p, q, u, qs =>
    let (u, qhat) := divStep v vp n p u
    divLoop v vp n cnt (p + 1) (q + 1) u (Function.update qs q (lhalf qhat))

/-- Program D, for a divisor of `n` digits behind `vp` and a dividend of `m + n` digits behind `up`.
-/
def programD (u v : ℕ → ℕ) (up vp m n : ℕ) : BitVec 64 × BitVec 64 :=
  let d := normShift halfBits (v (vp + 1)) 0
  let u := if 0 < d then shl d up (m + n) u else u
  let v := if 0 < d then shl d (vp + 1) (n - 1) v else v
  let (u, qs) := divLoop v vp n (m + 1) up (4 - m) u fun _ => 0
  let u := if 0 < d then Function.update (shr d (up + m) n u) (up + m) 0 else u
  (ofDigits qs, ofDigits u)

/-- `__qdivrem`: the quotient and the remainder. A division by zero traps. -/
def qdivrem (uq vq : BitVec 64) : Option (BitVec 64 × BitVec 64) :=
  if vq = 0 then none
  else if uq < vq then some (0, uq)
  else
    let u := digits uq
    let v := digits vq
    let (n, vp) := divisorLength v 4 0
    if n = 1 then some (divDigit u (v (vp + 1)))
    else
      let (m, up) := skipZeros u 4 (4 - n) 0
      some (programD u v up vp m n)

def divdi3 (a b : BitVec 64) : Option (BitVec 64) :=
  let ua := absQuad a
  let ub := absQuad b
  (qdivrem ua.1 ub.1).map fun r => if xor ua.2 ub.2 then -r.1 else r.1

def moddi3 (a b : BitVec 64) : Option (BitVec 64) :=
  let ua := absQuad a
  let ub := absQuad b
  (qdivrem ua.1 ub.1).map fun r => if xor ua.2 ub.2 then -r.2 else r.2

end Bsdi.Quad
