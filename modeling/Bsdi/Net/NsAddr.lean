import Mathlib.Data.List.TakeWhile
import Mathlib.Data.Nat.Digits.Lemmas

/-!
# Addresses of XNS as texts

`ns_ntoa` of `ns_ntoa.c` and `ns_addr` of `ns_addr.c`. A C string is the list of its characters
before the terminator; `sprintf` and `sscanf` are those of ANSI C, as far as the two use them. What
the standard leaves open is a parameter: `wide`, what is stored of a number that does not fit, and
`junk`, what `hb` has in it before. Where a `long` overflows there is no result.
-/

namespace Bsdi.Ns

abbrev Byte := UInt8

def value (base : Nat) (ds : List Nat) : Nat := Nat.ofDigits base ds.reverse

def big (l : List Byte) : Nat := value 256 (l.map UInt8.toNat)

structure NsAddr where
  net : List Byte
  host : List Byte
  port : List Byte
  net_length : net.length = 4
  host_length : host.length = 6
  port_length : port.length = 2

def dash : Byte := 45

def dot : Byte := 46

def colon : Byte := 58

def comma : Byte := 44

def hash : Byte := 35

/-! ## `ns_ntoa` -/

def hexDigits (n : Nat) : List Nat := if n = 0 then [0] else (Nat.digits 16 n).reverse

def hexChar (d : Nat) : Byte := if d < 10 then 48 + d.toUInt8 else 87 + d.toUInt8

/-- The two digits that `%02x` makes of a byte. -/
def byteDigits (c : Byte) : List Nat := [c.toNat / 16, c.toNat % 16]

def upper (c : Byte) : Byte := if 97 ≤ c ∧ c ≤ 102 then c - 32 else c

def isLetter (c : Byte) : Bool := 65 ≤ c ∧ c ≤ 70

def spectHex (p : List Byte) : List Byte :=
  let p := p.map upper
  if p.any (fun c => isLetter c || 49 ≤ c && c ≤ 57) && !p.any isLetter then p ++ [72] else p

def nsNtoa (addr : NsAddr) : List Byte :=
  let port := big addr.port
  spectHex ((hexDigits (big addr.net)).map hexChar) ++
    (match addr.host.dropWhile (· = 0) with
      | [] => if port ≠ 0 then [dot, 48] else []
      | c :: up =>
        dot :: spectHex ((hexDigits c.toNat).map hexChar ++
          up.flatMap fun c => (byteDigits c).map hexChar)) ++
    if port ≠ 0 then dot :: spectHex ((hexDigits port).map hexChar) else []

/-! ## `sscanf` -/

def digitOf (c : Byte) : Nat :=
  if 48 ≤ c ∧ c ≤ 57 then (c - 48).toNat else if 65 ≤ c ∧ c ≤ 70 then (c - 55).toNat
  else if 97 ≤ c ∧ c ≤ 102 then (c - 87).toNat else 16

def isspace (c : Byte) : Bool := c = 32 ∨ (9 ≤ c ∧ c ≤ 13)

/-- A number at the start of the text, in the syntax of `strtol`, and what is behind it. -/
def number (base : Nat) (s : List Byte) : Option (Int × List Byte) :=
  let negative := s.head? = some dash
  let s := if negative ∨ s.head? = some 43 then s.drop 1 else s
  let s := if base = 16 ∧ s.head? = some 48 ∧ (s[1]? = some 120 ∨ s[1]? = some 88) then s.drop 2
    else s
  let ds := s.takeWhile (digitOf · < base)
  if ds = [] then none
  else some ((if negative then -1 else 1) * value base (ds.map digitOf), s.drop ds.length)

/-- What an `int` is after the conversion; `wide` is it where the number does not fit. -/
def stored (wide : Int → Int) (base : Nat) (n : Int) : Int :=
  if (if base = 10 then -2 ^ 31 ≤ n ∧ n < 2 ^ 31 else -2 ^ 32 < n ∧ n < 2 ^ 32) then n.bmod (2 ^ 32)
  else wide n

/-- `%d`, `%x` or `%o`, maybe with a width, or a character. -/
inductive Directive
  | num (base : Nat) (width : Option Nat)
  | lit (c : Byte)

def sscanf (wide : Int → Int) : List Directive → List Byte → List Int
  | [], _ => []
  | .lit c :: fmt, s => if s.head? = some c then sscanf wide fmt (s.drop 1) else []
  | .num base width :: fmt, s =>
    let s := s.dropWhile isspace
    let width := width.getD s.length
    match number base (s.take width) with
    | some (n, rest) => stored wide base n :: sscanf wide fmt (rest ++ s.drop width)
    | none => []

/-! ## `ns_addr` -/

/-- A `long`. -/
def long (x : Int) : Option Int := if -2 ^ 31 ≤ x ∧ x < 2 ^ 31 then some x else none

/-- The long division: `input`, `sum` and whether `e > 0`. -/
def divide (oldbase newbase : Int) : List Int → Int → Bool → Option (List Int × Int × Bool)
  | [], sum, e => some ([], sum, e)
  | x :: input, sum, e => do
    let sum ← long (sum * oldbase + x)
    let (input, rem, e) ← divide oldbase newbase input (sum.tmod newbase) (e || 0 < sum)
    return (sum.tdiv newbase :: input, rem, e)

def cvtLoop (oldbase newbase : Int) : Nat → Bool → List Int → List Byte → Option (List Byte)
  | 0, _, _, result => some result
  | reslen + 1, false, _, result => some (List.replicate (reslen + 1) 0 ++ result)
  | reslen + 1, true, input, result => do
    let (input, sum, e) ← divide oldbase newbase input 0 false
    cvtLoop oldbase newbase reslen e input (UInt8.ofInt sum :: result)

def cvtbase (oldbase newbase : Int) (input : List Int) (reslen : Nat) : Option (List Byte) :=
  cvtLoop oldbase newbase reslen true input []

/-- The format of `n` numbers with separators between them. -/
def fields (base : Nat) (sep : Byte) (n : Nat) : List Directive :=
  (List.replicate n (.num base none)).intersperse (.lit sep)

/-- `buf` when the base has been decided on, `base16` and `base10`. -/
def scanBase : List Byte → List Byte × Bool × Bool
  | [] => ([], false, false)
  | c :: bp =>
    if 48 ≤ c ∧ c ≤ 55 ∨ c = dash then (c :: (scanBase bp).1, (scanBase bp).2)
    else if c = 56 ∨ c = 57 then (c :: (scanBase bp).1, (scanBase bp).2.1, true)
    else if 65 ≤ c ∧ c ≤ 70 ∨ 97 ≤ c ∧ c ≤ 102 then
      (c :: (scanBase bp).1, true, (scanBase bp).2.2)
    else if c = 120 ∨ c = 88 then (48 :: (scanBase bp).1, true, (scanBase bp).2.2)
    else ([], c = 104 ∨ c = 72, false)

def assign (hb : Nat → Int) (vals : List Int) : Nat → Int := fun k => vals[k]?.getD (hb k)

/-- The loop over the groups of three digits, from `hb[k]` down. -/
def groups (wide : Int → Int) (base : Nat) : Nat → Nat → List Byte → (Nat → Int) → Nat → Int
  | 0, _, buf, hb => assign hb (sscanf wide [.num base (some 3)] buf)
  | k + 1, bp, buf, hb =>
    let vals := sscanf wide [.num base (some 3)] (buf.drop bp)
    let hb := Function.update hb (k + 1) (vals[0]?.getD (hb (k + 1)))
    groups wide base k (bp - 3) (buf.take bp) hb

def fieldDigits (wide : Int → Int) (hb : Nat → Int) (buf : List Byte) (len : Nat) :
    Option (List Byte) :=
  let (buf, base16, base10) := scanBase buf
  let base := if base16 then 16 else if base10 = false ∧ buf.head? = some 48 then 8 else 10
  let clen := min (max buf.length 1) 18
  let hb := groups wide base ((clen - 1) / 3) (clen - 3) buf hb
  cvtbase (base ^ 3) 256 ((List.range ((clen - 1) / 3 + 1)).map hb) len

/-- `Field`; `hb` has something in it before. -/
def field (wide : Int → Int) (hb : Nat → Int) (buf : List Byte) (len : Nat) : Option (List Byte) :=
  let dashes := if buf.head? = some dash then [] else sscanf wide (fields 10 dash 5) buf
  let dots := sscanf wide (fields 16 dot 6) buf
  let colons := sscanf wide (fields 16 colon 6) buf
  let commas := sscanf wide (fields 16 comma 3) buf
  let htons := fun x : Int => x % 256 * 256 + x / 256 % 256
  if 1 < dashes.length then cvtbase 1000 256 dashes len
  else if 1 < dots.length then cvtbase 256 256 dots len
  else if 1 < colons.length then cvtbase 256 256 colons len
  else if 1 < commas.length then cvtbase 65536 256 (commas.map htons) len
  else fieldDigits wide (assign (assign (assign (assign hb dashes) dots) colons) commas) buf len

def cut (sep : Byte) (buf : List Byte) : List Byte × Option (List Byte) :=
  (buf.takeWhile (· ≠ sep), if sep ∈ buf then some ((buf.dropWhile (· ≠ sep)).drop 1) else none)

def separator (buf : List Byte) : Byte :=
  if hash ∈ buf then hash else if colon ∈ buf ∧ buf.idxOf colon < buf.idxOf dot then colon else dot

/-- The network, the host and the port. -/
def nsAddr (wide : Int → Int) (junk : Nat → Nat → Int) (name : List Byte) :
    Option (List Byte × List Byte × List Byte) := do
  let buf := name.take 49
  let sep := separator buf
  let net ← field wide (junk 0) (cut sep buf).1 4
  match (cut sep buf).2 with
  | none => return (net, List.replicate 6 0, List.replicate 2 0)
  | some hostname =>
    let port ← match (cut sep hostname).2 with
      | none => some (List.replicate 2 0)
      | some socketname => field wide (junk 1) socketname 2
    let host ← field wide (junk 2) (cut sep hostname).1 6
    return (net, host, port)

/-! ## Numbers -/

variable {base m len n : Nat} {ds es : List Nat} {l l' : List Byte} {wide : Int → Int}

theorem value_append (ds es : List Nat) :
    value base (ds ++ es) = value base ds * base ^ es.length + value base es := by
  rw [value, List.reverse_append, Nat.ofDigits_append, List.length_reverse, value, value]
  ring

theorem value_single (d : Nat) : value base [d] = d := by simp [value]

theorem value_cons (d : Nat) (ds : List Nat) :
    value base (d :: ds) = d * base ^ ds.length + value base ds := by
  rw [← List.singleton_append, value_append, value_single]

theorem value_lt (hbase : 1 < base) (h : ∀ d ∈ ds, d < base) :
    value base ds < base ^ ds.length := by
  have := Nat.ofDigits_lt_base_pow_length (l := ds.reverse) hbase (by simpa using h)
  rwa [List.length_reverse] at this

theorem value_zeros (n : Nat) : value base (List.replicate n 0) = 0 := by
  simp [value, Nat.ofDigits_replicate_zero]

theorem big_lt (l : List Byte) : big l < 256 ^ l.length := by
  have := @value_lt 256 (l.map UInt8.toNat) (by decide) (by simpa using fun c _ => c.toNat_lt)
  rwa [List.length_map] at this

theorem big_concat (l : List Byte) (c : Byte) : big (l ++ [c]) = big l * 256 + c.toNat := by
  rw [big, List.map_append, value_append, List.map_singleton, value_single]
  simp [big]

theorem big_inj (h : l.length = l'.length) (hbig : big l = big l') : l = l' := by
  induction l using List.reverseRecOn generalizing l' with
  | nil => exact (List.length_eq_zero_iff.1 h.symm).symm
  | append_singleton l c ih =>
    obtain ⟨l', c', rfl⟩ := (List.eq_nil_or_concat' l').resolve_left (by rintro rfl; simp at h)
    rw [big_concat, big_concat] at hbig
    have hc := c.toNat_lt
    have hc' := c'.toNat_lt
    rw [ih (by simpa using h) (by omega), UInt8.toNat_inj.1 (by omega : c.toNat = c'.toNat)]

/-! ## The change of base -/

theorem long_of_lt (h : n < 2 ^ 31) : long n = some (n : Int) := if_pos (by omega)

theorem divide_spec {s : Nat} {e : Bool} (hbase : base ≤ 65536) (hs : s < 256)
    (hds : ∀ d ∈ ds, d < base) :
    ∃ (q : List Nat) (r : Nat) (e' : Bool),
      divide base 256 (ds.map (↑)) s e = some (q.map (↑), ↑r, e') ∧ r < 256 ∧
      (∀ d ∈ q, d < base) ∧ s * base ^ ds.length + value base ds = value base q * 256 + r ∧
      q.length = ds.length ∧ (e' = false → e = false ∧ (s = 0 → value base ds = 0)) := by
  induction ds generalizing s e with
  | nil => exact ⟨[], s, e, rfl, hs, by simp, by simp [value], rfl, fun h => ⟨h, fun _ => rfl⟩⟩
  | cons d ds ih =>
    have hd := hds d (by simp)
    have hmul : s * base ≤ 255 * base := Nat.mul_le_mul_right _ (by omega)
    obtain ⟨q, r, e', hrun, hr, hq, hval, hlen, he⟩ := ih (s := (s * base + d) % 256)
      (e := e || 0 < s * base + d) (Nat.mod_lt _ (by decide)) fun x hx => hds x (by simp [hx])
    refine ⟨(s * base + d) / 256 :: q, r, e', ?_, hr, ?_, ?_, by simp [hlen], fun h => ?_⟩
    · have hlong : long ((s : Int) * base + d) = some ((s * base + d : Nat) : Int) := by
        exact_mod_cast long_of_lt (by omega)
      have hpos : decide (0 < ((s * base + d : Nat) : Int)) = decide (0 < s * base + d) := by
        simp only [Nat.cast_pos]
      rw [List.map_cons, divide, hlong]
      simp only [Option.bind_eq_bind, Option.bind_some, hpos]
      have htmod : ((s * base + d : Nat) : Int).tmod 256 = ((s * base + d) % 256 : Nat) := rfl
      rw [htmod, hrun]
      rfl
    · simp only [List.mem_cons, forall_eq_or_imp]
      exact ⟨by omega, hq⟩
    · rw [value_cons, value_cons, hlen, List.length_cons]
      calc s * base ^ (ds.length + 1) + (d * base ^ ds.length + value base ds)
          = (s * base + d) * base ^ ds.length + value base ds := by ring
        _ = (256 * ((s * base + d) / 256) + (s * base + d) % 256) * base ^ ds.length +
              value base ds := by rw [Nat.div_add_mod]
        _ = (s * base + d) / 256 * base ^ ds.length * 256 +
              ((s * base + d) % 256 * base ^ ds.length + value base ds) := by ring
        _ = ((s * base + d) / 256 * base ^ ds.length + value base q) * 256 + r := by
              rw [hval]
              ring
    · obtain ⟨he, hzero⟩ := he h
      simp only [Bool.or_eq_false_iff, decide_eq_false_iff_not, Nat.not_lt, Nat.le_zero] at he
      refine ⟨he.1, fun _ => ?_⟩
      rw [value_cons, hzero (by rw [he.2]), (Nat.add_eq_zero_iff.1 he.2).2, Nat.zero_mul]

theorem cvtLoop_spec {e : Bool} (hbase : base ≤ 65536) (hds : ∀ d ∈ ds, d < base)
    (hfits : value base ds < 256 ^ len) (he : e = false → value base ds = 0) :
    ∃ r, cvtLoop base 256 len e (ds.map (↑)) l = some (r ++ l) ∧ r.length = len ∧
      big r = value base ds := by
  induction len generalizing ds e l with
  | zero => exact ⟨[], by simp [cvtLoop], rfl, by simp_all [big, value]⟩
  | succ len ih =>
    cases e with
    | false =>
      refine ⟨List.replicate (len + 1) 0, by rw [cvtLoop], by simp, ?_⟩
      rw [he rfl, big, List.map_replicate]
      exact value_zeros _
    | true =>
      obtain ⟨q, r, e', hrun, hr, hq, hval, -, he'⟩ :=
        divide_spec (s := 0) (e := false) hbase (by decide) hds
      rw [Nat.zero_mul, Nat.zero_add] at hval
      obtain ⟨bytes, hloop, hlen, hbig⟩ := ih (l := UInt8.ofInt r :: l) hq
        (by rw [Nat.pow_succ] at hfits; omega) fun h => by
          have := (he' h).2 rfl
          omega
      refine ⟨bytes ++ [UInt8.ofInt r], ?_, by simp [hlen], ?_⟩
      · rw [cvtLoop]
        have hrun' : divide base 256 (ds.map (↑)) 0 false = some (q.map (↑), (r : Int), e') := hrun
        rw [hrun', Option.bind_eq_bind, Option.bind_some]
        simp [hloop]
      · have hbyte : (UInt8.ofInt r).toNat = r := by
          rw [UInt8.ofInt, UInt8.toNat_ofNat']
          omega
        rw [big_concat, hbig, hval, hbyte]

theorem cvtbase_spec (hbase : base ≤ 65536) (hds : ∀ d ∈ ds, d < base)
    (hfits : value base ds < 256 ^ len) :
    ∃ r, cvtbase base 256 (ds.map (↑)) len = some r ∧ r.length = len ∧ big r = value base ds := by
  simpa [cvtbase] using cvtLoop_spec (l := []) (e := true) hbase hds hfits (by simp)

/-! ## The digits of a text -/

/-- A digit as `spectHex` leaves it. -/
def upChar (d : Nat) : Byte := upper (hexChar d)

theorem digitOf_upChar : ∀ d < 16, digitOf (upChar d) = d := by decide

theorem isspace_upChar : ∀ d < 16, isspace (upChar d) = false := by decide

theorem upChar_plain :
    ∀ d < 16, upChar d ∉ [dash, 43, dot, colon, comma, hash, 120, 88] := by decide

theorem stored_of_lt (h : n < 2 ^ 31) : stored wide base n = n := by
  have hin : if base = 10 then -2 ^ 31 ≤ (n : Int) ∧ (n : Int) < 2 ^ 31
      else -2 ^ 32 < (n : Int) ∧ (n : Int) < 2 ^ 32 := by
    split <;> omega
  rw [stored, if_pos hin, Int.bmod]
  omega

theorem number_text (hbase : base ≤ 16) (hds : ∀ d ∈ ds, d < base) (hne : ds ≠ []) :
    number base (ds.map upChar) = some ((value base ds : Int), []) := by
  have hplain : ∀ c ∈ ds.map upChar, c ∉ [dash, 43, dot, colon, comma, hash, 120, 88] := by
    simp only [List.forall_mem_map]
    exact fun d hd => upChar_plain d (by have := hds d hd; omega)
  have hsign : (ds.map upChar).head? ≠ some dash ∧ (ds.map upChar).head? ≠ some 43 := by
    constructor <;> exact fun h => hplain _ (List.mem_of_head? h) (by decide)
  have hhex : (ds.map upChar)[1]? ≠ some 120 ∧ (ds.map upChar)[1]? ≠ some 88 := by
    constructor <;> exact fun h => hplain _ (List.mem_of_getElem? h) (by decide)
  have hall : (ds.map upChar).takeWhile (digitOf · < base) = ds.map upChar := by
    rw [List.takeWhile_eq_self_iff]
    simp only [List.forall_mem_map, decide_eq_true_eq]
    exact fun d hd => by
      rw [digitOf_upChar d (by have := hds d hd; omega)]
      exact hds d hd
  have hvalues : (ds.map upChar).map digitOf = ds := by
    rw [List.map_map]
    conv_rhs => rw [← List.map_id ds]
    exact List.map_congr_left fun d hd => digitOf_upChar d (by have := hds d hd; omega)
  have hne' : ds.map upChar ≠ [] := by simpa using hne
  generalize ds.map upChar = text at *
  simp [number, hsign, hhex, hall, hvalues, hne']

theorem sscanf_text (hbase : base ≤ 16) (hone : 1 < base) (hds : ∀ d ∈ ds, d < base) (hne : ds ≠ [])
    (hlen : ds.length ≤ 3) :
    sscanf wide [.num base (some 3)] (ds.map upChar) = [(value base ds : Int)] := by
  have hspace : (ds.map upChar).dropWhile isspace = ds.map upChar := by
    rw [List.dropWhile_eq_self_iff]
    intro h
    have := hds _ (List.getElem_mem (by simpa using h))
    rw [List.getElem_map, isspace_upChar _ (by omega)]
    exact Bool.false_ne_true
  have hsmall : value base ds < 2 ^ 31 :=
    calc value base ds < base ^ ds.length := value_lt hone hds
      _ ≤ base ^ 3 := Nat.pow_le_pow_right (by omega) hlen
      _ ≤ 16 ^ 3 := Nat.pow_le_pow_left hbase 3
      _ < 2 ^ 31 := by decide
  have htake : (ds.map upChar).take 3 = ds.map upChar :=
    List.take_of_length_le (by simpa using hlen)
  simp only [sscanf, hspace, Option.getD_some, htake, number_text hbase hds hne,
    stored_of_lt hsmall]

theorem groups_spec {k : Nat} {hb : Nat → Int} (hbase : base ≤ 16) (hone : 1 < base)
    (hds : ∀ d ∈ ds, d < base) (hlow : 3 * k < ds.length) (hhigh : ds.length ≤ 3 * k + 3) :
    ∃ xs : List Nat,
      (∀ j, k < j → groups wide base k (ds.length - 3) (ds.map upChar) hb j = hb j) ∧
      (List.range (k + 1)).map (groups wide base k (ds.length - 3) (ds.map upChar) hb) =
        xs.map (↑) ∧
      (∀ x ∈ xs, x < base ^ 3) ∧ value (base ^ 3) xs = value base ds := by
  induction k generalizing ds hb with
  | zero =>
    have hne : ds ≠ [] := List.ne_nil_of_length_pos (by omega)
    have hlt : value base ds < base ^ 3 :=
      (value_lt hone hds).trans_le (Nat.pow_le_pow_right (by omega) hhigh)
    refine ⟨[value base ds], fun j hj => ?_, ?_, by simpa using hlt, value_single _⟩
    · rw [groups, sscanf_text hbase hone hds hne hhigh, assign,
        List.getElem?_eq_none (by simpa using Nat.succ_le_of_lt hj), Option.getD_none]
    · simp [groups, sscanf_text hbase hone hds hne hhigh, assign]
  | succ k ih =>
    obtain ⟨front, last, rfl, hlast⟩ : ∃ front last, ds = front ++ last ∧ last.length = 3 :=
      ⟨_, _, (List.take_append_drop (ds.length - 3) ds).symm, by rw [List.length_drop]; omega⟩
    rw [List.length_append, hlast] at hlow hhigh
    have hfront : (front ++ last).length - 3 = front.length := by simp [hlast]
    have hdsl : ∀ d ∈ last, d < base := fun d hd => hds d (by simp [hd])
    have hne : last ≠ [] := List.ne_nil_of_length_pos (by omega)
    have hrun : groups wide base (k + 1) ((front ++ last).length - 3)
        ((front ++ last).map upChar) hb = groups wide base k (front.length - 3) (front.map upChar)
          (Function.update hb (k + 1) (value base last)) := by
      have htake : (front.map upChar ++ last.map upChar).take front.length = front.map upChar :=
        List.take_left' (by simp)
      have hdrop : (front.map upChar ++ last.map upChar).drop front.length = last.map upChar :=
        List.drop_left' (by simp)
      rw [groups, hfront, List.map_append, htake, hdrop, sscanf_text hbase hone hdsl hne (by omega)]
      rfl
    have hdsf : ∀ d ∈ front, d < base := fun d hd => hds d (by simp [hd])
    obtain ⟨xs, hothers, hmap, hxs, hval⟩ :=
      @ih front (Function.update hb (k + 1) (value base last)) hdsf (by omega) (by omega)
    refine ⟨xs ++ [value base last], fun j hj => ?_, ?_, ?_, ?_⟩
    · rw [hrun, hothers j (by omega), Function.update_of_ne (by omega)]
    · rw [hrun, List.range_succ, List.map_append, hmap, List.map_singleton,
        hothers (k + 1) (by omega), Function.update_self, List.map_append, List.map_singleton]
    · have := value_lt hone hdsl
      rw [hlast] at this
      simpa [or_imp, forall_and] using ⟨hxs, this⟩
    · rw [value_append, value_single, hval, value_append, hlast, List.length_singleton, Nat.pow_one]

/-! ## `Field` reads a number that `spectHex` has marked -/

def Hexed (t : List Byte) (n : Nat) : Prop :=
  ∃ ds, ds ≠ [] ∧ (∀ d ∈ ds, d < 16) ∧ ds.length ≤ 12 ∧ t = spectHex (ds.map hexChar) ∧
    value 16 ds = n

variable {t : List Byte} {hb : Nat → Int}

theorem any_upChar {p : Byte → Bool} {q : Nat → Bool} (hpq : ∀ d < 16, p (upChar d) = q d)
    (hds : ∀ d ∈ ds, d < 16) : (ds.map upChar).any p = ds.any q := by
  rw [List.any_map, Bool.eq_iff_iff, List.any_eq_true, List.any_eq_true]
  exact exists_congr fun d => and_congr_right fun hd => by rw [Function.comp, hpq d (hds d hd)]

theorem spectHex_digits (hds : ∀ d ∈ ds, d < 16) :
    spectHex (ds.map hexChar) = ds.map upChar ++
      if ds.any (· ≠ 0) && !ds.any (10 ≤ ·) then [72] else [] := by
  have hmap : (ds.map hexChar).map upper = ds.map upChar := List.map_map
  rw [spectHex, hmap, any_upChar (q := (· ≠ 0)) (by decide) hds,
    any_upChar (q := (10 ≤ ·)) (by decide) hds]
  split
  · rfl
  · rw [List.append_nil]

theorem scanBase_upChar (bp : List Byte) : ∀ d < 16, scanBase (upChar d :: bp) =
    (upChar d :: (scanBase bp).1, decide (10 ≤ d) || (scanBase bp).2.1,
      decide (d = 8 ∨ d = 9) || (scanBase bp).2.2) := fun d hd => by
  interval_cases d <;> rfl

theorem scanBase_digits (hds : ∀ d ∈ ds, d < 16) (tail : List Byte) :
    scanBase (ds.map upChar ++ tail) =
      (ds.map upChar ++ (scanBase tail).1, ds.any (10 ≤ ·) || (scanBase tail).2.1,
        ds.any (fun d => d = 8 ∨ d = 9) || (scanBase tail).2.2) := by
  induction ds with
  | nil => simp
  | cons d ds ih =>
    rw [List.map_cons, List.cons_append, scanBase_upChar _ d (hds d (by simp)),
      ih fun x hx => hds x (by simp [hx])]
    simp [Bool.or_assoc]

/-- The base of a number is decided on, octal if it is 0. -/
theorem scanBase_spectHex (hds : ∀ d ∈ ds, d < 16) (hne : ds ≠ []) :
    ∃ base16 base10, scanBase (spectHex (ds.map hexChar)) = (ds.map upChar, base16, base10) ∧
      ∃ base, 1 < base ∧ base ≤ 16 ∧ (∀ d ∈ ds, d < base) ∧ value base ds = value 16 ds ∧
        (if base16 then 16
          else if base10 = false ∧ (ds.map upChar).head? = some 48 then 8 else 10) = base := by
  rw [spectHex_digits hds, scanBase_digits hds]
  have hmarked : scanBase [72] = ([], true, false) := rfl
  by_cases hzero : ds.any (· ≠ 0)
  · refine ⟨true, ds.any fun d => d = 8 ∨ d = 9, ?_, 16, by decide, le_rfl, hds, rfl, rfl⟩
    cases hletter : ds.any (10 ≤ ·)
    · rw [hzero]
      simp [hmarked]
    · simp [scanBase]
  · obtain ⟨n, rfl⟩ : ∃ n, ds = List.replicate (n + 1) 0 :=
      ⟨ds.length - 1, List.eq_replicate_iff.2
        ⟨by have := List.length_pos_iff.2 hne; omega, by simpa using hzero⟩⟩
    refine ⟨false, false, by simp [scanBase], 8, by decide, by decide, fun d hd => ?_, ?_, rfl⟩
    · rw [List.eq_of_mem_replicate hd]
      decide
    · rw [value_zeros, value_zeros]

theorem number_rest {s rest : List Byte} {x : Int} (h : number base s = some (x, rest)) :
    rest ⊆ s := by
  unfold number at h
  extract_lets negative s₁ s₂ ds at h
  split at h
  · exact nomatch h
  · obtain ⟨-, rfl⟩ := Prod.mk.inj (Option.some.inj h)
    have h₁ : s₁ ⊆ s := by
      dsimp only [s₁]
      split
      · exact List.drop_subset 1 s
      · exact List.Subset.refl s
    have h₂ : s₂ ⊆ s₁ := by
      dsimp only [s₂]
      split
      · exact List.drop_subset 2 s₁
      · exact List.Subset.refl s₁
    exact List.Subset.trans (List.Subset.trans (List.drop_subset _ _) h₂) h₁

/-- Without the separator no more than one number is read. -/
theorem sscanf_single {s : List Byte} {sep : Byte} {fmt : List Directive} (h : sep ∉ s) :
    ¬ 1 < (sscanf wide (.num base none :: .lit sep :: fmt) s).length := by
  simp only [sscanf, Option.getD_none, List.take_length, List.drop_length, List.append_nil]
  split
  · rename_i n rest hnum
    have hsep : rest.head? ≠ some sep := fun hhead => h
      (List.dropWhile_subset _ (number_rest hnum (List.mem_of_head? hhead)))
    simp [hsep]
  · simp

theorem Hexed.plain (h : Hexed t n) : ∀ c ∈ t, c ∉ [dash, dot, colon, comma, hash] := by
  obtain ⟨ds, -, hds, -, rfl, -⟩ := h
  rw [spectHex_digits hds]
  intro c hc
  rcases List.mem_append.1 hc with hc | hc
  · obtain ⟨d, hd, rfl⟩ := List.mem_map.1 hc
    have := upChar_plain d (hds d hd)
    simp only [List.mem_cons, not_or] at this ⊢
    tauto
  · split at hc
    · obtain rfl := List.mem_singleton.1 hc
      decide
    · exact absurd hc List.not_mem_nil

theorem Hexed.length (h : Hexed t n) : t.length ≤ 13 := by
  obtain ⟨ds, -, hds, hlen, rfl, -⟩ := h
  rw [spectHex_digits hds, List.length_append, List.length_map]
  split
  · exact Nat.succ_le_succ hlen
  · exact Nat.le_succ_of_le hlen

theorem Hexed.field (h : Hexed t n) (hfits : n < 256 ^ len) :
    ∃ r, field wide hb t len = some r ∧ r.length = len ∧ big r = n := by
  have hplain := h.plain
  obtain ⟨ds, hne, hds, hlen, rfl, rfl⟩ := h
  have hcount : ∀ base sep fmt, sep ∈ [dash, dot, colon, comma, hash] →
      ¬ 1 < (sscanf wide (.num base none :: .lit sep :: fmt) (spectHex (ds.map hexChar))).length :=
    fun base sep fmt hsep => sscanf_single fun hmem => hplain sep hmem hsep
  have hdash : ¬ 1 < (if (spectHex (ds.map hexChar)).head? = some dash then []
      else sscanf wide (fields 10 dash 5) (spectHex (ds.map hexChar))).length := by
    split
    · exact Nat.not_lt_zero 1
    · exact hcount 10 dash _ (by simp)
  have hdot : ¬ 1 < (sscanf wide (fields 16 dot 6) (spectHex (ds.map hexChar))).length :=
    hcount 16 dot _ (by simp)
  have hcolon : ¬ 1 < (sscanf wide (fields 16 colon 6) (spectHex (ds.map hexChar))).length :=
    hcount 16 colon _ (by simp)
  have hcomma : ¬ 1 < (sscanf wide (fields 16 comma 3) (spectHex (ds.map hexChar))).length :=
    hcount 16 comma _ (by simp)
  rw [Ns.field, if_neg hdash, if_neg hdot, if_neg hcolon, if_neg hcomma]
  obtain ⟨base16, base10, hscan, base, hone, hbase, hlow, hval, hif⟩ := scanBase_spectHex hds hne
  have hpos := List.length_pos_iff.2 hne
  have hclen : min (max (ds.map upChar).length 1) 18 = ds.length := by
    rw [List.length_map]
    omega
  generalize assign _ _ = hb'
  obtain ⟨xs, -, hmap, hxs, hvalue⟩ := @groups_spec base ds wide ((ds.length - 1) / 3) hb'
    hbase hone hlow (by omega) (by omega)
  have hcube : base ^ 3 ≤ 65536 := (Nat.pow_le_pow_left hbase 3).trans (by decide)
  rw [hval] at hvalue
  have hcvt := cvtbase_spec hcube hxs (hvalue.trans_lt hfits)
  rw [hvalue, Nat.cast_pow] at hcvt
  rw [fieldDigits, hscan]
  dsimp only
  rw [hif, hclen, hmap]
  exact hcvt

theorem Hexed.field_bytes (h : Hexed t (big l)) : Ns.field wide hb t l.length = some l := by
  obtain ⟨r, hrun, hlen, hbig⟩ := @Hexed.field l.length (big l) wide t hb h (big_lt l)
  rw [hrun, big_inj hlen hbig]

/-! ## The texts that `ns_ntoa` makes -/

theorem hexDigits_spec {k : Nat} (hk : 0 < k) (h : n < 16 ^ k) :
    hexDigits n ≠ [] ∧ (∀ d ∈ hexDigits n, d < 16) ∧ (hexDigits n).length ≤ k ∧
      value 16 (hexDigits n) = n := by
  by_cases hn : n = 0
  · subst hn
    exact ⟨by decide, by decide, hk, rfl⟩
  · rw [hexDigits, if_neg hn]
    refine ⟨by simpa [Nat.digits_eq_nil_iff_eq_zero] using hn, fun d hd => ?_, ?_, ?_⟩
    · exact Nat.digits_lt_base (by decide) (List.mem_reverse.1 hd)
    · rw [List.length_reverse]
      exact (Nat.digits_length_le_iff (by decide) n).2 h
    · rw [value, List.reverse_reverse, Nat.ofDigits_digits]

theorem hexed_number (h : n < 16 ^ 12) : Hexed (spectHex ((hexDigits n).map hexChar)) n := by
  obtain ⟨hne, hds, hlen, hval⟩ := hexDigits_spec (by decide) h
  exact ⟨_, hne, hds, hlen, rfl, hval⟩

theorem hexed_zeros : Hexed [48] (big (List.replicate 6 0)) :=
  ⟨[0], by decide, by decide, by decide, by decide, by decide⟩

theorem value_byteDigits (l : List Byte) :
    value 16 (l.flatMap byteDigits) = big l ∧ (l.flatMap byteDigits).length = 2 * l.length := by
  induction l with
  | nil => exact ⟨rfl, rfl⟩
  | cons c l ih =>
    obtain ⟨hval, hlen⟩ := ih
    have hcons : big (c :: l) = c.toNat * 256 ^ l.length + big l := by
      rw [big, List.map_cons, value_cons, List.length_map, big]
    refine ⟨?_, by simp [hlen, byteDigits]; omega⟩
    rw [List.flatMap_cons, value_append, hval, hlen, byteDigits, value_cons, value_single, hcons,
      Nat.pow_mul]
    congr 2
    simp
    omega

theorem hexed_bytes {c : Byte} {up : List Byte} (h : up.length ≤ 5) :
    Hexed (spectHex ((hexDigits c.toNat).map hexChar ++
      up.flatMap fun c => (byteDigits c).map hexChar)) (big (c :: up)) := by
  obtain ⟨hne, hds, hlen, hval⟩ := @hexDigits_spec c.toNat 2 (by decide) c.toNat_lt
  obtain ⟨hup, huplen⟩ := value_byteDigits up
  refine ⟨hexDigits c.toNat ++ up.flatMap byteDigits, by simp [hne], fun d hd => ?_, ?_, ?_, ?_⟩
  · rcases List.mem_append.1 hd with hd | hd
    · exact hds d hd
    · obtain ⟨c', -, hd⟩ := List.mem_flatMap.1 hd
      have := c'.toNat_lt
      simp only [byteDigits, List.mem_cons, List.not_mem_nil, or_false] at hd
      omega
  · rw [List.length_append, huplen]
    omega
  · rw [List.map_append, List.map_flatMap]
  · rw [value_append, hval, hup, huplen, Nat.pow_mul, big, big, List.map_cons, value_cons,
      List.length_map]

theorem big_dropWhile (l : List Byte) : big (l.dropWhile (· = 0)) = big l := by
  induction l with
  | nil => rfl
  | cons c l ih =>
    by_cases hc : c = 0
    · rw [List.dropWhile_cons_of_pos (by simpa using hc), ih, hc, big, big, List.map_cons,
        value_cons]
      simp
    · rw [List.dropWhile_cons_of_neg (by simpa using hc)]

/-! ## The fields of a text -/

variable {t₁ t₂ t₃ net host port : List Byte} {junk : Nat → Nat → Int}

theorem Hexed.not_mem (h : Hexed t n) {c : Byte} (hc : c ∈ [dash, dot, colon, comma, hash]) :
    c ∉ t := fun hmem => h.plain c hmem hc

theorem Hexed.cut_end (h : Hexed t n) : cut dot t = (t, none) := by
  have hdot : dot ∉ t := h.not_mem (by simp)
  rw [cut, if_neg hdot, List.takeWhile_eq_self_iff.2 fun c hc => by
    simpa using fun heq : c = dot => hdot (heq ▸ hc)]

theorem Hexed.cut_dot (h : Hexed t n) (s : List Byte) : cut dot (t ++ dot :: s) = (t, some s) := by
  have hdot : dot ∉ t := h.not_mem (by simp)
  have hall : ∀ c ∈ t, (decide (c ≠ dot)) = true := fun c hc => by
    simpa using fun heq : c = dot => hdot (heq ▸ hc)
  rw [cut, if_pos (by simp), List.takeWhile_append_of_pos hall, List.dropWhile_append_of_pos hall]
  simp

def Dotted (s : List Byte) : Prop := hash ∉ s ∧ colon ∉ s

theorem Dotted.separator {s : List Byte} (h : Dotted s) : separator s = dot := by
  simp [Ns.separator, h.1, h.2]

theorem Hexed.dotted (h : Hexed t n) : Dotted t := ⟨h.not_mem (by simp), h.not_mem (by simp)⟩

theorem Dotted.glue {s : List Byte} (h : Dotted t) (hs : Dotted s) : Dotted (t ++ dot :: s) := by
  simp [Dotted, h.1, h.2, hs.1, hs.2, show hash ≠ dot by decide, show colon ≠ dot by decide]

theorem nsAddr_net (hnet : Hexed t₁ (big net)) (h₁ : net.length = 4) :
    nsAddr wide junk t₁ = some (net, List.replicate 6 0, List.replicate 2 0) := by
  have hlen := hnet.length
  have hfield : field wide (junk 0) t₁ 4 = some net := h₁ ▸ hnet.field_bytes
  simp only [nsAddr, List.take_of_length_le (by omega : t₁.length ≤ 49), hnet.dotted.separator,
    hnet.cut_end, hfield]
  rfl

theorem nsAddr_host (hnet : Hexed t₁ (big net)) (hhost : Hexed t₂ (big host))
    (h₁ : net.length = 4) (h₂ : host.length = 6) :
    nsAddr wide junk (t₁ ++ dot :: t₂) = some (net, host, List.replicate 2 0) := by
  have hlen : (t₁ ++ dot :: t₂).length ≤ 49 := by
    have := hnet.length
    have := hhost.length
    simp
    omega
  have hfield : field wide (junk 0) t₁ 4 = some net := h₁ ▸ hnet.field_bytes
  have hfield₂ : field wide (junk 2) t₂ 6 = some host := h₂ ▸ hhost.field_bytes
  simp only [nsAddr, List.take_of_length_le hlen, (hnet.dotted.glue hhost.dotted).separator,
    hnet.cut_dot, hhost.cut_end, hfield, hfield₂]
  rfl

theorem nsAddr_port (hnet : Hexed t₁ (big net)) (hhost : Hexed t₂ (big host))
    (hport : Hexed t₃ (big port)) (h₁ : net.length = 4) (h₂ : host.length = 6)
    (h₃ : port.length = 2) :
    nsAddr wide junk (t₁ ++ dot :: (t₂ ++ dot :: t₃)) = some (net, host, port) := by
  have hlen : (t₁ ++ dot :: (t₂ ++ dot :: t₃)).length ≤ 49 := by
    have := hnet.length
    have := hhost.length
    have := hport.length
    simp
    omega
  have hfield : field wide (junk 0) t₁ 4 = some net := h₁ ▸ hnet.field_bytes
  have hfield₂ : field wide (junk 2) t₂ 6 = some host := h₂ ▸ hhost.field_bytes
  have hfield₃ : field wide (junk 1) t₃ 2 = some port := h₃ ▸ hport.field_bytes
  simp only [nsAddr, List.take_of_length_le hlen,
    (hnet.dotted.glue (hhost.dotted.glue hport.dotted)).separator,
    hnet.cut_dot, hhost.cut_dot, hfield, hfield₂, hfield₃]
  rfl

/-! ## The round trip -/

/-- An address is read back from its text, and `cvtbase` keeps a number that fits. -/
theorem nsAddr_nsNtoa :
    (∀ (addr : NsAddr) (wide : Int → Int) (junk : Nat → Nat → Int),
      nsAddr wide junk (nsNtoa addr) = some (addr.net, addr.host, addr.port)) ∧
    ∀ (oldbase : Nat) (input : List Nat) (reslen : Nat), oldbase ≤ 65536 →
      (∀ d ∈ input, d < oldbase) → value oldbase input < 256 ^ reslen →
      ∃ result, cvtbase oldbase 256 (input.map (↑)) reslen = some result ∧
        result.length = reslen ∧ big result = value oldbase input := by
  refine ⟨fun addr wide junk => ?_, fun _ _ _ => cvtbase_spec⟩
  obtain ⟨net, host, port, h₁, h₂, h₃⟩ := addr
  have hnet : Hexed (spectHex ((hexDigits (big net)).map hexChar)) (big net) :=
    hexed_number ((h₁ ▸ big_lt net).trans_le (by decide))
  have hport : Hexed (spectHex ((hexDigits (big port)).map hexChar)) (big port) :=
    hexed_number ((h₃ ▸ big_lt port).trans_le (by decide))
  have hzero : big port = 0 → port = List.replicate 2 0 := fun h =>
    big_inj (by simpa using h₃) (h.trans (by decide))
  have hhost := big_dropWhile host
  rw [nsNtoa]
  dsimp only
  cases hup : host.dropWhile (· = 0) with
  | nil =>
    rw [hup] at hhost
    obtain rfl : host = List.replicate 6 0 :=
      big_inj (by simpa using h₂) (hhost.symm.trans (by decide))
    by_cases hp : big port = 0
    · rw [if_neg (not_not_intro hp), if_neg (not_not_intro hp), List.append_nil, List.append_nil,
        hzero hp]
      exact nsAddr_net hnet h₁
    · rw [if_pos hp, if_pos hp, List.append_assoc]
      exact nsAddr_port hnet hexed_zeros hport h₁ h₂ h₃
  | cons c up =>
    rw [hup] at hhost
    have hle := (List.dropWhile_suffix (fun c => decide (c = (0 : Byte))) (l := host)).length_le
    rw [hup, h₂, List.length_cons] at hle
    have htext := @hexed_bytes c up (by omega)
    rw [hhost] at htext
    dsimp only
    by_cases hp : big port = 0
    · rw [if_neg (not_not_intro hp), List.append_nil, hzero hp]
      exact nsAddr_host hnet htext h₁ h₂
    · rw [if_pos hp, List.append_assoc, List.cons_append]
      exact nsAddr_port hnet htext hport h₁ h₂ h₃

theorem nsAddr_nsNtoa_two :
    ∃ result, cvtbase 1000 256 ([2, 273].map (↑)) 4 = some result ∧
      result.length = 4 ∧ big result = value 1000 [2, 273] :=
  nsAddr_nsNtoa.2 1000 [2, 273] 4 (by decide) (by decide) (by simp [value, Nat.ofDigits_cons])

end Bsdi.Ns
