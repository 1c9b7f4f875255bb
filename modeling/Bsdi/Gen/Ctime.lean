import Mathlib.Algebra.BigOperators.Group.List.Basic
import Mathlib.Tactic.Linarith

/-!
# Broken-down time

`localsub` and `timesub` of `ctime.c` for a zone without leap seconds, and `mktime` with its binary
search. No operation on an `int` or a `time_t` is taken to overflow.
-/

namespace Bsdi.Ctime

structure Tm where
  sec : Int
  min : Int
  hour : Int
  mday : Int
  mon : Int
  year : Int
  wday : Int
  yday : Int
  isdst : Int
  gmtoff : Int
  deriving DecidableEq, Repr

structure Ttinfo where
  gmtoff : Int
  isdst : Bool
  deriving DecidableEq, Repr

def Ttinfo.dst (ty : Ttinfo) : Int := if ty.isdst then 1 else 0

/-- The transitions and the types that they lead to. -/
structure State where
  ats : List Int
  types : List Nat
  ttis : List Ttinfo
  typed : types.length = ats.length
  types_lt : ∀ i ∈ types, i < ttis.length
  ttis_pos : 0 < ttis.length

def isleap (y : Int) : Bool := (y % 4 == 0 && y % 100 != 0) || y % 400 == 0

def yearLength (y : Int) : Int := if isleap y then 366 else 365

def monLengths (leap : Bool) : List Int :=
  [31, if leap then 29 else 28, 31, 30, 31, 30, 31, 31, 30, 31, 30, 31]

def monLength (leap : Bool) (mon : Int) : Int := (monLengths leap).getD mon.toNat 31

theorem yearLength_pos (y : Int) : 365 ≤ yearLength y ∧ yearLength y ≤ 366 := by
  unfold yearLength
  split <;> omega

theorem monLength_pos (leap : Bool) (mon : Int) : 28 ≤ monLength leap mon := by
  unfold monLength
  rcases lt_or_ge mon.toNat 12 with h | h
  · revert h
    generalize mon.toNat = m
    intro h
    have hall : ∀ leap, ∀ m : Fin 12, 28 ≤ (monLengths leap).getD m.val 31 := by decide
    exact hall leap ⟨m, h⟩
  · rw [List.getD_eq_getElem?_getD, List.getElem?_eq_none h]
    decide

def remUp (days rem : Int) : Int × Int :=
  if rem ≥ 86400 then remUp (days + 1) (rem - 86400) else (days, rem)
termination_by rem.toNat

def remDown (days rem : Int) : Int × Int :=
  if rem < 0 then remDown (days - 1) (rem + 86400) else (days, rem)
termination_by (-rem).toNat

def yearUp (y days : Int) : Int × Int :=
  if days < yearLength y then (y, days) else yearUp (y + 1) (days - yearLength y)
termination_by days.toNat
decreasing_by
  have := yearLength_pos y
  omega

def yearDown (y days : Int) : Int × Int :=
  if days + yearLength (y - 1) < 0 then yearDown (y - 1) (days + yearLength (y - 1))
  else (y - 1, days + yearLength (y - 1))
termination_by (-days).toNat
decreasing_by
  have := yearLength_pos (y - 1)
  omega

def months : List Int → Int → Int × Int
  | [], days => (0, days)
  | len :: rest, days =>
    if days ≥ len then ((months rest (days - len)).1 + 1, (months rest (days - len)).2)
    else (0, days)

def timesub (t offset : Int) : Tm :=
  let down := remDown (t.tdiv 86400) (t.tmod 86400 + offset)
  let (days, rem) := remUp down.1 down.2
  let wday := (4 + days).tmod 7
  let (y, yday) := if days ≥ 0 then yearUp 1970 days else yearDown 1970 days
  let (mon, day) := months (monLengths (isleap y)) yday
  { sec := (rem.tmod 3600).tmod 60
    min := (rem.tmod 3600).tdiv 60
    hour := rem.tdiv 3600
    mday := day + 1
    mon := mon
    year := y - 1900
    wday := if wday < 0 then wday + 7 else wday
    yday := yday
    isdst := 0
    gmtoff := offset }

namespace State

def localType (sp : State) (t : Int) : Nat :=
  match sp.ats with
  | [] => (sp.ttis.findIdx? (!·.isdst)).getD 0
  | first :: rest =>
    if t < first then (sp.ttis.findIdx? (!·.isdst)).getD 0
    else sp.types.getD (rest.takeWhile (· ≤ t)).length 0

def localsub (sp : State) (t : Int) : Tm :=
  let ty := sp.ttis.getD (sp.localType t) ⟨0, false⟩
  { timesub t ty.gmtoff with isdst := ty.dst }

end State

def normalize (tens units base : Int) : Int × Int :=
  let delta := if units ≥ 0 then units.tdiv base else -1 - (-1 - units).tdiv base
  (tens + delta, units - delta * base)

def tmcomp (a b : Tm) : Int :=
  if a.year - b.year ≠ 0 then a.year - b.year
  else if a.mon - b.mon ≠ 0 then a.mon - b.mon
  else if a.mday - b.mday ≠ 0 then a.mday - b.mday
  else if a.hour - b.hour ≠ 0 then a.hour - b.hour
  else if a.min - b.min ≠ 0 then a.min - b.min
  else a.sec - b.sec

/-- The loop for a `tm_mday` that is not positive. -/
def backYears (year mday : Int) : Int × Int :=
  if mday ≤ 0 then backYears (year - 1) (mday + yearLength (year - 1 + 1900)) else (year, mday)
termination_by (1 - mday).toNat
decreasing_by
  have := yearLength_pos (year - 1 + 1900)
  omega

def onYears (year mday : Int) : Int × Int :=
  if mday > 366 then onYears (year + 1) (mday - yearLength (year + 1900)) else (year, mday)
termination_by mday.toNat
decreasing_by
  have := yearLength_pos (year + 1900)
  omega

def onMonths (year mon mday : Int) : Int × Int × Int :=
  let i := monLength (isleap (year + 1900)) mon
  if mday ≤ i then (year, mon, mday)
  else if mon + 1 ≥ 12 then onMonths (year + 1) 0 (mday - i)
  else onMonths year (mon + 1) (mday - i)
termination_by mday.toNat
decreasing_by
  all_goals
    have := monLength_pos (isleap (year + 1900)) mon
    omega

/-- The copy of `time2`, still with its seconds. -/
def normalizeTm (tm : Tm) : Tm :=
  let (min, sec) :=
    if tm.sec ≥ 62 ∨ tm.sec < 0 then normalize tm.min tm.sec 60 else (tm.min, tm.sec)
  let (hour, min) := normalize tm.hour min 60
  let (mday, hour) := normalize tm.mday hour 24
  let (year, mon) := normalize tm.year tm.mon 12
  let (year, mday) := backYears year mday
  let (year, mday) := onYears year mday
  let (year, mday) := onYears year mday
  let (year, mon, mday) := onMonths year mon mday
  { tm with sec := sec, min := min, hour := hour, mday := mday, mon := mon, year := year }

def yourTm (tm : Tm) : Tm := { normalizeTm tm with sec := 0 }

/-- The search, with `bits + 1` for a count that ends at -1. -/
def search (funcp : Int → Tm) (yourtm : Tm) : Nat → Int → Option Int
  | 0, t => if tmcomp (funcp t) yourtm = 0 then some t else none
  | bits + 1, t =>
    let dir := tmcomp (funcp t) yourtm
    if dir = 0 then some t
    else search funcp yourtm bits
      (match bits with
        | 0 => t - 1
        | bits + 1 => if dir > 0 then t - 2 ^ bits else t + 2 ^ bits)

namespace State

def hunt (sp : State) (yourtm : Tm) (t : Int) : Option Int :=
  sp.ttis.findSome? fun ti =>
    if ti.dst ≠ yourtm.isdst then none
    else sp.ttis.findSome? fun tj =>
      if tj.dst = yourtm.isdst then none
      else
        let newt := t + tj.gmtoff - ti.gmtoff
        let mytm := sp.localsub newt
        if tmcomp mytm yourtm ≠ 0 then none
        else if mytm.isdst ≠ yourtm.isdst then none
        else some newt

/-- A `time_t` has 31 bits and a sign. -/
def time2 (sp : State) (tm : Tm) : Option (Int × Tm) :=
  match search sp.localsub (yourTm tm) 32 0 with
  | none => none
  | some t =>
    let found := if (yourTm tm).isdst < 0 ∨ (sp.localsub t).isdst = (yourTm tm).isdst then some t
      else sp.hunt (yourTm tm) t
    let savedSeconds := (normalizeTm tm).sec
    found.map fun t => (t + savedSeconds, sp.localsub (t + savedSeconds))

/-- `time1`, where `tm_isdst` is at most 1. -/
def time1 (sp : State) (tm : Tm) : Int × Tm :=
  match sp.time2 tm with
  | some r => r
  | none =>
    if tm.isdst < 0 then (-1, tm)
    else (sp.ttis.findSome? fun same =>
      if same.dst ≠ tm.isdst then none
      else sp.ttis.findSome? fun other =>
        if other.dst = tm.isdst then none
        else sp.time2 { tm with
          sec := tm.sec + other.gmtoff - same.gmtoff
          isdst := if tm.isdst = 0 then 1 else 0 }).getD (-1, tm)

def mktime (sp : State) (tm : Tm) : Int × Tm :=
  sp.time1 (if tm.isdst > 1 then { tm with isdst := 1 } else tm)

end State

end Bsdi.Ctime
