import Bsdi.Gen.Ctime
import Mathlib.Tactic.Ring

/-!
# What `mktime` returns

Days are counted from 1 January 1970. A whole-year step is right for the first two months, and else
when it does not change whether the year is a leap year.
-/

namespace Bsdi.Ctime

/-! ### The calendar -/

/-- The number of 1 January of the year `y`. -/
def daysBefore (y : Int) : Int :=
  365 * (y - 1970) + (y - 1) / 4 - (y - 1) / 100 + (y - 1) / 400 - 477

@[simp]
theorem daysBefore_epoch : daysBefore 1970 = 0 := by decide

@[simp]
theorem daysBefore_succ (y : Int) : daysBefore (y + 1) = daysBefore y + yearLength y := by
  unfold daysBefore yearLength
  cases h : isleap y with
  | true =>
    simp only [isleap, Bool.or_eq_true, Bool.and_eq_true, beq_iff_eq, bne_iff_ne] at h
    simp only [if_true]
    omega
  | false =>
    simp only [isleap, Bool.or_eq_false_iff, Bool.and_eq_false_iff, beq_eq_false_iff_ne,
      bne_eq_false_iff_eq] at h
    simp only [Bool.false_eq_true, if_false]
    omega

theorem daysBefore_mono {y y' : Int} (h : y ≤ y') : daysBefore y ≤ daysBefore y' := by
  unfold daysBefore
  omega

/-- The days of the months before `mon`. -/
def monthStart (leap : Bool) (mon : Int) : Int := ((monLengths leap).take mon.toNat).sum

theorem fin_of_month {mon : Int} (h : 0 ≤ mon ∧ mon < 12) :
    ∃ m : Fin 12, mon = (m.val : Int) :=
  ⟨⟨mon.toNat, by omega⟩, by simp only; omega⟩

theorem monthStart_le (leap : Bool) {mon mon' : Int} (h : 0 ≤ mon) (hlt : mon < mon')
    (h' : mon' < 12) : monthStart leap mon + monLength leap mon ≤ monthStart leap mon' := by
  obtain ⟨m, rfl⟩ := fin_of_month ⟨h, by omega⟩
  obtain ⟨m', rfl⟩ := fin_of_month ⟨by omega, h'⟩
  have hall : ∀ leap, ∀ m m' : Fin 12, m < m' →
      monthStart leap m.val + monLength leap m.val ≤ monthStart leap m'.val := by decide
  exact hall leap m m' (by exact_mod_cast hlt)

theorem monthStart_succ (leap : Bool) {mon : Int} (h : 0 ≤ mon ∧ mon + 1 < 12) :
    monthStart leap (mon + 1) = monthStart leap mon + monLength leap mon := by
  obtain ⟨m, rfl⟩ := fin_of_month ⟨h.1, by omega⟩
  have hall : ∀ leap, ∀ m : Fin 12,
      monthStart leap (m.val + 1) = monthStart leap m.val + monLength leap m.val ∨
        m.val = 11 := by decide
  exact (hall leap m).resolve_right (by omega)

theorem monthStart_last (y : Int) :
    monthStart (isleap y) 11 + monLength (isleap y) 11 = yearLength y := by
  unfold yearLength
  cases isleap y <;> decide

theorem monthStart_leap {mon : Int} (h : 0 ≤ mon ∧ mon < 12) :
    monthStart true mon = monthStart false mon + if mon < 2 then 0 else 1 := by
  obtain ⟨m, rfl⟩ := fin_of_month h
  have hall : ∀ m : Fin 12,
      monthStart true m.val = monthStart false m.val + if (m.val : Int) < 2 then 0 else 1 := by
    decide
  exact hall m

theorem monthStart_year (y : Int) {mon : Int} (h : 0 ≤ mon ∧ mon < 12) :
    0 ≤ monthStart (isleap y) mon ∧
      monthStart (isleap y) mon + monLength (isleap y) mon ≤ yearLength y := by
  obtain ⟨m, rfl⟩ := fin_of_month h
  have hall : ∀ leap, ∀ m : Fin 12, 0 ≤ monthStart leap m.val ∧
      monthStart leap m.val + monLength leap m.val ≤ if leap then 366 else 365 := by decide
  exact hall (isleap y) m

/-! ### The order of times -/

def dayNumber (year mon mday : Int) : Int :=
  daysBefore year + monthStart (isleap year) mon + (mday - 1)

def Tm.secs (a : Tm) : Int :=
  ((dayNumber (a.year + 1900) a.mon a.mday * 24 + a.hour) * 60 + a.min) * 60 + a.sec

structure Normal (a : Tm) : Prop where
  sec : 0 ≤ a.sec ∧ a.sec < 60
  min : 0 ≤ a.min ∧ a.min < 60
  hour : 0 ≤ a.hour ∧ a.hour < 24
  mon : 0 ≤ a.mon ∧ a.mon < 12
  mday : 1 ≤ a.mday ∧ a.mday ≤ monLength (isleap (a.year + 1900)) a.mon

theorem dayNumber_lt {y mon mday y' mon' mday' : Int} (hmon : 0 ≤ mon ∧ mon < 12)
    (hmday : mday ≤ monLength (isleap y) mon) (hmon' : 0 ≤ mon' ∧ mon' < 12) (hmday' : 1 ≤ mday')
    (h : y < y' ∨ y = y' ∧ (mon < mon' ∨ mon = mon' ∧ mday < mday')) :
    dayNumber y mon mday < dayNumber y' mon' mday' := by
  unfold dayNumber
  rcases h with h | ⟨rfl, h | ⟨rfl, h⟩⟩
  · have hyear := daysBefore_mono (show y + 1 ≤ y' from h)
    rw [daysBefore_succ] at hyear
    have hend := (monthStart_year y hmon).2
    have hstart := (monthStart_year y' hmon').1
    omega
  · have hmonth := monthStart_le (isleap y) hmon.1 h hmon'.2
    omega
  · omega

theorem secs_lt_of_tmcomp {a b : Tm} (ha : Normal a) (hb : Normal b) (h : tmcomp a b < 0) :
    a.secs < b.secs := by
  have hday := @dayNumber_lt (a.year + 1900) a.mon a.mday (b.year + 1900) b.mon b.mday ha.mon
    ha.mday.2 hb.mon hb.mday.1
  obtain ⟨hsec, hmin, hhour, -, -⟩ := ha
  obtain ⟨hsec', hmin', hhour', -, -⟩ := hb
  unfold tmcomp at h
  unfold Tm.secs
  split at h
  · have hlt := hday (by omega)
    omega
  · split at h
    · have hlt := hday (by omega)
      omega
    · split at h
      · have hlt := hday (by omega)
        omega
      · have hyear : a.year = b.year := by omega
        have hmon : a.mon = b.mon := by omega
        have hmday : a.mday = b.mday := by omega
        rw [hyear, hmon, hmday]
        split at h
        · omega
        · split at h <;> omega

theorem tmcomp_neg (a b : Tm) : tmcomp b a = -tmcomp a b := by
  unfold tmcomp
  split_ifs <;> omega

theorem tmcomp_spec {a b : Tm} (ha : Normal a) (hb : Normal b) :
    (tmcomp a b < 0 ↔ a.secs < b.secs) ∧ (tmcomp a b = 0 ↔ a.secs = b.secs) := by
  have hlt := secs_lt_of_tmcomp ha hb
  have hgt := secs_lt_of_tmcomp hb ha
  rw [tmcomp_neg a b] at hgt
  have heq : tmcomp a b = 0 → a.secs = b.secs := by
    intro h
    unfold tmcomp at h
    have hyear : a.year = b.year := by split_ifs at h <;> omega
    have hmon : a.mon = b.mon := by split_ifs at h <;> omega
    have hmday : a.mday = b.mday := by split_ifs at h <;> omega
    have hhour : a.hour = b.hour := by split_ifs at h <;> omega
    have hmin : a.min = b.min := by split_ifs at h <;> omega
    have hsec : a.sec = b.sec := by split_ifs at h <;> omega
    simp only [Tm.secs, hyear, hmon, hmday, hhour, hmin, hsec]
  omega

/-! ### `timesub` -/

theorem remDown_spec (days rem : Int) :
    (remDown days rem).1 * 86400 + (remDown days rem).2 = days * 86400 + rem ∧
      0 ≤ (remDown days rem).2 := by
  fun_induction remDown days rem with
  | case1 days rem h ih => exact ⟨by rw [ih.1]; ring, ih.2⟩
  | case2 days rem h => exact ⟨rfl, by simpa using h⟩

theorem remUp_spec (days rem : Int) (h : 0 ≤ rem) :
    (remUp days rem).1 * 86400 + (remUp days rem).2 = days * 86400 + rem ∧
      0 ≤ (remUp days rem).2 ∧ (remUp days rem).2 < 86400 := by
  fun_induction remUp days rem with
  | case1 days rem hge ih =>
    obtain ⟨heq, hrange⟩ := ih (by omega)
    exact ⟨by rw [heq]; ring, hrange⟩
  | case2 days rem hlt => exact ⟨rfl, h, by simpa using hlt⟩

theorem yearUp_spec (y days : Int) (h : 0 ≤ days) :
    daysBefore (yearUp y days).1 + (yearUp y days).2 = daysBefore y + days ∧
      0 ≤ (yearUp y days).2 ∧ (yearUp y days).2 < yearLength (yearUp y days).1 := by
  fun_induction yearUp y days with
  | case1 y days hlt => exact ⟨rfl, h, hlt⟩
  | case2 y days hge ih =>
    obtain ⟨heq, hrange⟩ := ih (by omega)
    refine ⟨?_, hrange⟩
    rw [heq, daysBefore_succ]
    ring

theorem yearDown_spec (y days : Int) (h : days < 0) :
    daysBefore (yearDown y days).1 + (yearDown y days).2 = daysBefore y + days ∧
      0 ≤ (yearDown y days).2 ∧ (yearDown y days).2 < yearLength (yearDown y days).1 := by
  have hprev : ∀ y, daysBefore (y - 1) + yearLength (y - 1) = daysBefore y := by
    intro y
    rw [← daysBefore_succ, sub_add_cancel]
  fun_induction yearDown y days with
  | case1 y days hlt ih =>
    obtain ⟨heq, hrange⟩ := ih hlt
    refine ⟨?_, hrange⟩
    rw [heq, ← hprev y]
    ring
  | case2 y days hge =>
    refine ⟨?_, by omega, by dsimp only; omega⟩
    dsimp only
    rw [← hprev y]
    ring

theorem months_spec (l : List Int) (days : Int) (h : 0 ≤ days) (hlt : days < l.sum) :
    0 ≤ (months l days).1 ∧ (months l days).1 < l.length ∧
      (l.take (months l days).1.toNat).sum + (months l days).2 = days ∧
      0 ≤ (months l days).2 ∧ (months l days).2 < l.getD (months l days).1.toNat 31 := by
  induction l generalizing days with
  | nil =>
    rw [List.sum_nil] at hlt
    omega
  | cons len rest ih =>
    rw [List.sum_cons] at hlt
    by_cases hge : days ≥ len
    · obtain ⟨hpos, hlen, heq, hday, hlast⟩ := ih (days - len) (by omega) (by omega)
      have hnat : ((months rest (days - len)).1 + 1).toNat =
          (months rest (days - len)).1.toNat + 1 := by omega
      simp only [months, if_pos hge, hnat, List.take_succ_cons, List.sum_cons, List.length_cons,
        List.getD_cons_succ]
      refine ⟨by omega, by push_cast; omega, by omega, hday, hlast⟩
    · simp only [months, if_neg hge, List.length_cons, Int.toNat_zero, List.take_zero,
        List.sum_nil, List.getD_cons_zero]
      exact ⟨le_refl 0, by omega, by omega, h, by omega⟩

theorem timesub_spec (t offset : Int) :
    Normal (timesub t offset) ∧ (timesub t offset).secs = t + offset := by
  have hdiv : t.tdiv 86400 * 86400 + t.tmod 86400 = t := Int.tdiv_mul_add_tmod t 86400
  obtain ⟨hdown, hpos⟩ := remDown_spec (t.tdiv 86400) (t.tmod 86400 + offset)
  obtain ⟨hup, hrem, hrem'⟩ := remUp_spec (remDown (t.tdiv 86400) (t.tmod 86400 + offset)).1
    (remDown (t.tdiv 86400) (t.tmod 86400 + offset)).2 hpos
  unfold timesub
  dsimp only
  generalize remUp (remDown (t.tdiv 86400) (t.tmod 86400 + offset)).1
    (remDown (t.tdiv 86400) (t.tmod 86400 + offset)).2 = r at hup hrem hrem' ⊢
  obtain ⟨days, rem⟩ := r
  dsimp only at hup hrem hrem' ⊢
  have hyear : ∃ y yday, (if days ≥ 0 then yearUp 1970 days else yearDown 1970 days) = (y, yday) ∧
      daysBefore y + yday = days ∧ 0 ≤ yday ∧ yday < yearLength y := by
    by_cases hge : days ≥ 0
    · obtain ⟨heq, hrange⟩ := yearUp_spec 1970 days hge
      exact ⟨_, _, if_pos hge, by rw [heq, daysBefore_epoch, zero_add], hrange⟩
    · obtain ⟨heq, hrange⟩ := yearDown_spec 1970 days (by omega)
      exact ⟨_, _, if_neg hge, by rw [heq, daysBefore_epoch, zero_add], hrange⟩
  obtain ⟨y, yday, hy, hdays, hyday, hlen⟩ := hyear
  have hsum : (monLengths (isleap y)).sum = yearLength y := by
    unfold yearLength
    cases isleap y <;> decide
  obtain ⟨hmon, hmon', hmday, hday, hlast⟩ :=
    months_spec (monLengths (isleap y)) yday hyday (hsum ▸ hlen)
  have hlength : (monLengths (isleap y)).length = 12 := rfl
  rw [hlength] at hmon'
  simp only [hy]
  rw [Int.tdiv_eq_ediv_of_nonneg hrem, Int.tmod_eq_emod_of_nonneg hrem,
    Int.tdiv_eq_ediv_of_nonneg (by omega), Int.tmod_eq_emod_of_nonneg (by omega)]
  refine ⟨⟨by dsimp only; omega, by dsimp only; omega, by dsimp only; omega, ⟨hmon, hmon'⟩, ?_⟩, ?_⟩
  · dsimp only
    rw [sub_add_cancel]
    exact ⟨by omega, hlast⟩
  · have hdate : dayNumber y (months (monLengths (isleap y)) yday).1
        ((months (monLengths (isleap y)) yday).2 + 1) = days := by
      unfold dayNumber monthStart
      omega
    simp only [Tm.secs, sub_add_cancel, hdate]
    omega

theorem localsub_spec {sp : State} {ty : Ttinfo} (h : sp.ttis = [ty]) (t : Int) :
    Normal (sp.localsub t) ∧ (sp.localsub t).secs = t + ty.gmtoff ∧
      (sp.localsub t).isdst = ty.dst := by
  have htypes : ∀ i, sp.types.getD i 0 = 0 := by
    intro i
    rw [List.getD_eq_getElem?_getD]
    cases hi : sp.types[i]? with
    | none => rfl
    | some j =>
      have hj := sp.types_lt j (List.mem_of_getElem? hi)
      rw [h] at hj
      exact Nat.lt_one_iff.1 hj
  have hfirst : (sp.ttis.findIdx? (!·.isdst)).getD 0 = 0 := by
    rw [h]
    cases hdst : ty.isdst <;> simp [List.findIdx?_cons, hdst]
  have hindex : sp.localType t = 0 := by
    unfold State.localType
    split
    · exact hfirst
    · split
      · exact hfirst
      · exact htypes _
  have hty : sp.ttis.getD (sp.localType t) ⟨0, false⟩ = ty := by rw [hindex, h]; rfl
  obtain ⟨hnormal, hsecs⟩ := timesub_spec t ty.gmtoff
  simp only [State.localsub, hty]
  exact ⟨⟨hnormal.sec, hnormal.min, hnormal.hour, hnormal.mon, hnormal.mday⟩, hsecs, trivial⟩

/-! ### The normalised copy -/

theorem normalize_spec (tens units : Int) {base : Int} (h : base = 60 ∨ base = 24 ∨ base = 12) :
    normalize tens units base = (tens + units / base, units % base) := by
  unfold normalize
  split
  · rename_i hpos
    rw [Int.tdiv_eq_ediv_of_nonneg hpos]
    rcases h with rfl | rfl | rfl
    all_goals
      refine Prod.ext rfl ?_
      dsimp only
      omega
  · rename_i hneg
    rw [Int.tdiv_eq_ediv_of_nonneg (by omega)]
    rcases h with rfl | rfl | rfl
    all_goals
      refine Prod.ext ?_ ?_
      · dsimp only
        omega
      · dsimp only
        omega

/-- `y'` is the year to which whole-year steps carry the day `mday`, counted from 1 January of
`y`. -/
def Carried (y mday y' : Int) : Prop :=
  if mday ≤ 0 then daysBefore y' < daysBefore y + mday ∧
    daysBefore y + mday ≤ daysBefore y' + yearLength y'
  else y ≤ y' ∧ daysBefore y' < daysBefore y + mday ∧ daysBefore y + mday ≤ daysBefore y' + 366 ∧
    (y' = y ∨ daysBefore (y' - 1) + 366 < daysBefore y + mday)

theorem Carried.unique {y mday y₁ y₂ : Int} (h₁ : Carried y mday y₁) (h₂ : Carried y mday y₂) :
    y₁ = y₂ := by
  have hle : ∀ {a b}, Carried y mday a → Carried y mday b → b ≤ a := by
    intro a b ha hb
    by_contra hlt
    unfold Carried at ha hb
    split at ha
    · rename_i hneg
      rw [if_pos hneg] at hb
      have hmono := daysBefore_mono (show a + 1 ≤ b by omega)
      rw [daysBefore_succ] at hmono
      omega
    · -- the later year would not have been reached
      rename_i hpos
      rw [if_neg hpos] at hb
      have hmono := daysBefore_mono (show a ≤ b - 1 by omega)
      omega
  exact le_antisymm (hle h₂ h₁) (hle h₁ h₂)

theorem daysBefore_pred (y : Int) : daysBefore (y - 1) + yearLength (y - 1) = daysBefore y := by
  rw [← daysBefore_succ, sub_add_cancel]

theorem backYears_spec (year mday : Int) :
    daysBefore ((backYears year mday).1 + 1900) + (backYears year mday).2 =
        daysBefore (year + 1900) + mday ∧ 0 < (backYears year mday).2 ∧
      if mday ≤ 0 then (backYears year mday).2 ≤ yearLength ((backYears year mday).1 + 1900)
      else backYears year mday = (year, mday) := by
  fun_induction backYears year mday with
  | case1 year mday h ih =>
    obtain ⟨heq, hpos, hlast⟩ := ih
    have hyear : year - 1 + 1900 = year + 1900 - 1 := by ring
    have hprev := daysBefore_pred (year + 1900)
    rw [hyear] at heq hpos hlast ⊢
    refine ⟨by omega, hpos, ?_⟩
    rw [if_pos h]
    split at hlast
    · exact hlast
    · rw [hlast, hyear]
      dsimp only
      omega
  | case2 year mday h => exact ⟨rfl, by simpa using h, by rw [if_neg h]⟩

theorem onYears_spec (year mday : Int) (h : 0 < mday) :
    daysBefore ((onYears year mday).1 + 1900) + (onYears year mday).2 =
        daysBefore (year + 1900) + mday ∧ 0 < (onYears year mday).2 ∧
      (onYears year mday).2 ≤ 366 ∧ year ≤ (onYears year mday).1 ∧
      ((onYears year mday).1 = year ∨
        366 < (onYears year mday).2 + yearLength ((onYears year mday).1 + 1900 - 1)) := by
  fun_induction onYears year mday with
  | case1 year mday hgt ih =>
    have hlen := yearLength_pos (year + 1900)
    have hyear : year + 1 + 1900 = year + 1900 + 1 := by ring
    obtain ⟨heq, hpos, hlast, hle, hyears⟩ := ih (by omega)
    rw [hyear, daysBefore_succ] at heq
    refine ⟨by omega, hpos, hlast, by omega, Or.inr ?_⟩
    rcases hyears with hfirst | hyears
    · have hprev : year + 1 + 1900 - 1 = year + 1900 := by ring
      rw [hfirst, hyear, daysBefore_succ] at heq
      rw [hfirst, hprev]
      omega
    · exact hyears
  | case2 year mday hle => exact ⟨rfl, h, by simpa using hle, le_refl _, Or.inl rfl⟩

theorem years_spec (year mday : Int) : ∃ year' mday',
    onYears (onYears (backYears year mday).1 (backYears year mday).2).1
        (onYears (backYears year mday).1 (backYears year mday).2).2 = (year', mday') ∧
      0 < mday' ∧ daysBefore (year' + 1900) + mday' = daysBefore (year + 1900) + mday ∧
      Carried (year + 1900) mday (year' + 1900) := by
  obtain ⟨hback, hpos, hkind⟩ := backYears_spec year mday
  obtain ⟨hon, hpos', hlast, hle, hyears⟩ :=
    onYears_spec (backYears year mday).1 (backYears year mday).2 hpos
  refine ⟨_, _, by rw [onYears, if_neg (by omega)], hpos', hon.trans hback, ?_⟩
  unfold Carried
  split at hkind
  · rename_i hneg
    have hlen := yearLength_pos ((backYears year mday).1 + 1900)
    have hsame : onYears (backYears year mday).1 (backYears year mday).2 =
        ((backYears year mday).1, (backYears year mday).2) := by
      rw [onYears, if_neg (by omega)]
    rw [if_pos hneg, hsame]
    dsimp only
    omega
  · rename_i hnn
    rw [if_neg hnn]
    rw [hkind] at hon hpos' hlast hle hyears ⊢
    dsimp only at hon hpos' hlast hle hyears ⊢
    have hprev := daysBefore_pred ((onYears year mday).1 + 1900)
    omega

theorem onMonths_spec (year mon mday : Int) (hmon : 0 ≤ mon ∧ mon < 12) (h : 1 ≤ mday) :
    ∃ year' mon' mday', onMonths year mon mday = (year', mon', mday') ∧
      dayNumber (year' + 1900) mon' mday' = dayNumber (year + 1900) mon mday ∧
      (0 ≤ mon' ∧ mon' < 12) ∧ 1 ≤ mday' ∧ mday' ≤ monLength (isleap (year' + 1900)) mon' := by
  fun_induction onMonths year mon mday with
  | case1 year mon mday i hle => exact ⟨year, mon, mday, rfl, rfl, hmon, h, hle⟩
  | case2 year mon mday i hgt hlast ih =>
    obtain ⟨year', mon', mday', heq, hday, hrest⟩ := ih ⟨le_refl 0, by decide⟩ (by omega)
    refine ⟨year', mon', mday', heq, hday.trans ?_, hrest⟩
    obtain rfl : mon = 11 := by omega
    have hyear : year + 1 + 1900 = year + 1900 + 1 := by ring
    have hend := monthStart_last (year + 1900)
    have hzero : monthStart (isleap (year + 1900 + 1)) 0 = 0 := rfl
    unfold dayNumber
    rw [hyear, daysBefore_succ, hzero]
    omega
  | case3 year mon mday i hgt hnext ih =>
    obtain ⟨year', mon', mday', heq, hday, hrest⟩ := ih ⟨by omega, by omega⟩ (by omega)
    refine ⟨year', mon', mday', heq, hday.trans ?_, hrest⟩
    have hend := monthStart_succ (isleap (year + 1900)) (show 0 ≤ mon ∧ mon + 1 < 12 by omega)
    unfold dayNumber
    omega

def Tm.savedSeconds (tm : Tm) : Int := if tm.sec ≥ 62 ∨ tm.sec < 0 then tm.sec % 60 else tm.sec

def Tm.carriedDay (tm : Tm) : Int :=
  tm.mday + (tm.hour + (tm.min + (tm.sec - tm.savedSeconds) / 60) / 60) / 24

def Tm.normalYear (tm : Tm) : Int := tm.year + tm.mon / 12 + 1900

def Tm.normalMon (tm : Tm) : Int := tm.mon % 12

/-- The time of the first of the normalised month, and the days, hours, minutes and seconds. -/
def Tm.wanted (tm : Tm) (ty : Ttinfo) : Int :=
  (((dayNumber tm.normalYear tm.normalMon tm.mday * 24 + tm.hour) * 60 + tm.min) * 60 + tm.sec) -
    ty.gmtoff

theorem savedSeconds_range (tm : Tm) : 0 ≤ tm.savedSeconds ∧ tm.savedSeconds < 62 := by
  unfold Tm.savedSeconds
  split <;> omega

theorem normalMon_range (tm : Tm) : 0 ≤ tm.normalMon ∧ tm.normalMon < 12 := by
  unfold Tm.normalMon
  omega

theorem normalizeTm_spec (tm : Tm) : ∃ y', Carried tm.normalYear tm.carriedDay y' ∧
    (normalizeTm tm).sec = tm.savedSeconds ∧ (yourTm tm).isdst = tm.isdst ∧
    Normal (yourTm tm) ∧ ∀ ty : Ttinfo,
      (yourTm tm).secs + tm.savedSeconds - ty.gmtoff =
        tm.wanted ty + (monthStart (isleap y') tm.normalMon -
          monthStart (isleap tm.normalYear) tm.normalMon) * 86400 := by
  have hsec : (if tm.sec ≥ 62 ∨ tm.sec < 0 then normalize tm.min tm.sec 60 else (tm.min, tm.sec)) =
      (tm.min + (tm.sec - tm.savedSeconds) / 60, tm.savedSeconds) := by
    unfold Tm.savedSeconds
    split
    · rw [normalize_spec _ _ (Or.inl rfl)]
      exact Prod.ext (by dsimp only; omega) rfl
    · exact Prod.ext (by dsimp only; omega) rfl
  have hmon := normalMon_range tm
  obtain ⟨year, mday, hyears, hpos, hdays, hcarried⟩ :=
    years_spec (tm.year + tm.mon / 12) tm.carriedDay
  obtain ⟨year', mon', mday', hmonths, hday, hmon', hmday, hlast⟩ :=
    onMonths_spec year tm.normalMon mday hmon hpos
  have hnormal : normalizeTm tm = { tm with
      sec := tm.savedSeconds
      min := (tm.min + (tm.sec - tm.savedSeconds) / 60) % 60
      hour := (tm.hour + (tm.min + (tm.sec - tm.savedSeconds) / 60) / 60) % 24
      mday := mday', mon := mon', year := year' } := by
    unfold normalizeTm
    rw [hsec]
    dsimp only
    rw [normalize_spec _ _ (Or.inl rfl)]
    dsimp only
    rw [normalize_spec _ _ (Or.inr (Or.inl rfl))]
    dsimp only
    rw [normalize_spec _ _ (Or.inr (Or.inr rfl))]
    dsimp only [Tm.carriedDay, Tm.normalMon] at hyears hmonths ⊢
    rw [hyears]
    dsimp only
    rw [hmonths]
  refine ⟨year + 1900, hcarried, by rw [hnormal], by rw [yourTm, hnormal], ?_, fun ty => ?_⟩
  · rw [yourTm, hnormal]
    exact ⟨⟨le_refl 0, by dsimp only; omega⟩, by dsimp only; omega, by dsimp only; omega, hmon',
      hmday, hlast⟩
  · have hsaved : (tm.sec - tm.savedSeconds) % 60 = 0 := by
      unfold Tm.savedSeconds
      split <;> omega
    simp only [yourTm, hnormal, Tm.secs, Tm.wanted, hday]
    have hday' : dayNumber (year + 1900) tm.normalMon mday + tm.mday =
        dayNumber tm.normalYear tm.normalMon tm.mday + tm.carriedDay +
          (monthStart (isleap (year + 1900)) tm.normalMon -
            monthStart (isleap tm.normalYear) tm.normalMon) := by
      unfold dayNumber
      have hdays' : daysBefore (year + 1900) + mday = daysBefore tm.normalYear + tm.carriedDay :=
        hdays
      omega
    generalize dayNumber (year + 1900) tm.normalMon mday = found at hday'
    generalize dayNumber tm.normalYear tm.normalMon tm.mday = day at hday'
    generalize monthStart (isleap (year + 1900)) tm.normalMon -
      monthStart (isleap tm.normalYear) tm.normalMon = error at hday'
    unfold Tm.carriedDay at hday'
    omega

/-! ### The search -/

theorem search_spec {funcp : Int → Tm} {yourtm : Tm} {off : Int}
    (hf : ∀ t, Normal (funcp t) ∧ (funcp t).secs = t + off) (hyour : Normal yourtm) (bits : Nat)
    (t : Int) : search funcp yourtm (bits + 1) t =
      if t - 2 ^ bits ≤ yourtm.secs - off ∧ yourtm.secs - off < t + 2 ^ bits then
        some (yourtm.secs - off) else none := by
  have hcomp : ∀ t, (tmcomp (funcp t) yourtm < 0 ↔ t < yourtm.secs - off) ∧
      (tmcomp (funcp t) yourtm = 0 ↔ t = yourtm.secs - off) := by
    intro t
    obtain ⟨hlt, heq⟩ := tmcomp_spec (hf t).1 hyour
    rw [hlt, heq, (hf t).2]
    omega
  induction bits generalizing t with
  | zero =>
    obtain ⟨-, heq⟩ := hcomp t
    obtain ⟨-, heq'⟩ := hcomp (t - 1)
    simp only [search, pow_zero]
    by_cases h : t = yourtm.secs - off
    · rw [if_pos (heq.2 h), if_pos (by omega), h]
    · rw [if_neg (fun hc => h (heq.1 hc))]
      by_cases h' : t - 1 = yourtm.secs - off
      · rw [if_pos (heq'.2 h'), if_pos (by omega), h']
      · rw [if_neg (fun hc => h' (heq'.1 hc)), if_neg (by omega)]
  | succ bits ih =>
    obtain ⟨hlt, heq⟩ := hcomp t
    have hpos : (0 : Int) < 2 ^ bits := by positivity
    rw [search]
    by_cases h : t = yourtm.secs - off
    · rw [if_pos (heq.2 h), if_pos (by omega), h]
    · rw [if_neg (fun hc => h (heq.1 hc)), ih]
      refine if_congr ?_ rfl rfl
      split <;> omega

/-- The times of a `time_t`. -/
def Representable (t : Int) : Prop := -2147483648 ≤ t ∧ t < 2147483648

instance (t : Int) : Decidable (Representable t) := inferInstanceAs (Decidable (_ ∧ _))

def Tm.accepts (tm : Tm) (ty : Ttinfo) : Prop :=
  tm.isdst < 0 ∨ (if tm.isdst > 1 then 1 else tm.isdst) = ty.dst

theorem time2_spec {sp : State} {ty : Ttinfo} (h : sp.ttis = [ty]) (tm : Tm) :
    (sp.time2 tm).map Prod.fst =
      if (tm.isdst < 0 ∨ ty.dst = tm.isdst) ∧ Representable ((yourTm tm).secs - ty.gmtoff) then
        some ((yourTm tm).secs - ty.gmtoff + tm.savedSeconds) else none := by
  obtain ⟨-, -, hsec, hisdst, hnormal, -⟩ := normalizeTm_spec tm
  have hsearch := search_spec (fun t => ⟨(localsub_spec h t).1, (localsub_spec h t).2.1⟩) hnormal
    31 0
  have hhunt : ∀ yourtm t, ty.dst ≠ yourtm.isdst → sp.hunt yourtm t = none := by
    intro yourtm t hne
    simp [State.hunt, h, hne]
  unfold State.time2
  dsimp only
  rw [hsearch]
  by_cases hrep : Representable ((yourTm tm).secs - ty.gmtoff)
  · rw [if_pos (by unfold Representable at hrep; omega)]
    dsimp only
    rw [hisdst, hsec, (localsub_spec h _).2.2]
    by_cases hdst : tm.isdst < 0 ∨ ty.dst = tm.isdst
    · rw [if_pos hdst, if_pos ⟨hdst, hrep⟩]
      rfl
    · rw [if_neg hdst, if_neg (fun hc => hdst hc.1),
        hhunt _ _ (by rw [hisdst]; exact fun hc => hdst (Or.inr hc))]
      rfl
  · rw [if_neg (by unfold Representable at hrep; omega), if_neg (fun hc => hrep hc.2)]
    rfl

theorem time1_fst {sp : State} {ty : Ttinfo} (h : sp.ttis = [ty]) (tm : Tm) :
    (sp.time1 tm).1 =
      if (tm.isdst < 0 ∨ ty.dst = tm.isdst) ∧ Representable ((yourTm tm).secs - ty.gmtoff) then
        (yourTm tm).secs - ty.gmtoff + tm.savedSeconds else -1 := by
  have htime2 := time2_spec h tm
  unfold State.time1
  by_cases hfound : (tm.isdst < 0 ∨ ty.dst = tm.isdst) ∧
      Representable ((yourTm tm).secs - ty.gmtoff)
  · rw [if_pos hfound] at htime2 ⊢
    obtain ⟨r, hr, hfst⟩ := Option.map_eq_some_iff.1 htime2
    rw [hr]
    exact hfst
  · rw [if_neg hfound, Option.map_eq_none_iff] at htime2
    rw [htime2, if_neg hfound]
    dsimp only
    split
    · rfl
    · rw [h]
      by_cases hd : ty.dst = tm.isdst <;> simp [hd]

theorem mktime_fst {sp : State} {ty : Ttinfo} (h : sp.ttis = [ty]) (tm : Tm) :
    (tm.accepts ty → Representable ((yourTm tm).secs - ty.gmtoff) →
      (sp.mktime tm).1 = (yourTm tm).secs - ty.gmtoff + tm.savedSeconds) ∧
    (¬ (tm.accepts ty ∧ Representable ((yourTm tm).secs - ty.gmtoff)) →
      (sp.mktime tm).1 = -1) := by
  unfold State.mktime Tm.accepts
  by_cases hgt : tm.isdst > 1
  · have hcut := time1_fst h { tm with isdst := 1 }
    have hsecs : (yourTm { tm with isdst := 1 }).secs = (yourTm tm).secs := rfl
    have hsaved : ({ tm with isdst := 1 } : Tm).savedSeconds = tm.savedSeconds := rfl
    rw [hsecs, hsaved] at hcut
    rw [if_pos hgt, if_pos hgt, hcut]
    constructor
    · intro ha hrep
      exact if_pos ⟨Or.inr (ha.resolve_left (by omega)).symm, hrep⟩
    · intro hfail
      have hnn : ¬ (1 : Int) < 0 := by decide
      exact if_neg fun hc => hfail ⟨Or.inr (hc.1.resolve_left hnn).symm, hc.2⟩
  · rw [if_neg hgt, if_neg hgt, time1_fst h tm]
    constructor
    · intro ha hrep
      exact if_pos ⟨ha.imp_right Eq.symm, hrep⟩
    · intro hfail
      exact if_neg fun hc => hfail ⟨hc.1.imp_right Eq.symm, hc.2⟩

/-- In a zone with one type `mktime` is right when it finds the minute, and whole-year steps have
not changed the day. -/
theorem mktime_iff {sp : State} {ty : Ttinfo} (h : sp.ttis = [ty]) {tm : Tm}
    (hrep : Representable (tm.wanted ty)) : (sp.mktime tm).1 = tm.wanted ty ↔
      tm.accepts ty ∧ Representable (tm.wanted ty - tm.savedSeconds) ∧
          (tm.normalMon < 2 ∨
            ∀ y', Carried tm.normalYear tm.carriedDay y' → isleap y' = isleap tm.normalYear) ∨
        ¬ tm.accepts ty ∧ tm.wanted ty = -1 := by
  obtain ⟨y', hcarried, -, -, -, hwanted⟩ := normalizeTm_spec tm
  obtain ⟨hfound, hfail⟩ := mktime_fst h tm
  have hclock := hwanted ty
  have hsaved := savedSeconds_range tm
  -- months before March do not see the leap day
  have hleap : (tm.normalMon < 2 ∨ ∀ y', Carried tm.normalYear tm.carriedDay y' →
      isleap y' = isleap tm.normalYear) ↔
        monthStart (isleap y') tm.normalMon = monthStart (isleap tm.normalYear) tm.normalMon := by
    have hmonths := monthStart_leap (normalMon_range tm)
    constructor
    · rintro (hmon | hall)
      · rw [if_pos hmon, add_zero] at hmonths
        cases isleap y' <;> cases isleap tm.normalYear <;> simp [hmonths]
      · rw [hall y' hcarried]
    · intro heq
      by_cases hmon : tm.normalMon < 2
      · exact Or.inl hmon
      · refine Or.inr fun y hy => ?_
        rw [if_neg hmon] at hmonths
        rw [hy.unique hcarried]
        by_contra hne
        cases hl : isleap y' <;> cases hl' : isleap tm.normalYear
        all_goals
          rw [hl, hl'] at heq hne
          first | exact hne rfl | omega
  -- at most one day is lost or won, so that a failure is never the wanted -1
  have herror : ∀ a b, monthStart a tm.normalMon - monthStart b tm.normalMon ≤ 1 ∧
      -1 ≤ monthStart a tm.normalMon - monthStart b tm.normalMon := by
    have hmonths := monthStart_leap (normalMon_range tm)
    intro a b
    cases a <;> cases b <;> (split at hmonths <;> omega)
  have herror' := herror (isleap y') (isleap tm.normalYear)
  rw [hleap]
  generalize monthStart (isleap y') tm.normalMon = a at hclock herror' ⊢
  generalize monthStart (isleap tm.normalYear) tm.normalMon = b at hclock herror' ⊢
  generalize (yourTm tm).secs = secs at hfound hfail hclock
  obtain ⟨hmin, hmax⟩ := hrep
  unfold Representable at hfound hfail ⊢
  by_cases ha : tm.accepts ty
  · simp only [ha, not_true_eq_false, false_and, or_false, true_and, true_implies] at hfound hfail ⊢
    by_cases hr : -2147483648 ≤ secs - ty.gmtoff ∧ secs - ty.gmtoff < 2147483648
    · rw [hfound hr]
      omega
    · rw [hfail hr]
      omega
  · rw [hfail (fun hc => ha hc.1)]
    simp only [ha, false_and, not_false_eq_true, true_and, false_or]
    omega

def gmt : State := ⟨[], [], [⟨0, false⟩], rfl, fun _ hi => absurd hi List.not_mem_nil, by decide⟩

/-- 23:59:60 on the last day of February 1996, as the 31st day from the 30th of January. -/
theorem mktime_iff_february : (gmt.mktime ⟨60, 59, 23, 60, 0, 96, 0, 0, -1, 0⟩).1 = 825638400 := by
  have hwanted : (⟨60, 59, 23, 60, 0, 96, 0, 0, -1, 0⟩ : Tm).wanted ⟨0, false⟩ = 825638400 := by
    decide
  have hmktime := (@mktime_iff gmt ⟨0, false⟩ rfl ⟨60, 59, 23, 60, 0, 96, 0, 0, -1, 0⟩
    (hwanted ▸ ⟨by decide, by decide⟩)).2
    (Or.inl ⟨Or.inl (by decide), hwanted ▸ ⟨by decide, by decide⟩, Or.inl (by decide)⟩)
  rw [hmktime, hwanted]

/-- The day before 1 March 1996 is not found: the step back from March takes 365 days. -/
theorem mktime_march : ∃ (sp : State) (ty : Ttinfo) (tm : Tm), sp.ttis = [ty] ∧ tm.accepts ty ∧
    Representable (tm.wanted ty) ∧ (sp.mktime tm).1 = tm.wanted ty - 86400 := by
  let tm : Tm := ⟨0, 0, 0, 0, 2, 96, 0, 0, -1, 0⟩
  obtain ⟨y', hcarried, -, -, -, hclock⟩ := normalizeTm_spec tm
  obtain ⟨hfound, -⟩ := @mktime_fst gmt ⟨0, false⟩ rfl tm
  have hyear : y' = 1995 := by
    refine hcarried.unique ?_
    unfold Carried
    decide
  subst hyear
  have hwanted : tm.wanted ⟨0, false⟩ = 825552000 := by decide
  have hsaved : tm.savedSeconds = 0 := by decide
  have herror : monthStart (isleap 1995) tm.normalMon -
      monthStart (isleap tm.normalYear) tm.normalMon = -1 := by decide
  have hclock := hclock ⟨0, false⟩
  rw [hwanted, hsaved, herror] at hclock
  refine ⟨gmt, ⟨0, false⟩, tm, rfl, Or.inl (by decide), ?_, ?_⟩
  · rw [hwanted]
    exact ⟨by decide, by decide⟩
  · rw [hfound (Or.inl (by decide)) ⟨by omega, by omega⟩, hwanted, hsaved]
    omega

/-- `mktime` finds the time that `localtime` broke down, if the start of its minute is a `time_t`;
else it fails. -/
theorem mktime_localsub {sp : State} {ty : Ttinfo} (h : sp.ttis = [ty]) (t : Int) :
    (sp.mktime (sp.localsub t)).1 =
      if Representable (t - (t + ty.gmtoff) % 60) then t else -1 := by
  obtain ⟨hnormal, hsecs, hdst⟩ := localsub_spec h t
  obtain ⟨hfound, hfail⟩ := mktime_fst h (sp.localsub t)
  obtain ⟨y', hcarried, -, -, -, hwanted⟩ := normalizeTm_spec (sp.localsub t)
  have hwanted := hwanted ty
  generalize sp.localsub t = tm at *
  obtain ⟨hsec, hmin, hhour, hmon, hmday⟩ := hnormal
  have hsaved : tm.savedSeconds = tm.sec := if_neg (by omega)
  have hday : tm.carriedDay = tm.mday := by
    unfold Tm.carriedDay
    omega
  have hyear : tm.normalYear = tm.year + 1900 := by
    unfold Tm.normalYear
    omega
  have hmon' : tm.normalMon = tm.mon := Int.emod_eq_of_lt hmon.1 hmon.2
  -- no year is carried from a normal date
  have hy : y' = tm.normalYear := by
    refine hcarried.unique ?_
    have hrange := monthStart_year (tm.year + 1900) hmon
    have := yearLength_pos (tm.year + 1900)
    unfold Carried
    rw [hday, hyear, if_neg (by omega)]
    omega
  have hall : tm.wanted ty = t := by
    unfold Tm.wanted Tm.secs at *
    rw [hyear, hmon', hsecs]
    omega
  have haccepts : tm.accepts ty := by
    unfold Tm.accepts
    rw [hdst]
    unfold Ttinfo.dst
    split <;> simp
  have hmod : (t + ty.gmtoff) % 60 = tm.sec := by
    unfold Tm.secs at hsecs
    omega
  rw [hy, sub_self, hsaved, hall, zero_mul, add_zero] at hwanted
  rw [hmod]
  split_ifs with hrep
  · have := hfound haccepts (by convert hrep using 1; omega)
    omega
  · exact hfail fun hc => hrep (by convert hc.2 using 1; omega)

theorem mktime_localsub_now : (gmt.mktime (gmt.localsub 825638399)).1 = 825638399 := by
  rw [@mktime_localsub gmt ⟨0, false⟩ rfl 825638399]
  decide

end Bsdi.Ctime
