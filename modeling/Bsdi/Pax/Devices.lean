import Bsdi.Pax.Archd

/-!
# Device numbers

The device mapping table of `tables.c`. Formats whose fields are too small map a device to several
new ones, one for each pattern of the inode bits that are lost. The hash table of `DEVT`s is a
function of the device; `malloc` does not fail; `pos` is `lastdev > 0`.
-/

namespace Bsdi.Pax

abbrev Dev := UInt32

abbrev Ino := UInt32

/-- The fields of a member that tell whether files are the same. -/
structure FileId where
  dev : Dev
  ino : Ino
  deriving DecidableEq, Repr

/-- `DLIST`: the new device for one truncation pattern. -/
@[ext]
structure Dlist where
  truncBits : Ino
  dev : Dev
  deriving DecidableEq, Repr

/-- `dtab`, and the `lastdev` of `map_dev`. -/
structure Devs where
  dtab : Dev → Option (List Dlist)
  lastdev : Dev

namespace Devs

def start : Devs := ⟨fun _ => none, 0⟩

/-- `chk_dev(dev, 1)`, and `add_dev`. -/
def addDev (st : Devs) (dev : Dev) : Devs :=
  match st.dtab dev with
  | some _ => st
  | none => { st with dtab := Function.update st.dtab dev (some []) }

def push (st : Devs) (dev : Dev) (d : Dlist) : Devs :=
  { st with dtab := Function.update st.dtab dev (some (d :: (st.dtab dev).getD [])) }

/-- The loop that looks for a device number that is not used. Going on from the largest number it
comes to 0, which ends it. -/
def nextDev (pos : Dev → Bool) (dtab : Dev → Option (List Dlist)) : Nat → Dev → Option Dev
  | 0, _ => none
  | k + 1, lastdev =>
    if lastdev + 1 = 0 || !pos (lastdev + 1) then none
    else if dtab (lastdev + 1) ≠ none then nextDev pos dtab k (lastdev + 1)
    else some (lastdev + 1)

end Devs

/-- The masks of a format, and `lastdev > 0`. -/
structure Format where
  devMask : UInt32
  inoMask : UInt32
  pos : Dev → Bool

def Format.truncBits (fm : Format) (ino : Ino) : Ino :=
  if ino &&& fm.inoMask ≠ ino then ino &&& ~~~fm.inoMask else 0

/-- The end of `map_dev`: a new device for a pattern. Without one there is no result, and the member
is stored as it is. -/
def newDev (fm : Format) (st : Devs) (f : FileId) : Option (FileId × Devs) :=
  match Devs.nextDev fm.pos st.dtab (2 ^ 32 - st.lastdev.toNat) st.lastdev with
  | none => none
  | some lastdev =>
    if lastdev &&& fm.devMask ≠ lastdev then none
    else
      let st := { st.addDev lastdev with lastdev := lastdev }
      some (⟨lastdev, f.ino &&& fm.inoMask⟩, st.push f.dev ⟨fm.truncBits f.ino, lastdev⟩)

/-- The table when a device with truncation is first seen: inodes that do not truncate keep the
device number. -/
def Devs.firstTrunc (fm : Format) (st : Devs) (f : FileId) : Devs :=
  let st := st.addDev f.dev
  if f.dev &&& fm.devMask = f.dev ∧ fm.truncBits f.ino ≠ 0 then st.push f.dev ⟨0, f.dev⟩ else st

/-- `map_dev`: what is stored for a file, or the failure exit. -/
def mapDev (fm : Format) (st : Devs) (f : FileId) : Option (FileId × Devs) :=
  match st.dtab f.dev with
  | some list =>
    match list.find? fun d => d.truncBits = fm.truncBits f.ino with
    | some d => some (⟨d.dev, f.ino &&& fm.inoMask⟩, st)
    | none => newDev fm st f
  | none =>
    if f.ino &&& fm.inoMask = f.ino ∧ f.dev &&& fm.devMask = f.dev then some (f, st)
    else newDev fm (st.firstTrunc fm f) f

def Needs (fm : Format) (st : Devs) (f : FileId) : Prop :=
  match st.dtab f.dev with
  | some list => ∀ d ∈ list, d.truncBits ≠ fm.truncBits f.ino
  | none => ¬ (f.ino &&& fm.inoMask = f.ino ∧ f.dev &&& fm.devMask = f.dev)

/-- All numbers from `lastdev` up to `n` are in the table or are `dev`, and `n` is not. -/
def NextFree (st : Devs) (dev n : Dev) : Prop :=
  st.lastdev.toNat < n.toNat ∧ n ≠ dev ∧ st.dtab n = none ∧
    ∀ k : Dev, st.lastdev.toNat < k.toNat → k.toNat < n.toNat → k = dev ∨ st.dtab k ≠ none

/-- A write phase after the read phase of an append: the table, and what was stored for each file so
far. -/
inductive Stores (fm : Format) (added : List Dev) (ok : Devs → List (FileId × FileId) → FileId → Prop) :
    Devs → List (FileId × FileId) → Prop
  | start : Stores fm added ok (added.foldl Devs.addDev .start) []
  | file {st st' : Devs} {stored : List (FileId × FileId)} {f g : FileId} :
      Stores fm added ok st stored → ok st stored f → mapDev fm st f = some (g, st') →
      Stores fm added ok st' ((f, g) :: stored)

/-- When a file has to get a new number, the next one that is free is not that of a file that is
stored unchanged. -/
def Unused (fm : Format) (st : Devs) (stored : List (FileId × FileId)) (f : FileId) : Prop :=
  Needs fm st f → ∀ x ∈ stored, x.1 = x.2 → ¬ NextFree st f.dev x.1.dev

/-- What is promised: identity is kept, the numbers fit, and none is from before. -/
structure Kept (fm : Format) (added : List Dev) (stored : List (FileId × FileId)) : Prop where
  same : ∀ x ∈ stored, ∀ y ∈ stored, x.2 = y.2 ↔ x.1 = y.1
  fits : ∀ x ∈ stored, x.2.dev &&& fm.devMask = x.2.dev ∧ x.2.ino &&& fm.inoMask = x.2.ino
  fresh : ∀ x ∈ stored, x.2.dev ∉ added

variable {fm : Format} {st st' : Devs} {f g : FileId} {n : Dev} {stored : List (FileId × FileId)}
  {added : List Dev}

theorem truncBits_eq (fm : Format) (ino : Ino) : fm.truncBits ino = ino &&& ~~~fm.inoMask := by
  unfold Format.truncBits
  by_cases h : ino &&& fm.inoMask = ino
  · rw [if_neg (by simpa using h)]
    rw [← h, UInt32.and_assoc]
    simp
  · rw [if_pos h]

theorem ino_eq {i j : Ino} (h : i &&& fm.inoMask = j &&& fm.inoMask)
    (hb : fm.truncBits i = fm.truncBits j) : i = j := by
  have hsplit : ∀ i : Ino, (i &&& fm.inoMask) ||| (i &&& ~~~fm.inoMask) = i := by
    intro i
    apply UInt32.toBitVec_inj.1
    apply BitVec.eq_of_getLsbD_eq
    intro k hk
    simp only [UInt32.toBitVec_or, UInt32.toBitVec_and, UInt32.toBitVec_not, BitVec.getLsbD_or,
      BitVec.getLsbD_and, BitVec.getLsbD_not, hk, decide_true, Bool.true_and]
    cases i.toBitVec.getLsbD k <;> cases fm.inoMask.toBitVec.getLsbD k <;> rfl
  rw [truncBits_eq, truncBits_eq] at hb
  rw [← hsplit i, ← hsplit j, h, hb]

theorem addDev_dtab (st : Devs) (dev d : Dev) :
    (st.addDev dev).dtab d = if d = dev then some ((st.dtab dev).getD []) else st.dtab d := by
  unfold Devs.addDev
  cases h : st.dtab dev with
  | some list =>
    by_cases hd : d = dev
    · simp [hd, h]
    · simp [hd]
  | none => simp [Function.update_apply]

@[simp] theorem addDev_lastdev (st : Devs) (dev : Dev) : (st.addDev dev).lastdev = st.lastdev := by
  unfold Devs.addDev
  cases st.dtab dev <;> rfl

theorem push_dtab (st : Devs) (dev d : Dev) (l : Dlist) :
    (st.push dev l).dtab d = if d = dev then some (l :: (st.dtab dev).getD []) else st.dtab d := by
  simp [Devs.push, Function.update_apply]

theorem nextDev_spec {pos : Dev → Bool} {dtab : Dev → Option (List Dlist)} {k : Nat} {last : Dev}
    (h : Devs.nextDev pos dtab k last = some n) :
    last.toNat < n.toNat ∧ dtab n = none ∧
      ∀ j : Dev, last.toNat < j.toNat → j.toNat < n.toNat → dtab j ≠ none := by
  induction k generalizing last with
  | zero => cases h
  | succ k ih =>
    unfold Devs.nextDev at h
    by_cases hend : (decide (last + 1 = 0) || !pos (last + 1)) = true
    · rw [if_pos hend] at h
      cases h
    rw [if_neg hend] at h
    have hne : last + 1 ≠ 0 := by
      intro h0
      simp [h0] at hend
    have hsucc : (last + 1).toNat = last.toNat + 1 := by
      have hlt := last.toNat_lt
      rw [UInt32.toNat_add]
      by_contra hcon
      apply hne
      apply UInt32.toNat_inj.1
      rw [UInt32.toNat_add]
      simp at hcon ⊢
      omega
    by_cases hin : dtab (last + 1) ≠ none
    · rw [if_pos hin] at h
      obtain ⟨hlt, hnone, hall⟩ := ih h
      refine ⟨by omega, hnone, fun j hj hjn => ?_⟩
      by_cases he : j = last + 1
      · rwa [he]
      · have : j.toNat ≠ (last + 1).toNat := fun h => he (UInt32.toNat_inj.1 h)
        exact hall j (by omega) hjn
    · rw [if_neg hin] at h
      cases h
      refine ⟨by omega, by simpa using hin, fun j hj hjn => ?_⟩
      omega

/-- The table has the new device `n` for the device `d` and the pattern `b`. -/
def Maps (st : Devs) (d : Dev) (b : Ino) (n : Dev) : Prop :=
  ∃ list, st.dtab d = some list ∧ ⟨b, n⟩ ∈ list

def Format.Fits (fm : Format) (f : FileId) : Prop :=
  f.ino &&& fm.inoMask = f.ino ∧ f.dev &&& fm.devMask = f.dev

/-- A file is stored as it is while its device is not in the table, and as the table says then. -/
def StoredAs (fm : Format) (st : Devs) (x : FileId × FileId) : Prop :=
  x.2 = x.1 ∧ fm.Fits x.1 ∧ st.dtab x.1.dev = none ∨
    Maps st x.1.dev (fm.truncBits x.1.ino) x.2.dev ∧ x.2.ino = x.1.ino &&& fm.inoMask

structure DevInv (fm : Format) (added : List Dev) (st : Devs) (stored : List (FileId × FileId)) :
    Prop where
  key : ∀ d b n, Maps st d b n → st.dtab n ≠ none
  inj : ∀ d b d' b' n, Maps st d b n → Maps st d' b' n → d = d' ∧ b = b'
  func : ∀ d b n n', Maps st d b n → Maps st d b n' → n = n'
  fit : ∀ d b n, Maps st d b n → n &&& fm.devMask = n
  fresh : ∀ d b n, Maps st d b n → n ∉ added
  added : ∀ a ∈ added, st.dtab a ≠ none
  stored : ∀ x ∈ stored, StoredAs fm st x

theorem truncBits_of_fits {ino : Ino} (h : ino &&& fm.inoMask = ino) : fm.truncBits ino = 0 := by
  simp [Format.truncBits, h]

theorem maps_push {d dev : Dev} {b : Ino} {l : Dlist} : Maps (st.push dev l) d b n ↔
    Maps st d b n ∨ d = dev ∧ b = l.truncBits ∧ n = l.dev := by
  unfold Maps
  rw [push_dtab]
  by_cases hd : d = dev
  · subst hd
    cases h : st.dtab d with
    | none => simp [Dlist.ext_iff]
    | some list => simp [Dlist.ext_iff, or_comm]
  · simp [hd]

theorem maps_addDev {d dev : Dev} {b : Ino} : Maps (st.addDev dev) d b n ↔ Maps st d b n := by
  unfold Maps
  rw [addDev_dtab]
  by_cases hd : d = dev
  · subst hd
    cases h : st.dtab d <;> simp
  · simp [hd]

theorem added_inv (fm : Format) (added : List Dev) :
    DevInv fm added (added.foldl Devs.addDev .start) [] := by
  have hmaps : ∀ (l : List Dev) (st : Devs) d b n, Maps (l.foldl Devs.addDev st) d b n ↔
      Maps st d b n := by
    intro l
    induction l with
    | nil => exact fun _ _ _ _ => Iff.rfl
    | cons a l ih =>
      intro st d b n
      rw [List.foldl_cons, ih, maps_addDev]
  have hno : ∀ d b n, ¬ Maps (added.foldl Devs.addDev .start) d b n := by
    intro d b n h
    obtain ⟨list, hl, -⟩ := (hmaps added .start d b n).1 h
    cases hl
  have hkeep : ∀ (l : List Dev) (st : Devs) (a : Dev), a ∈ l ∨ st.dtab a ≠ none →
      (l.foldl Devs.addDev st).dtab a ≠ none := by
    intro l
    induction l with
    | nil => exact fun st a h => h.resolve_left (by simp)
    | cons b l ih =>
      intro st a h
      rw [List.foldl_cons]
      apply ih
      rw [addDev_dtab]
      by_cases hab : a = b
      · simp [hab]
      · rcases h with h | h
        · exact .inl ((List.mem_cons.1 h).resolve_left hab)
        · exact .inr (by simpa [hab] using h)
  refine ⟨fun d b n h => absurd h (hno d b n), fun d b _ _ n h => absurd h (hno d b n),
    fun d b n _ h => absurd h (hno d b n), fun d b n h => absurd h (hno d b n),
    fun d b n h => absurd h (hno d b n), fun a ha => hkeep added .start a (.inl ha), ?_⟩
  intro x hx
  cases hx

section extend

variable {stored' : List (FileId × FileId)}

theorem DevInv.grow (h : DevInv fm added st stored)
    (hmaps : ∀ d b k, Maps st' d b k ↔ Maps st d b k)
    (hkeep : ∀ d, st.dtab d ≠ none → st'.dtab d ≠ none)
    (hstored : ∀ x ∈ stored', StoredAs fm st' x) : DevInv fm added st' stored' where
  key d b k hm := hkeep k (h.key d b k ((hmaps d b k).1 hm))
  inj d b d' b' k hm hm' := h.inj d b d' b' k ((hmaps d b k).1 hm) ((hmaps d' b' k).1 hm')
  func d b k k' hm hm' := h.func d b k k' ((hmaps d b k).1 hm) ((hmaps d b k').1 hm')
  fit d b k hm := h.fit d b k ((hmaps d b k).1 hm)
  fresh d b k hm := h.fresh d b k ((hmaps d b k).1 hm)
  added a ha := hkeep a (h.added a ha)
  stored := hstored

theorem DevInv.extend (h : DevInv fm added st stored) {dev : Dev} {bits : Ino}
    (hmaps : ∀ d b k, Maps st' d b k ↔ Maps st d b k ∨ d = dev ∧ b = bits ∧ k = n)
    (hkeep : ∀ d, st.dtab d ≠ none → st'.dtab d ≠ none) (hn : st'.dtab n ≠ none)
    (hnone : st.dtab n = none) (hpat : ∀ k, ¬ Maps st dev bits k) (hfit : n &&& fm.devMask = n)
    (hstored : ∀ x ∈ stored', StoredAs fm st' x) : DevInv fm added st' stored' := by
  have hold : ∀ d b k, Maps st d b k → k ≠ n := by
    rintro d b k hm rfl
    exact h.key d b k hm hnone
  refine ⟨fun d b k hm => ?_, fun d b d' b' k hm hm' => ?_, fun d b k k' hm hm' => ?_,
    fun d b k hm => ?_, fun d b k hm => ?_, fun a ha => hkeep a (h.added a ha), hstored⟩
  · rcases (hmaps d b k).1 hm with hm | ⟨-, -, rfl⟩
    · exact hkeep k (h.key d b k hm)
    · exact hn
  · rcases (hmaps d b k).1 hm with hm | ⟨hd, hb, hk⟩ <;>
      rcases (hmaps d' b' k).1 hm' with hm' | ⟨hd', hb', hk'⟩
    · exact h.inj d b d' b' k hm hm'
    · exact absurd hk' (hold d b k hm)
    · exact absurd hk (hold d' b' k hm')
    · exact ⟨hd.trans hd'.symm, hb.trans hb'.symm⟩
  · rcases (hmaps d b k).1 hm with hm | ⟨hd, hb, hk⟩ <;>
      rcases (hmaps d b k').1 hm' with hm' | ⟨hd', hb', hk'⟩
    · exact h.func d b k k' hm hm'
    · rw [hd', hb'] at hm
      exact absurd hm (hpat k)
    · rw [hd, hb] at hm'
      exact absurd hm' (hpat k')
    · exact hk.trans hk'.symm
  · rcases (hmaps d b k).1 hm with hm | ⟨-, -, rfl⟩
    · exact h.fit d b k hm
    · exact hfit
  · rcases (hmaps d b k).1 hm with hm | ⟨-, -, rfl⟩
    · exact h.fresh d b k hm
    · exact fun ha => h.added _ ha hnone

end extend

theorem fits_of_truncBits {ino : Ino} (h : fm.truncBits ino = 0) : ino &&& fm.inoMask = ino := by
  have hmask : ino &&& fm.inoMask &&& fm.inoMask = ino &&& fm.inoMask := by
    rw [UInt32.and_assoc, UInt32.and_self]
  apply ino_eq hmask
  rw [h, truncBits_eq, UInt32.and_assoc]
  simp

theorem firstTrunc_dtab (st : Devs) (htrunc : ¬ fm.Fits f) (d : Dev) :
    (st.firstTrunc fm f).dtab d = none ↔ st.dtab d = none ∧ d ≠ f.dev := by
  unfold Devs.firstTrunc
  by_cases hfit : f.dev &&& fm.devMask = f.dev
  · have hbits : fm.truncBits f.ino ≠ 0 := fun h0 => htrunc ⟨fits_of_truncBits h0, hfit⟩
    simp only [hfit, hbits, ne_eq, not_false_eq_true, and_self, if_true, push_dtab, addDev_dtab]
    by_cases hd : d = f.dev <;> simp [hd]
  · simp only [hfit, false_and, if_false, addDev_dtab]
    by_cases hd : d = f.dev <;> simp [hd]

theorem DevInv.firstTrunc (h : DevInv fm added st stored) (hdev : st.dtab f.dev = none)
    (htrunc : ¬ fm.Fits f) : DevInv fm added (st.firstTrunc fm f) stored := by
  have hdtab := firstTrunc_dtab st htrunc
  have hkeep : ∀ d, st.dtab d ≠ none → (st.firstTrunc fm f).dtab d ≠ none :=
    fun d hd hn => hd ((hdtab d).1 hn).1
  by_cases hfit : f.dev &&& fm.devMask = f.dev
  · -- the device is mapped to itself for the inodes that do not truncate
    have hbits : fm.truncBits f.ino ≠ 0 := fun h0 => htrunc ⟨fits_of_truncBits h0, hfit⟩
    have hmaps : ∀ d b k, Maps (st.firstTrunc fm f) d b k ↔
        Maps st d b k ∨ d = f.dev ∧ b = 0 ∧ k = f.dev := by
      intro d b k
      simp [Devs.firstTrunc, hfit, hbits, maps_push, maps_addDev]
    refine h.extend hmaps hkeep (fun hn => ((hdtab _).1 hn).2 rfl) hdev ?_ hfit fun x hx => ?_
    · rintro k ⟨list, hl, -⟩
      rw [hdev] at hl
      cases hl
    · rcases h.stored x hx with ⟨heq, hfits, hnone⟩ | ⟨hm, hino⟩
      · by_cases hd : x.1.dev = f.dev
        · right
          rw [heq, hmaps, truncBits_of_fits hfits.1]
          exact ⟨.inr ⟨hd, rfl, hd⟩, hfits.1.symm⟩
        · exact .inl ⟨heq, hfits, (hdtab _).2 ⟨hnone, hd⟩⟩
      · exact .inr ⟨(hmaps _ _ _).2 (.inl hm), hino⟩
  · have hmaps : ∀ d b k, Maps (st.firstTrunc fm f) d b k ↔ Maps st d b k := by
      intro d b k
      simp [Devs.firstTrunc, hfit, maps_addDev]
    refine h.grow hmaps hkeep fun x hx => ?_
    rcases h.stored x hx with ⟨heq, hfits, hnone⟩ | ⟨hm, hino⟩
    · refine .inl ⟨heq, hfits, (hdtab _).2 ⟨hnone, fun hd => hfit ?_⟩⟩
      rw [← hd]
      exact hfits.2
    · exact .inr ⟨(hmaps _ _ _).2 hm, hino⟩

theorem DevInv.newDev (h : DevInv fm added st stored) {list : List Dlist}
    (hdev : st.dtab f.dev = some list) (hno : ∀ d ∈ list, d.truncBits ≠ fm.truncBits f.ino)
    (hnew : newDev fm st f = some (g, st'))
    (hunused : ∀ x ∈ stored, x.1 = x.2 → ¬ NextFree st f.dev x.1.dev) :
    DevInv fm added st' ((f, g) :: stored) := by
  unfold Pax.newDev at hnew
  cases hnext : Devs.nextDev fm.pos st.dtab (2 ^ 32 - st.lastdev.toNat) st.lastdev with
  | none =>
    rw [hnext] at hnew
    cases hnew
  | some n =>
    rw [hnext] at hnew
    simp only at hnew
    by_cases hfit : n &&& fm.devMask = n
    · rw [if_neg (by simpa using hfit)] at hnew
      simp only [Option.some.injEq, Prod.mk.injEq] at hnew
      obtain ⟨hg, rfl⟩ := hnew
      obtain ⟨hlt, hnone, hall⟩ := nextDev_spec hnext
      have hne : n ≠ f.dev := by
        rintro rfl
        rw [hdev] at hnone
        cases hnone
      have hmaps : ∀ d b k, Maps (Devs.push { st.addDev n with lastdev := n } f.dev
          ⟨fm.truncBits f.ino, n⟩) d b k ↔
          Maps st d b k ∨ d = f.dev ∧ b = fm.truncBits f.ino ∧ k = n := by
        intro d b k
        rw [maps_push]
        exact or_congr_left maps_addDev
      have hdtab : ∀ d, (Devs.push { st.addDev n with lastdev := n } f.dev
          ⟨fm.truncBits f.ino, n⟩).dtab d = none ↔ st.dtab d = none ∧ d ≠ n := by
        intro d
        rw [push_dtab]
        simp only [addDev_dtab]
        by_cases hd : d = f.dev
        · simp [hd, hdev]
        · by_cases hdn : d = n
          · simp [hdn, hne]
          · simp [hd, hdn]
      refine h.extend hmaps (fun d hd hn => hd ((hdtab d).1 hn).1)
        (fun hn => ((hdtab n).1 hn).2 rfl) hnone ?_ hfit fun x hx => ?_
      · rintro k ⟨list', hl, hmem⟩
        rw [hdev] at hl
        cases hl
        exact hno _ hmem rfl
      · rcases List.mem_cons.1 hx with rfl | hx
        · rw [← hg]
          exact .inr ⟨(hmaps _ _ _).2 (.inr ⟨rfl, rfl, rfl⟩), rfl⟩
        · rcases h.stored x hx with ⟨heq, hfits, hx'⟩ | ⟨hm, hino⟩
          · refine .inl ⟨heq, hfits, (hdtab _).2 ⟨hx', fun hxn => ?_⟩⟩
            refine hunused x hx heq.symm ?_
            rw [hxn]
            exact ⟨hlt, hne, hnone, fun k hk hkn => .inr (hall k hk hkn)⟩
          · exact .inr ⟨(hmaps _ _ _).2 (.inl hm), hino⟩
    · rw [if_pos hfit] at hnew
      cases hnew

theorem mapDev_inv (h : DevInv fm added st stored) (hunused : Unused fm st stored f)
    (hmap : mapDev fm st f = some (g, st')) : DevInv fm added st' ((f, g) :: stored) := by
  unfold mapDev at hmap
  cases hdev : st.dtab f.dev with
  | some list =>
    rw [hdev] at hmap
    simp only at hmap
    cases hfind : list.find? fun d => d.truncBits = fm.truncBits f.ino with
    | some d =>
      rw [hfind] at hmap
      cases hmap
      have hd : d.truncBits = fm.truncBits f.ino := by simpa using List.find?_some hfind
      refine h.grow (fun _ _ _ => Iff.rfl) (fun _ hd => hd) fun x hx => ?_
      rcases List.mem_cons.1 hx with rfl | hx
      · exact .inr ⟨⟨list, hdev, by rw [← hd]; exact List.mem_of_find?_eq_some hfind⟩, rfl⟩
      · exact h.stored x hx
    | none =>
      rw [hfind] at hmap
      have hno : ∀ d ∈ list, d.truncBits ≠ fm.truncBits f.ino := by
        simpa using List.find?_eq_none.1 hfind
      exact h.newDev hdev hno hmap (hunused (by simpa [Needs, hdev] using hno))
  | none =>
    rw [hdev] at hmap
    simp only at hmap
    by_cases hfits : f.ino &&& fm.inoMask = f.ino ∧ f.dev &&& fm.devMask = f.dev
    · rw [if_pos hfits] at hmap
      cases hmap
      refine h.grow (fun _ _ _ => Iff.rfl) (fun _ hd => hd) fun x hx => ?_
      rcases List.mem_cons.1 hx with rfl | hx
      · exact .inl ⟨rfl, hfits, hdev⟩
      · exact h.stored x hx
    · rw [if_neg hfits] at hmap
      have hfree := hunused (by simpa [Needs, hdev] using hfits)
      have hdtab := firstTrunc_dtab st hfits
      have hlast : (st.firstTrunc fm f).lastdev = st.lastdev := by
        unfold Devs.firstTrunc
        split <;> simp [Devs.push]
      cases hlist : (st.firstTrunc fm f).dtab f.dev with
      | none => exact absurd rfl ((hdtab _).1 hlist).2
      | some list =>
        have hno : ∀ d ∈ list, d.truncBits ≠ fm.truncBits f.ino := by
          intro d hd
          unfold Devs.firstTrunc at hlist
          by_cases hc : f.dev &&& fm.devMask = f.dev ∧ fm.truncBits f.ino ≠ 0
          · simp only [if_pos hc, push_dtab, addDev_dtab, if_true, hdev, Option.getD_none,
              Option.getD_some, Option.some.injEq] at hlist
            rw [← hlist, List.mem_singleton] at hd
            rw [hd]
            exact hc.2.symm
          · simp only [if_neg hc, addDev_dtab, if_true, hdev, Option.getD_none,
              Option.some.injEq] at hlist
            rw [← hlist] at hd
            cases hd
        refine (h.firstTrunc hdev hfits).newDev hlist hno hmap fun x hx heq hnf => ?_
        -- what is free with the device in the table is free but for the device
        obtain ⟨hlt, hne, hnone, hall⟩ := hnf
        rw [hlast] at hlt hall
        refine hfree x hx heq ⟨hlt, hne, ((hdtab _).1 hnone).1, fun k hk hkn => ?_⟩
        rcases hall k hk hkn with hkd | hkn
        · exact .inl hkd
        · by_cases hkd : k = f.dev
          · exact .inl hkd
          · exact .inr fun h0 => hkn ((hdtab k).2 ⟨h0, hkd⟩)

/-- The files of a run keep their identity, as long as no number is handed out that a file has
already. -/
theorem links_kept (fm : Format) (added : List Dev) (st : Devs) (stored : List (FileId × FileId))
    (h : Stores fm added (Unused fm) st stored) : Kept fm added stored := by
  have hinv : DevInv fm added st stored := by
    induction h with
    | start => exact added_inv fm added
    | file _ hok hmap ih => exact mapDev_inv ih hok hmap
  refine ⟨fun x hx y hy => ?_, fun x hx => ?_, fun x hx => ?_⟩
  · constructor
    · intro heq
      rcases hinv.stored x hx with ⟨hxe, -, hxn⟩ | ⟨hxm, hxi⟩ <;>
        rcases hinv.stored y hy with ⟨hye, -, hyn⟩ | ⟨hym, hyi⟩
      · rw [← hxe, ← hye, heq]
      · rw [← hxe, heq] at hxn
        exact absurd hxn (hinv.key _ _ _ hym)
      · rw [← hye, ← heq] at hyn
        exact absurd hyn (hinv.key _ _ _ hxm)
      · rw [heq] at hxm hxi
        obtain ⟨hd, hb⟩ := hinv.inj _ _ _ _ _ hxm hym
        have hi : x.1.ino = y.1.ino := ino_eq (hxi.symm.trans hyi) hb
        cases hx1 : x.1
        cases hy1 : y.1
        rw [hx1, hy1] at hd hi
        simp only at hd hi
        rw [hd, hi]
    · intro heq
      rcases hinv.stored x hx with ⟨hxe, -, hxn⟩ | ⟨hxm, hxi⟩ <;>
        rcases hinv.stored y hy with ⟨hye, -, hyn⟩ | ⟨hym, hyi⟩
      · rw [hxe, hye, heq]
      · obtain ⟨list, hl, -⟩ := hym
        rw [← heq, hxn] at hl
        cases hl
      · obtain ⟨list, hl, -⟩ := hxm
        rw [heq, hyn] at hl
        cases hl
      · rw [heq] at hxm hxi
        have hd := hinv.func _ _ _ _ hxm hym
        have hi : x.2.ino = y.2.ino := hxi.trans hyi.symm
        cases hx2 : x.2
        cases hy2 : y.2
        rw [hx2, hy2] at hd hi
        simp only at hd hi
        rw [hd, hi]
  · rcases hinv.stored x hx with ⟨hxe, hfits, -⟩ | ⟨hm, hi⟩
    · rw [hxe]
      exact ⟨hfits.2, hfits.1⟩
    · refine ⟨hinv.fit _ _ _ hm, ?_⟩
      rw [hi, UInt32.and_assoc, UInt32.and_self]
  · rcases hinv.stored x hx with ⟨hxe, -, hn⟩ | ⟨hm, -⟩
    · rw [hxe]
      exact fun ha => hinv.added _ ha hn
    · exact hinv.fresh _ _ _ hm

def narrow : Format := ⟨0xffff, 0xffff, fun d => 0 < d⟩

theorem links_kept_append : ∃ st, Stores narrow [5] (Unused narrow) st
      [(⟨7, 0x10001⟩, ⟨2, 1⟩), (⟨5, 1⟩, ⟨1, 1⟩)] ∧
    Kept narrow [5] [(⟨7, 0x10001⟩, ⟨2, 1⟩), (⟨5, 1⟩, ⟨1, 1⟩)] := by
  have h₀ : Stores narrow [5] (Unused narrow) _ _ := .start
  have h₁ := h₀.file (f := ⟨5, 1⟩) (g := ⟨1, 1⟩) (fun _ x hx => by cases hx) rfl
  have h₂ := h₁.file (f := ⟨7, 0x10001⟩) (g := ⟨2, 1⟩) (fun _ x hx heq => by
    rw [List.mem_singleton.1 hx] at heq
    cases heq) rfl
  exact ⟨_, h₂, links_kept _ _ _ _ h₂⟩

/-- A file is stored under device 1, and then device 1 is handed out to another one. -/
theorem links_mixed : ∃ st, Stores narrow [] (fun _ _ _ => True) st
      [(⟨7, 0x10005⟩, ⟨1, 5⟩), (⟨1, 5⟩, ⟨1, 5⟩)] ∧
    ¬ Kept narrow [] [(⟨7, 0x10005⟩, ⟨1, 5⟩), (⟨1, 5⟩, ⟨1, 5⟩)] := by
  have h₀ : Stores narrow [] (fun _ _ _ => True) _ _ := .start
  have h₁ := h₀.file (f := ⟨1, 5⟩) (g := ⟨1, 5⟩) trivial rfl
  have h₂ := h₁.file (f := ⟨7, 0x10005⟩) (g := ⟨1, 5⟩) trivial rfl
  refine ⟨_, h₂, fun h => ?_⟩
  have := (h.same (⟨7, 0x10005⟩, ⟨1, 5⟩) (by simp) (⟨1, 5⟩, ⟨1, 5⟩) (by simp)).1 rfl
  exact absurd this (by decide)

end Bsdi.Pax
