import Bsdi.Stdio.Input

/-!
# Input and characters that were pushed back

What can be seen of a stream is what is read next and what `ftell` says. It is told here for the
buffers of a stream, and what each operation but `fseek` does to it.
-/

namespace Bsdi.Stdio

open Bsdi.Lib

variable {file : List Byte} {dev : Reader} {s s' s'' : Istream} {n : Nat}

namespace Istream

def pending (s : Istream) : List Byte :=
  match s.ub with
  | some u => slice u.mem u.p u.r
  | none => []

def pos (s : Istream) : Int := s.koff - s.r

def text (file : List Byte) (s : Istream) : List Byte := s.pending ++ file.drop s.pos.toNat

def tell (s : Istream) : Int := s.pos - s.pending.length

end Istream

/-- The buffer has bytes of the file, `d` of them before `_p` and `k` behind it. -/
structure Filled (file : List Byte) (s : Istream) (d k : Nat) : Prop where
  base : s.base = true
  p : s.p = d
  r : s.r = k
  fits : d + k ≤ s.size
  read : d + k ≤ s.koff
  bytes : slice s.mem 0 (d + k) = (file.drop (s.koff - (d + k))).take (d + k)

/-- There was no input yet, and `_p` is null. The buffer is made later, or it was made when there
were characters pushed back, and then only at the start of the file. -/
structure Unread (s : Istream) : Prop where
  p : s.p = -s.addr
  addr : 0 < s.addr
  r : s.r = 0
  start : s.base = true ∨ s.ub.isSome = true → s.koff = 0

/-- What holds of a stream at any time. -/
structure Good (file : List Byte) (s : Istream) : Prop where
  size : 0 < s.size
  addr : s.addr + s.size < 2 ^ 32
  int : s.size < 2 ^ 31
  soff : s.soff = true → s.offset = s.koff
  buffer : Unread s ∨ ∃ d k, Filled file s d k
  eof : s.eof = true → s.ub = none ∧ s.r = 0 ∧ file.length ≤ s.koff
  ub : ∀ u, s.ub = some u → u.p + u.r = u.size ∧ ubufSize ≤ u.size

structure Took (file : List Byte) (s : Istream) (bytes : List Byte) (s' : Istream) : Prop where
  good : Good file s'
  text : s.text file = bytes ++ s'.text file
  tell : s'.tell = s.tell + bytes.length

theorem Took.trans {a b : List Byte} (h : Took file s a s') (h' : Took file s' b s'') :
    Took file s (a ++ b) s'' := by
  refine ⟨h'.good, ?_, ?_⟩
  · rw [h.text, h'.text, List.append_assoc]
  · rw [h'.tell, h.tell, List.length_append]
    omega

theorem Good.refl (h : Good file s) : Took file s [] s := ⟨h, rfl, by simp⟩

theorem Filled.text {d k : Nat} (h : Filled file s d k) :
    file.drop s.pos.toNat = slice s.mem d k ++ file.drop s.koff := by
  have hpos : s.pos.toNat = s.koff - (d + k) + d := by
    have := h.read
    rw [Istream.pos, h.r]
    omega
  have hd : slice s.mem d k = (file.drop s.pos.toNat).take k := by
    have hs := congrArg (List.drop d) h.bytes
    rw [slice_append, List.drop_left' length_slice, Nat.zero_add, List.drop_take, List.drop_drop,
      Nat.add_sub_cancel_left] at hs
    rw [hs, hpos]
  have hk : s.pos.toNat + k = s.koff := by
    have := h.read
    omega
  rw [hd]
  nth_rewrite 1 [← List.take_append_drop k (file.drop s.pos.toNat)]
  rw [List.drop_drop, hk]

/-! ### Taking bytes -/

theorem Good.r_nonneg (h : Good file s) : 0 ≤ s.r := by
  rcases h.buffer with hn | ⟨d, k, hf⟩
  · exact Int.le_of_eq hn.r.symm
  · rw [hf.r]
    exact Int.natCast_nonneg _

theorem Good.avail_nonneg (h : Good file s) : 0 ≤ s.avail := by
  rw [Istream.avail]
  cases hu : s.ub with
  | some u => exact Int.natCast_nonneg _
  | none => exact h.r_nonneg

theorem Good.buffer_ub {ub : Option Ub} (h : Good file s)
    (hub : ub.isSome = true → s.base = true ∨ s.ub.isSome = true ∨ s.koff = 0) :
    Unread { s with ub := ub } ∨ ∃ d k, Filled file { s with ub := ub } d k := by
  rcases h.buffer with hn | ⟨d, k, hf⟩
  · refine .inl ⟨hn.p, hn.addr, hn.r, ?_⟩
    rintro (hb | hu)
    · exact hn.start (.inl hb)
    · rcases hub hu with hb | hu | h0
      · exact hn.start (.inl hb)
      · exact hn.start (.inr hu)
      · exact h0
  · exact .inr ⟨d, k, hf.1, hf.2, hf.3, hf.4, hf.5, hf.6⟩

theorem Good.advance (h : Good file s) (hn : (n : Int) ≤ s.avail) :
    ∃ bytes, s.load n = some bytes ∧ bytes.length = n ∧ Took file s bytes (s.advance n) := by
  cases hu : s.ub with
  | some u =>
    have hn' : n ≤ u.r := by
      simp only [Istream.avail, hu] at hn
      omega
    obtain ⟨m, hm⟩ := Nat.exists_eq_add_of_le hn'
    have hpend : s.pending = slice u.mem u.p n ++ slice u.mem (u.p + n) (u.r - n) := by
      rw [Istream.pending, hu]
      simp only [hm, slice_append, Nat.add_sub_cancel_left]
    have hpend' : (s.advance n).pending = slice u.mem (u.p + n) (u.r - n) := by
      simp [Istream.advance, Istream.pending, hu]
    have hpos : (s.advance n).pos = s.pos := by simp [Istream.advance, Istream.pos, hu]
    refine ⟨slice u.mem u.p n, by simp [Istream.load, hu], length_slice, ⟨?_, ?_, ?_⟩⟩
    · have hub := h.ub u hu
      have heof := h.eof
      simp only [Istream.advance, hu] at heof ⊢
      refine ⟨h.size, h.addr, h.int, h.soff, h.buffer_ub (by simp [hu]), ?_, ?_⟩
      · intro he
        exact absurd (heof he).1 (by simp)
      · rintro _ ⟨⟩
        exact ⟨by simp only; omega, hub.2⟩
    · rw [Istream.text, Istream.text, hpend, hpend', hpos, List.append_assoc]
    · rw [Istream.tell, Istream.tell, hpend, hpend', hpos]
      simp only [List.length_append, length_slice]
      omega
  | none =>
    simp only [Istream.avail, hu] at hn
    rcases h.buffer with hnull | ⟨d, k, hf⟩
    · obtain rfl : n = 0 := by
        rw [hnull.r] at hn
        omega
      have hadv : s.advance 0 = s := by
        cases s
        cases hu
        simp [Istream.advance]
      exact ⟨[], by simp [Istream.load, hu], rfl, hadv.symm ▸ h.refl⟩
    · rw [hf.r] at hn
      have hnk : n ≤ k := by omega
      obtain ⟨m, rfl⟩ := Nat.exists_eq_add_of_le hnk
      have hin : ¬ (0 < n ∧ ((d : Int) < 0 ∨ (s.size : Int) < d + n)) := by
        have := hf.fits
        omega
      have hf' : Filled file (s.advance n) (d + n) m := by
        have hread := hf.read
        have hfits := hf.fits
        have hbytes := hf.bytes
        rw [← Nat.add_assoc] at hread hfits hbytes
        simp only [Istream.advance, hu]
        refine ⟨hf.base, ?_, ?_, hfits, hread, hbytes⟩
        · simp only [hf.p]
          omega
        · simp only [hf.r]
          omega
      have hpend : s.pending = [] := by simp [Istream.pending, hu]
      have hpend' : (s.advance n).pending = [] := by simp [Istream.advance, Istream.pending, hu]
      refine ⟨slice s.mem d n, by simp [Istream.load, hu, hf.p, hin], length_slice, ⟨?_, ?_, ?_⟩⟩
      · refine ⟨?_, ?_, ?_, ?_, .inr ⟨_, _, hf'⟩, ?_, ?_⟩
        all_goals simp only [Istream.advance, hu]
        · exact h.size
        · exact h.addr
        · exact h.int
        · exact h.soff
        · intro he
          have hr := (h.eof he).2.1
          rw [hf.r] at hr
          refine ⟨trivial, ?_, (h.eof he).2.2⟩
          rw [hf.r]
          omega
        · simp
      · rw [Istream.text, Istream.text, hpend, hpend', hf.text, hf'.text, slice_append]
        simp [Istream.advance, hu]
      · rw [Istream.tell, Istream.tell, hpend, hpend']
        simp only [Istream.pos, Istream.advance, hu, length_slice]
        omega

/-! ### Filling the buffer -/

theorem Good.advance_avail (h : Good file s) : (s.advance s.avail.toNat).avail = 0 := by
  have := h.avail_nonneg
  simp only [Istream.avail, Istream.advance] at this ⊢
  cases hu : s.ub with
  | none =>
    simp only [hu] at this ⊢
    omega
  | some u => simp

theorem sread_spec (file : List Byte) (hdev : Delivers dev) (s : Istream) (hsize : 0 < s.size) :
    ∃ c, s.sread file dev = (c, { s with
        mem := store s.mem 0 ((file.drop s.koff).take c), koff := s.koff + c,
        offset := s.offset + c, calls := s.calls + 1 }) ∧ c ≤ s.size ∧ c ≤ file.length - s.koff ∧
      (c = 0 → file.length ≤ s.koff) := by
  refine ⟨_, rfl, ?_⟩
  split
  · rename_i hm
    exact ⟨by omega, by omega, fun _ => by omega⟩
  · rename_i hm
    have hc := hdev s.calls (min s.size (file.length - s.koff)) (by omega)
    exact ⟨by omega, by omega, fun h0 => by omega⟩

theorem Good.fill (hdev : Delivers dev) (h : Good file s) (hu : s.ub = none) (hr : s.r = 0)
    (he : s.eof = false) :
    ∃ ok s', s.fill file dev = (ok, s') ∧ Took file s [] s' ∧ s'.ub = none ∧
      s'.koff - s'.r = s.koff ∧ s'.p = 0 ∧ s'.base = true ∧
      (if ok then 0 < s'.r else s.text file = [] ∧ s'.r = 0) := by
  obtain ⟨c, hread, hcs, hcf, hc0⟩ :=
    sread_spec file hdev { s with base := true, p := 0 } h.size
  simp only at hcs hcf hc0
  let s₁ : Istream := { s with
    base := true, p := 0, mem := store s.mem 0 ((file.drop s.koff).take c), koff := s.koff + c,
    offset := s.offset + c, calls := s.calls + 1, smod := false, r := c }
  have hfill : s.fill file dev =
      if c = 0 then (false, { s₁ with eof := true }) else (true, s₁) := by
    have hs : { (if s.base then s else s.smakebuf) with p := 0 } =
        { s with base := true, p := 0 } := by
      cases s
      cases hu
      rename_i b _ _ _ _ _ _ _ _ _ _ _ _ _ _
      cases b <;> rfl
    simp only [Istream.fill, hs, hread]
    rfl
  have hlen : ((file.drop s.koff).take c).length = c := by
    simp only [List.length_take, List.length_drop]
    omega
  have hf : ∀ e, Filled file { s₁ with eof := e } 0 c := by
    intro e
    refine ⟨rfl, rfl, rfl, by simpa [s₁] using hcs, by simp [s₁], ?_⟩
    simp only [s₁, Nat.zero_add, Nat.add_sub_cancel]
    have hslice : slice (store s.mem 0 ((file.drop s.koff).take c)) 0
      ((file.drop s.koff).take c).length = (file.drop s.koff).take c := slice_store
    rwa [hlen] at hslice
  have hpos : s.pos = s.koff := by rw [Istream.pos, hr, Int.sub_zero]
  have hpos₁ : ∀ e, Istream.pos { s₁ with eof := e } = s.koff := by
    intro e
    simp only [Istream.pos, s₁]
    omega
  have hpend : s.pending = [] := by simp [Istream.pending, hu]
  have hgood : ∀ e, (e = true → c = 0) → Good file { s₁ with eof := e } := by
    intro e he
    refine ⟨h.size, h.addr, h.int, ?_, .inr ⟨0, c, hf e⟩, ?_, ?_⟩
    · intro hs
      have := h.soff hs
      simp only [s₁]
      omega
    · intro hee
      have hc := he hee
      refine ⟨hu, ?_, ?_⟩
      · simp [s₁, hc]
      · exact Nat.le_trans (hc0 hc) (Nat.le_add_right _ _)
    · intro u huu
      simp [s₁, hu] at huu
  have htook : ∀ e, (e = true → c = 0) → Took file s [] { s₁ with eof := e } := by
    intro e he
    have hpend₁ : Istream.pending { s₁ with eof := e } = [] := by simp [Istream.pending, s₁, hu]
    refine ⟨hgood e he, ?_, ?_⟩
    · rw [Istream.text, Istream.text, hpend, hpend₁, hpos, hpos₁]
      rfl
    · rw [Istream.tell, Istream.tell, hpend, hpend₁, hpos, hpos₁]
      simp
  rw [hfill]
  by_cases hc : c = 0
  · rw [if_pos hc]
    refine ⟨false, _, rfl, htook true fun _ => hc, hu, ?_, rfl, rfl, ?_, ?_⟩
    · exact hpos₁ true
    · rw [Istream.text, hpend, hpos]
      simpa using hc0 hc
    · simp [s₁, hc]
  · rw [if_neg hc]
    have heq : s₁ = { s₁ with eof := false } := by simp only [s₁, he]
    refine ⟨true, s₁, rfl, heq ▸ htook false (by simp), hu, ?_, rfl, rfl, ?_⟩
    · exact hpos₁ s₁.eof
    · simp only [s₁, if_true]
      omega

theorem Good.pending_nil (ha : s.avail = 0) : s.pending = [] := by
  rw [Istream.pending]
  cases hu : s.ub with
  | none => rfl
  | some u =>
    simp only [Istream.avail, hu, Int.natCast_eq_zero] at ha
    simp [ha]

theorem Good.dropUb (h : Good file s) (ha : s.avail = 0) (he : s.eof = false) :
    Took file s [] { s with ub := none } := by
  have hpend := Good.pending_nil ha
  have hpend' : Istream.pending { s with ub := none } = [] := rfl
  refine ⟨⟨h.size, h.addr, h.int, h.soff, h.buffer_ub (by simp), by simp [he], by simp⟩, ?_, ?_⟩
  · rw [Istream.text, Istream.text, hpend, hpend']
    rfl
  · rw [Istream.tell, Istream.tell, hpend, hpend']
    simp [Istream.pos]

theorem Good.srefill (hdev : Delivers dev) (h : Good file s) (ha : s.avail = 0) :
    ∃ ok s', s.srefill file dev = (ok, s') ∧ Took file s [] s' ∧
      (if ok then 0 < s'.avail else s.text file = [] ∧ s'.avail = 0) := by
  cases he : s.eof with
  | true =>
    obtain ⟨hu, hr, hlen⟩ := h.eof he
    have hs : { s with r := 0, ub := none } = s := by
      rw [← hr, ← hu]
    refine ⟨false, s, ?_, h.refl, ?_, ha⟩
    · rw [Istream.srefill, if_pos he, hu]
      simp only
      rw [hs]
    · simpa [Istream.text, Istream.pending, Istream.pos, hu, hr] using hlen
  | false =>
    have htook := h.dropUb ha he
    have hrun : s.srefill file dev =
        if s.ub.isSome ∧ s.r ≠ 0 then (true, { s with ub := none })
        else Istream.fill file dev { s with ub := none } := by
      rw [Istream.srefill, if_neg (by simp [he])]
      cases hu : s.ub with
      | none =>
        have hs : { s with ub := none } = s := by rw [← hu]
        simp [hs]
      | some u => simp
    rw [hrun]
    by_cases hr : s.r = 0
    · rw [if_neg (by simp [hr])]
      obtain ⟨ok, s', hfill, htook', hu', -, -, -, hok⟩ := htook.good.fill hdev rfl hr he
      refine ⟨ok, s', hfill, htook.trans htook', ?_⟩
      rw [htook.text]
      simpa [Istream.avail, hu'] using hok
    · cases hu : s.ub with
      | none =>
        simp only [Istream.avail, hu] at ha
        exact absurd ha hr
      | some u =>
        rw [if_pos ⟨rfl, hr⟩]
        refine ⟨true, _, rfl, htook, ?_⟩
        have := h.r_nonneg
        simp only [Istream.avail, if_true]
        omega

/-! ### Reading -/

theorem Good.getc (hdev : Delivers dev) (h : Good file s) :
    ∃ s', s.getc file dev = some ((s.text file).head?, s') ∧
      Took file s ((s.text file).take 1) s' := by
  obtain ⟨ok, s₁, hrun, htook, hok⟩ : ∃ ok s₁,
      (if 0 < s.avail then (true, s) else s.srefill file dev) = (ok, s₁) ∧ Took file s [] s₁ ∧
      (if ok then 0 < s₁.avail else s.text file = [] ∧ s₁.avail = 0) := by
    by_cases ha : 0 < s.avail
    · exact ⟨true, s, if_pos ha, h.refl, ha⟩
    · rw [if_neg ha]
      exact h.srefill hdev (by have := h.avail_nonneg; omega)
  have htext : s.text file = s₁.text file := htook.text
  cases ok with
  | false =>
    simp only [Bool.false_eq_true, if_false] at hok
    refine ⟨s₁, ?_, ?_⟩
    · simp [Istream.getc, hrun, hok.1]
    · simpa [hok.1] using htook
  | true =>
    simp only [if_true] at hok
    obtain ⟨bytes, hload, hlen, hadv⟩ := htook.good.advance (n := 1) (by omega)
    obtain ⟨c, rfl⟩ := List.length_eq_one_iff.1 hlen
    have hcs : s.text file = c :: (s₁.advance 1).text file := by rw [htext, hadv.text]; rfl
    refine ⟨s₁.advance 1, ?_, ?_⟩
    · simp [Istream.getc, hrun, hload, hcs]
    · rw [hcs]
      exact htook.trans hadv

theorem Good.freadLoop (hdev : Delivers dev) {m : Nat} (resid : Nat) (got : List Byte)
    (h : Good file s) (hm : resid + 1 < m ∨ resid < m ∧ 0 < s.avail) :
    ∃ s', Istream.freadLoop file dev m resid got s = some (resid - (s.text file).length,
        got ++ (s.text file).take resid, s') ∧ Took file s ((s.text file).take resid) s' := by
  induction m generalizing resid got s with
  | zero => omega
  | succ m ih =>
    by_cases ha : s.avail < resid
    · have ha0 := h.avail_nonneg
      obtain ⟨bytes, hload, hlen, hadv⟩ := h.advance (n := s.avail.toNat) (by omega)
      obtain ⟨ok, s₁, hrun, htook, hok⟩ := hadv.good.srefill hdev h.advance_avail
      have htook' := hadv.trans htook
      rw [List.append_nil] at htook'
      have hbl : bytes.length ≤ resid := by omega
      cases ok with
      | false =>
        simp only [Bool.false_eq_true, if_false] at hok
        have htext : s.text file = bytes := by rw [hadv.text, hok.1, List.append_nil]
        refine ⟨s₁, ?_, ?_⟩
        · simp [Istream.freadLoop, ha, hload, hrun, htext, List.take_of_length_le hbl, hlen]
        · rw [htext, List.take_of_length_le hbl]
          exact htook'
      | true =>
        simp only [if_true] at hok
        obtain ⟨s₂, hloop, htook₂⟩ :=
          ih (resid - s.avail.toNat) (got ++ bytes) htook.good (by omega)
        have htake : (s.text file).take resid =
            bytes ++ (s₁.text file).take (resid - s.avail.toNat) := by
          rw [htook'.text, List.take_append, List.take_of_length_le hbl, hlen]
        refine ⟨s₂, ?_, ?_⟩
        · rw [Istream.freadLoop, if_pos ha]
          simp only [hload, hrun, Option.bind_eq_bind, Option.bind_some, if_true, hloop]
          rw [htake, htook'.text, List.length_append, hlen, List.append_assoc, Nat.sub_sub]
        · rw [htake]
          exact htook'.trans htook₂
    · obtain ⟨bytes, hload, hlen, hadv⟩ := h.advance (n := resid) (by omega)
      have htake : (s.text file).take resid = bytes := by
        rw [hadv.text, List.take_left' hlen]
      refine ⟨s.advance resid, ?_, ?_⟩
      · rw [Istream.freadLoop, if_neg ha, htake]
        simp only [hload, Option.bind_eq_bind, Option.bind_some, Option.pure_def]
        rw [hadv.text, List.length_append, hlen, Nat.sub_eq_zero_of_le (Nat.le_add_right _ _)]
      · rw [htake]
        exact hadv

/-- The number of objects that `fread` says it read. -/
def objects (size count got : Nat) : Nat :=
  if got = (count * size) % 2 ^ 32 then count else got / size

theorem Good.fread (hdev : Delivers dev) (h : Good file s) {size count : Nat}
    (h0 : (count * size) % 2 ^ 32 ≠ 0) :
    ∃ s', s.fread file dev size count = some (objects size count ((s.text file).take
        ((count * size) % 2 ^ 32)).length, (s.text file).take ((count * size) % 2 ^ 32), s') ∧
      Took file s ((s.text file).take ((count * size) % 2 ^ 32)) s' := by
  rw [Istream.fread, objects]
  generalize (count * size) % 2 ^ 32 = total at h0 ⊢
  obtain ⟨s', hloop, htook⟩ := h.freadLoop hdev (m := total + 2) total [] (by omega)
  refine ⟨s', ?_, htook⟩
  simp only [if_neg h0, hloop, Option.bind_eq_bind, Option.bind_some, Option.pure_def,
    List.nil_append, List.length_take]
  have hmin : total - (total - (s.text file).length) = min total (s.text file).length := by omega
  have hall : total - (s.text file).length = 0 ↔ min total (s.text file).length = total := by omega
  simp only [hmin, hall]

/-! ### Lines -/

def lineOf (x : List Byte) : List Byte := x.take ((Istream.lineLength x).getD x.length)

variable {x y : List Byte} {len : Nat}

theorem lineLength_append : Istream.lineLength (x ++ y) =
    (Istream.lineLength x).or ((Istream.lineLength y).map (· + x.length)) := by
  induction x with
  | nil => cases hy : Istream.lineLength y <;> simp [Istream.lineLength, hy]
  | cons c x ih =>
    simp only [List.cons_append, Istream.lineLength]
    split
    · rfl
    · rw [ih]
      cases Istream.lineLength x with
      | some len => rfl
      | none =>
        cases Istream.lineLength y <;> simp [Nat.add_assoc]

theorem lineLength_le (h : Istream.lineLength x = some len) : len ≤ x.length := by
  induction x generalizing len with
  | nil => simp [Istream.lineLength] at h
  | cons c x ih =>
    rw [Istream.lineLength] at h
    split at h
    · cases h
      simp
    · obtain ⟨k, hk, rfl⟩ := Option.map_eq_some_iff.1 h
      simpa using ih hk

theorem lineOf_append_of_some (h : Istream.lineLength x = some len) :
    lineOf (x ++ y) = x.take len := by
  rw [lineOf, lineLength_append, h, Option.some_or, Option.getD_some,
    List.take_append_of_le_length (lineLength_le h)]

theorem lineOf_append_of_none (h : Istream.lineLength x = none) :
    lineOf (x ++ y) = x ++ lineOf y := by
  rw [lineOf, lineOf, lineLength_append, h, Option.none_or]
  cases Istream.lineLength y with
  | none => rw [Option.map_none, Option.getD_none, Option.getD_none, List.take_length, List.take_length]
  | some len =>
    simp only [Option.map_some, Option.getD_some]
    rw [List.take_append, List.take_of_length_le (by omega), Nat.add_sub_cancel]

theorem srefill_advance (h : Good file s) (ha : 0 < s.avail) :
    s.srefill file dev = (s.advance n).srefill file dev := by
  have he : s.eof = false := by
    cases he : s.eof with
    | false => rfl
    | true =>
      obtain ⟨hu, hr, -⟩ := h.eof he
      simp [Istream.avail, hu, hr] at ha
  cases s
  rename_i b _ _ _ _ _ _ _ _ ub _ _ _ _ _ _
  cases he
  cases ub with
  | some u => rfl
  | none => cases b <;> rfl

theorem Good.takeLine {bytes : List Byte} (h : Good file s) (hlen : bytes.length = s.avail.toNat)
    (hadv : Took file s bytes s') (hline : Istream.lineLength bytes = some len) :
    lineOf (s.text file) = bytes.take len ∧ Took file s (bytes.take len) (s.advance len) := by
  have hle := lineLength_le hline
  obtain ⟨bytes', -, hlen', hadv'⟩ := h.advance (n := len) (by
    have := h.avail_nonneg
    omega)
  have hb : bytes' = bytes.take len := by
    have htk := congrArg (List.take len) (hadv'.text.symm.trans hadv.text)
    rwa [List.take_left' hlen', List.take_append_of_le_length hle] at htk
  rw [hadv.text, lineOf_append_of_some hline]
  exact ⟨rfl, hb ▸ hadv'⟩

theorem Good.lineLoop (hdev : Delivers dev) {m : Nat} (line : List Byte) {t : Istream}
    (h : Good file s) (ha : s.avail = 0) (ht : t.srefill file dev = s.srefill file dev)
    (hm : (s.text file).length < m) :
    ∃ s', Istream.lineLoop file dev m line t = some (some (line ++ lineOf (s.text file)), s') ∧
      Took file s (lineOf (s.text file)) s' := by
  induction m generalizing s t line with
  | zero => omega
  | succ m ih =>
    obtain ⟨ok, s₁, hrun, htook, hok⟩ := h.srefill hdev ha
    have htext : s.text file = s₁.text file := htook.text
    rw [Istream.lineLoop, ht, hrun]
    cases ok with
    | false =>
      simp only [Bool.false_eq_true, if_false] at hok ⊢
      refine ⟨s₁, by simp [hok.1, lineOf], ?_⟩
      simpa [hok.1, lineOf] using htook
    | true =>
      simp only [if_true] at hok ⊢
      obtain ⟨bytes, hload, hlen, hadv⟩ := htook.good.advance (n := s₁.avail.toNat) (by omega)
      have htext' := htext.trans hadv.text
      simp only [hload, Option.bind_eq_bind, Option.bind_some]
      cases hline : Istream.lineLength bytes with
      | some len =>
        obtain ⟨hlo, hadv'⟩ := htook.good.takeLine hlen hadv hline
        rw [htext, hlo]
        exact ⟨s₁.advance len, by simp, htook.trans hadv'⟩
      | none =>
        have hlo : lineOf (s.text file) =
            bytes ++ lineOf ((s₁.advance s₁.avail.toNat).text file) := by
          rw [htext', lineOf_append_of_none hline]
        have hlt : ((s₁.advance s₁.avail.toNat).text file).length < m := by
          rw [htext', List.length_append] at hm
          omega
        obtain ⟨s₂, hloop, htook₂⟩ := ih (line ++ bytes) hadv.good htook.good.advance_avail
          (srefill_advance htook.good hok) hlt
        rw [hlo]
        exact ⟨s₂, by simpa using hloop, (htook.trans hadv).trans htook₂⟩

theorem Good.smod (h : Good file s) (b : Bool) : Took file s [] { s with smod := b } :=
  ⟨⟨h.size, h.addr, h.int, h.soff,
    h.buffer.imp (fun hn => ⟨hn.1, hn.2, hn.3, hn.4⟩)
      fun ⟨d, k, hf⟩ => ⟨d, k, hf.1, hf.2, hf.3, hf.4, hf.5, hf.6⟩, h.eof, h.ub⟩, rfl, by
    simp [Istream.tell, Istream.pos, Istream.pending]⟩

theorem Good.fgetln (hdev : Delivers dev) (h : Good file s) :
    ∃ s', s.fgetln file dev =
        some (if s.text file = [] then none else some (lineOf (s.text file)), s') ∧
      Took file s (lineOf (s.text file)) s' := by
  obtain ⟨ok, s₁, hrun, htook, hok⟩ : ∃ ok s₁,
      (if s.avail ≤ 0 then s.srefill file dev else (true, s)) = (ok, s₁) ∧ Took file s [] s₁ ∧
      (if ok then 0 < s₁.avail else s.text file = [] ∧ s₁.avail = 0) := by
    by_cases ha : s.avail ≤ 0
    · rw [if_pos ha]
      exact h.srefill hdev (by have := h.avail_nonneg; omega)
    · exact ⟨true, s, if_neg ha, h.refl, by simpa using ha⟩
  have htext : s.text file = s₁.text file := htook.text
  rw [Istream.fgetln, hrun]
  cases ok with
  | false =>
    simp only [Bool.false_eq_true, if_false] at hok ⊢
    refine ⟨s₁, by simp [hok.1], ?_⟩
    simpa [hok.1, lineOf] using htook
  | true =>
    simp only [if_true] at hok ⊢
    obtain ⟨bytes, hload, hlen, hadv⟩ := htook.good.advance (n := s₁.avail.toNat) (by omega)
    have htext' := htext.trans hadv.text
    have hne : s.text file ≠ [] := by
      intro hnil
      rw [hnil] at htext'
      have := congrArg List.length htext'
      simp only [List.length_nil, List.length_append] at this
      omega
    rw [if_neg hne]
    simp only [hload, Option.bind_eq_bind, Option.bind_some]
    cases hline : Istream.lineLength bytes with
    | some len =>
      obtain ⟨hlo, hadv'⟩ := htook.good.takeLine hlen hadv hline
      have hall := (htook.trans hadv').trans (hadv'.good.smod true)
      rw [List.append_nil] at hall
      rw [htext, hlo]
      exact ⟨_, by simp, hall⟩
    | none =>
      have hlo : lineOf (s.text file) =
          bytes ++ lineOf ((s₁.advance s₁.avail.toNat).text file) := by
        rw [htext', lineOf_append_of_none hline]
      have hlt : ((s₁.advance s₁.avail.toNat).text file).length < file.length + 3 := by
        rw [Istream.text, Good.pending_nil htook.good.advance_avail]
        simp only [List.nil_append, List.length_drop]
        omega
      obtain ⟨s₂, hloop, htook₂⟩ := hadv.good.lineLoop hdev bytes htook.good.advance_avail
        (srefill_advance htook.good hok) hlt
      rw [hlo]
      exact ⟨s₂, hloop, (htook.trans hadv).trans htook₂⟩

/-! ### Pushing back -/

theorem submore_spec {u : Ub} (hp : u.p + u.r = u.size) (hsize : ubufSize ≤ u.size) :
    ∃ v : Ub, (if u.size ≤ u.r then Istream.submore u else u) = v ∧ v.p + v.r = v.size ∧ 0 < v.p ∧
      v.r = u.r ∧ ubufSize ≤ v.size ∧ slice v.mem v.p v.r = slice u.mem u.p u.r := by
  refine ⟨_, rfl, ?_⟩
  by_cases hr : u.size ≤ u.r
  · rw [if_pos hr]
    have hp0 : u.p = 0 := by omega
    have hrs : u.r = u.size := by omega
    have hstore : ∀ i, slice (store u.mem i (slice u.mem 0 u.size)) i u.size =
        slice u.mem 0 u.size := by
      intro i
      have hslice : slice (store u.mem i (slice u.mem 0 u.size)) i (slice u.mem 0 u.size).length =
        slice u.mem 0 u.size := slice_store
      rwa [length_slice] at hslice
    rw [Istream.submore]
    split
    · rename_i h3
      rw [h3] at hrs hstore
      refine ⟨?_, by simp [ubufSize, bufsiz], rfl, by simp [ubufSize, bufsiz], ?_⟩
      · simp only [hrs]
        rfl
      · simp only [hp0, hrs]
        exact hstore _
    · refine ⟨?_, ?_, rfl, ?_, ?_⟩
      · simp only [hrs]
        omega
      · simp only [ubufSize] at hsize
        simp only
        omega
      · simp only
        omega
      · simp only [hp0, hrs]
        exact hstore _
  · rw [if_neg hr]
    exact ⟨hp, by omega, rfl, hsize, rfl⟩

theorem Good.ungetc (h : Good file s) (hb : s.base = true ∨ s.koff = 0) (c : Byte) :
    Good file (s.ungetc c) ∧ (s.ungetc c).text file = c :: s.text file ∧
      (s.ungetc c).tell = s.tell - 1 := by
  cases hu : s.ub with
  | some u =>
    obtain ⟨hp, hsize⟩ := h.ub u hu
    obtain ⟨v, hv, hvp, hv0, hvr, hvs, hslice⟩ := submore_spec hp hsize
    have heq : s.ungetc c = { s with ub := some { v with
        mem := Function.update v.mem (v.p - 1) c, p := v.p - 1, r := v.r + 1 } } := by
      simp only [Istream.ungetc, hu, hv]
    have hpend : (s.ungetc c).pending = c :: s.pending := by
      rw [heq]
      simp only [Istream.pending, hu, ← hslice]
      rw [slice_cons, Function.update_self, Nat.sub_add_cancel hv0]
      congr 1
      apply slice_congr
      intro k hk _
      exact Function.update_of_ne (by omega) _ _
    have hpos : (s.ungetc c).pos = s.pos := by rw [heq]; rfl
    refine ⟨?_, ?_, ?_⟩
    · rw [heq]
      refine ⟨h.size, h.addr, h.int, h.soff, h.buffer_ub fun _ => hb.imp_right .inr, ?_, ?_⟩
      · intro he
        exact absurd (h.eof he).1 (by simp [hu])
      · rintro _ ⟨⟩
        exact ⟨by simp only; omega, hvs⟩
    · rw [Istream.text, Istream.text, hpend, hpos]
      rfl
    · rw [Istream.tell, Istream.tell, hpend, hpos, List.length_cons]
      omega
  | none =>
    have hpend : s.pending = [] := by simp [Istream.pending, hu]
    by_cases hback : s.base = true ∧ 0 < s.p ∧ s.mem (s.p - 1).toNat = c
    · -- The character is the one before `_p`.
      have heq : s.ungetc c = { s with eof := false, p := s.p - 1, r := s.r + 1 } := by
        simp only [Istream.ungetc, hu]
        exact if_pos hback
      rcases h.buffer with hn | ⟨d, k, hf⟩
      · have hp := hback.2.1
        rw [hn.p] at hp
        omega
      · obtain ⟨d, rfl⟩ : ∃ d', d = d' + 1 := ⟨d - 1, by have := hf.p; have := hback.2.1; omega⟩
        have hf' : Filled file (s.ungetc c) d (k + 1) := by
          have hsum : d + (k + 1) = d + 1 + k := by omega
          rw [heq]
          refine ⟨hf.base, ?_, ?_, ?_, ?_, ?_⟩
          · simp only [hf.p]
            omega
          · simp only [hf.r]
            omega
          · rw [hsum]
            exact hf.fits
          · rw [hsum]
            exact hf.read
          · rw [hsum]
            exact hf.bytes
        have hpend' : (s.ungetc c).pending = [] := by simp [heq, Istream.pending, hu]
        have hc : s.mem d = c := by
          have hm := hback.2.2
          rw [hf.p] at hm
          rw [← hm]
          congr 1
          omega
        refine ⟨?_, ?_, ?_⟩
        · have hb : ∃ d k, Filled file (s.ungetc c) d k := ⟨_, _, hf'⟩
          rw [heq] at hb ⊢
          exact ⟨h.size, h.addr, h.int, h.soff, .inr hb, by simp, by simp [hu]⟩
        · rw [Istream.text, Istream.text, hpend, hpend', hf.text, hf'.text, heq]
          simp only [List.nil_append]
          rw [slice_cons, hc]
          rfl
        · rw [Istream.tell, Istream.tell, hpend, hpend', heq]
          simp only [Istream.pos]
          omega
    · let v : Ub := ⟨Function.update (fun _ => 0) (ubufSize - 1) c, ubufSize, ubufSize - 1, 1⟩
      have heq : s.ungetc c = { s with eof := false, ub := some v } := by
        simp only [Istream.ungetc, hu]
        exact if_neg hback
      have hpend' : (s.ungetc c).pending = [c] := by
        rw [heq]
        simp [Istream.pending, slice, v]
      have hpos : (s.ungetc c).pos = s.pos := by rw [heq]; rfl
      refine ⟨?_, ?_, ?_⟩
      · rw [heq]
        refine ⟨h.size, h.addr, h.int, h.soff, ?_, by simp, ?_⟩
        · exact (h.buffer_ub (fun _ => hb.imp_right .inr)).imp (fun hn => ⟨hn.1, hn.2, hn.3, hn.4⟩)
            fun hf => by
              obtain ⟨d, k, hf⟩ := hf
              exact ⟨d, k, hf.1, hf.2, hf.3, hf.4, hf.5, hf.6⟩
        · rintro _ ⟨⟩
          exact ⟨rfl, Nat.le_refl _⟩
      · rw [Istream.text, Istream.text, hpend, hpend', hpos]
        rfl
      · rw [Istream.tell, Istream.tell, hpend, hpend', hpos]
        simp

end Bsdi.Stdio
