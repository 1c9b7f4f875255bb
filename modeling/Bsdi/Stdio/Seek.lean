import Bsdi.Stdio.Reading

/-!
# Input and positions

A stream that is read is the file, a position in it and a stack of characters, whatever its buffers
hold and whichever way `fseek` takes.
-/

namespace Bsdi.Stdio

open Bsdi.Lib

variable {file : List Byte} {dev : Reader} {s s' : Istream} {n : Nat}

theorem Good.sftell (h : Good file s) :
    s.sftell = (s.tell, { s with soff := true, offset := s.koff }) ∧
      Took file s [] { s with soff := true, offset := s.koff } := by
  constructor
  · have hcur : s.curOffset = ((s.koff : Int), { s with soff := true, offset := s.koff }) := by
      rw [Istream.curOffset]
      split
      · rename_i hs
        have ho := h.soff hs
        rw [← ho, ← hs]
      · rfl
    simp only [Istream.sftell, hcur, Istream.tell, Istream.pos, Istream.pending]
    cases hu : s.ub with
    | none => simp
    | some u =>
      simp only [length_slice]
      congr 1
      omega
  · refine ⟨⟨h.size, h.addr, h.int, fun _ => rfl, ?_, h.eof, h.ub⟩, rfl, ?_⟩
    · exact h.buffer.imp (fun hn => ⟨hn.1, hn.2, hn.3, hn.4⟩)
        fun hf => by
          obtain ⟨d, k, hf⟩ := hf
          exact ⟨d, k, hf.1, hf.2, hf.3, hf.4, hf.5, hf.6⟩
    · simp [Istream.tell, Istream.pos, Istream.pending]

theorem Good.makebuf (h : Good file s) :
    ∃ s₁, (if s.base then s else s.smakebuf) = s₁ ∧ Took file s [] s₁ ∧ s₁.base = true := by
  refine ⟨_, rfl, ?_⟩
  by_cases hb : s.base = true
  · rw [if_pos hb]
    exact ⟨h.refl, hb⟩
  · rw [if_neg hb]
    have hn := h.buffer.resolve_right fun ⟨d, k, hf⟩ => hb hf.base
    cases hu : s.ub with
    | none =>
      have heq : s.smakebuf = { s with base := true, p := 0 } := by
        simp only [Istream.smakebuf, hu]
      rw [heq]
      refine ⟨⟨⟨h.size, h.addr, h.int, h.soff, .inr ⟨0, 0, ?_⟩, h.eof, h.ub⟩, rfl, ?_⟩, rfl⟩
      · exact ⟨rfl, rfl, hn.r, Nat.zero_le _, Nat.zero_le _, by simp⟩
      · simp [Istream.tell, Istream.pos, Istream.pending]
    | some u =>
      have heq : s.smakebuf = { s with base := true } := by
        simp only [Istream.smakebuf, hu]
      rw [heq]
      have hk : s.koff = 0 := hn.start (.inr (by simp [hu]))
      have hn' : Unread { s with base := true } := ⟨hn.p, hn.addr, hn.r, fun _ => hk⟩
      refine ⟨⟨⟨h.size, h.addr, h.int, h.soff, .inl hn', h.eof, h.ub⟩, rfl, ?_⟩, rfl⟩
      simp [Istream.tell, Istream.pos, Istream.pending]

/-- The stream is at a place of the file, and nothing is pushed back. -/
structure Sought (file : List Byte) (target : Int) (s : Istream) : Prop where
  good : Good file s
  ub : s.ub = none
  pos : s.pos = target

variable {target : Int}

theorem Good.dumbSeek (h : Good file s) (hb : s.base = true) (ht : 0 ≤ target) :
    Sought file target (s.dumbSeek target) := by
  have hk : ((s.dumbSeek target).koff : Int) = target := Int.toNat_of_nonneg ht
  refine ⟨⟨h.size, h.addr, h.int, fun _ => hk.symm, .inr ⟨0, 0, ?_⟩, ?_, ?_⟩, rfl, ?_⟩
  · exact ⟨hb, rfl, rfl, Nat.zero_le _, Nat.zero_le _, by simp⟩
  · intro he
    simp [Istream.dumbSeek, Istream.discard] at he
  · intro u hu
    simp [Istream.dumbSeek, Istream.discard] at hu
  · rw [Istream.pos, hk]
    exact Int.sub_zero _

theorem Good.blockSeek (hdev : Delivers dev) (h : Good file s) (hb : s.base = true)
    (ht : 0 ≤ target) : Sought file target (s.blockSeek file dev target) := by
  have ha : (Istream.alignDown target.toNat s.blksize : Int) ≤ target := by
    have : Istream.alignDown target.toNat s.blksize ≤ target.toNat := Nat.sub_le _ _
    omega
  have hs : Sought file (Istream.alignDown target.toNat s.blksize) (s.dumbSeek _) :=
    h.dumbSeek hb (Int.natCast_nonneg _)
  rw [Istream.blockSeek]
  generalize (Istream.alignDown target.toNat s.blksize : Int) = curoff at ha hs ⊢
  change Sought file curoff (s.sseek curoff).discard at hs
  have hb₁ : (s.sseek curoff).discard.base = true := hb
  have hr₁ : (s.sseek curoff).discard.r = 0 := rfl
  have he₁ : (s.sseek curoff).discard.eof = false := rfl
  generalize (s.sseek curoff).discard = s₁ at hs hb₁ hr₁ he₁ ⊢
  simp only
  split
  · exact ⟨hs.good, hs.ub, by rw [hs.pos]; omega⟩
  · obtain ⟨ok, s₂, hrun, htook, hu, hk, hp, hb₂, hok⟩ := hs.good.fill hdev hs.ub hr₁ he₁
    have hrefill : s₁.srefill file dev = (ok, s₂) := by
      rw [Istream.srefill, if_neg (by simp [he₁]), hs.ub]
      exact hrun
    rw [hrefill]
    simp only
    split
    · exact htook.good.dumbSeek hb₂ ht
    · rename_i hshort
      have hpos := hs.pos
      rw [Istream.pos, hr₁] at hpos
      have hn : ((target - curoff).toNat : Int) = target - curoff := by omega
      obtain ⟨bytes, -, -, hadv⟩ := htook.good.advance (n := (target - curoff).toNat) (by
        simp only [Istream.avail, hu]
        omega)
      have heq : s₂.advance (target - curoff).toNat =
          { s₂ with p := s₂.p + (target - curoff), r := s₂.r - (target - curoff) } := by
        simp only [Istream.advance, hu, hn]
      rw [heq] at hadv
      refine ⟨hadv.good, hu, ?_⟩
      simp only [Istream.pos]
      omega

theorem Good.optSeek (hdev : Delivers dev) (h : Good file s) (hb : s.base = true) (ht : 0 ≤ target)
    : Sought file target (s.optSeek file dev target s.tell) := by
  have hcur : s.tell + s.pushed = s.pos := by
    rw [Istream.tell, Istream.pending, Istream.pushed]
    cases s.ub <;> simp
  rw [Istream.optSeek]
  simp only [hcur]
  split
  · rename_i hin
    obtain ⟨-, hlow, hhigh⟩ := hin
    have hsize := h.addr
    have hint := h.int
    rcases h.buffer with ⟨hp, haddr, hr, hstart⟩ | ⟨d, k, hf⟩
    · -- Only the start of the file is in reach of the null pointer.
      have hk := hstart (.inl hb)
      have hn : s.p % 2 ^ 32 = 2 ^ 32 - s.addr := by
        rw [hp]
        omega
      have hpos : s.pos = 0 := by rw [Istream.pos, hr, hk]; rfl
      rw [hn, hpos] at hlow
      rw [hn, hr, hpos] at hhigh ⊢
      have ht0 : target = 0 := by omega
      subst ht0
      have hp' : ((s.addr : Int) + (0 - (0 - (2 ^ 32 - (s.addr : Int))))) % 2 ^ 32 - s.addr =
          -s.addr := by
        omega
      have hr' : ((2 : Int) ^ 32 - s.addr + 0) % 2 ^ 32 -
          (0 - (0 - (2 ^ 32 - (s.addr : Int)))) = 0 := by
        omega
      rw [hp', hr', Int.zero_bmod]
      refine ⟨⟨h.size, h.addr, h.int, h.soff, .inl ?_, by simp, by simp⟩, rfl, ?_⟩
      · exact ⟨rfl, haddr, rfl, fun _ => hk⟩
      · simp [Istream.pos, hk]
    · have hfits := hf.fits
      have hn : s.p % 2 ^ 32 = d := by
        rw [hf.p]
        omega
      have hpos : s.pos = s.koff - k := by rw [Istream.pos, hf.r]
      have hn' : ((d : Int) + k) % 2 ^ 32 = d + k := by omega
      rw [hn, hpos] at hlow
      rw [hn, hf.r, hpos, hn'] at hhigh ⊢
      obtain ⟨o, ho⟩ : ∃ o : Nat, target - (s.koff - k - d) = o :=
        ⟨(target - (s.koff - k - d)).toNat, by omega⟩
      obtain ⟨m, hm⟩ : ∃ m : Nat, (d : Int) + k - o = m := ⟨((d : Int) + k - o).toNat, by omega⟩
      have hp' : ((s.addr : Int) + o) % 2 ^ 32 - s.addr = o := by omega
      have hr' : (m : Int).bmod (2 ^ 32) = m := by
        rw [Int.bmod_eq_of_le] <;> omega
      rw [ho, hm, hp', hr']
      have hsum : o + m = d + k := by omega
      refine ⟨⟨h.size, h.addr, h.int, h.soff, .inr ⟨o, m, ?_⟩, by simp, by simp⟩, rfl, ?_⟩
      · exact ⟨hb, rfl, rfl, hsum ▸ hf.fits, hsum ▸ hf.read, hsum ▸ hf.bytes⟩
      · simp only [Istream.pos]
        omega
  · exact h.blockSeek hdev hb ht

def seekTarget (file : List Byte) (tell offset : Int) : Whence → Int
  | .set => offset
  | .cur => tell + offset
  | .fromEnd => file.length + offset

theorem Good.fseek (hdev : Delivers dev) (h : Good file s) {offset : Int} {whence : Whence}
    (ht : 0 ≤ seekTarget file s.tell offset whence) :
    Sought file (seekTarget file s.tell offset whence) (s.fseek file dev offset whence) := by
  -- With or without the shortcut, from a stream with a buffer.
  have hend : ∀ {s₁ : Istream} {target : Int}, Good file s₁ → s₁.base = true → 0 ≤ target →
      Sought file target (if s₁.nbf || s₁.npt then s₁.dumbSeek target
        else (s₁.sftell.2.optSeek file dev target s₁.sftell.1)) := by
    intro s₁ target h₁ hb ht
    split
    · exact h₁.dumbSeek hb ht
    · obtain ⟨htell, htook⟩ := h₁.sftell
      rw [htell]
      exact htook.good.optSeek hdev hb ht
  obtain ⟨s₁, hmake, htook, hb⟩ := h.makebuf
  cases whence with
  | set =>
    simp only [Istream.fseek, hmake]
    exact hend htook.good hb ht
  | fromEnd =>
    simp only [Istream.fseek, hmake]
    exact hend htook.good hb ht
  | cur =>
    obtain ⟨htell, htook₀⟩ := h.sftell
    obtain ⟨s₂, hmake₂, htook₂, hb₂⟩ := htook₀.good.makebuf
    have ht₂ : s₂.tell = s.tell := by
      rw [htook₂.tell, htook₀.tell]
      simp
    simp only [Istream.fseek, htell, hmake₂]
    split
    · exact htook₂.good.dumbSeek hb₂ ht
    · have ht' : 0 ≤ s₂.tell + offset := by
        rw [ht₂]
        exact ht
      have hs := htook₂.good.optSeek hdev hb₂ ht'
      rw [ht₂] at hs
      exact hs

end Bsdi.Stdio
