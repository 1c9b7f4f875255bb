import Bsdi.Sh.Memalloc
import Mathlib.Data.List.Basic

/-!
# Pushed-back input

`pgetc`, `preadbuffer`, `pungetc`, `pushstring` and `popstring` of `input.c` at one file level. The
current position is a place in the buffer or in a pushed string, and what `read` will return is a
list of blocks, with the end of the file after it.
-/

namespace Bsdi.Sh.Pushback

/-- What `parsenextc` points into. -/
inductive Area
  | buf
  | string (s : List Byte)
  deriving DecidableEq, Repr

/-- `parsenextc` and `parsenleft`, or what `pushstring` has saved of them. -/
structure Level where
  area : Area
  nextc : Int
  nleft : Int
  deriving DecidableEq, Repr

/-- The input of a file level: `hasbuf` is false for a string, which cannot be refilled. -/
structure Input where
  level : Level
  strpush : List Level
  hasbuf : Bool
  buf : List Byte
  reads : List (List Byte)
  deriving DecidableEq, Repr

def eofNleft : Int := -99

def Area.text (buf : List Byte) : Area → List Byte
  | .buf => buf
  | .string s => s

namespace Input

/-- `*parsenextc++`. -/
def next (s : Input) : Option Byte × Input :=
  ((s.level.area.text s.buf)[s.level.nextc.toNat]?,
    { s with level := { s.level with nextc := s.level.nextc + 1 } })

/-- `--parsenleft`. -/
def less (s : Input) : Input := { s with level := { s.level with nleft := s.level.nleft - 1 } }

def overlay (l buf : List Byte) : List Byte := l ++ buf.drop l.length

/-- From `retry` on: a block of nulls is passed, and `parsenleft` is without the character that is
returned. -/
def refill (s : Input) : List (List Byte) → Option Byte × Input
  | [] => (none, { s with level := ⟨.buf, 0, eofNleft⟩, reads := [] })
  | block :: reads =>
    if block = [] then (none, { s with level := ⟨.buf, 0, eofNleft⟩, reads := reads })
    else
      let text := block.filter (· ≠ 0)
      let buf := overlay (text ++ [0]) (overlay block s.buf)
      if text = [] then refill { s with buf := buf } reads
      else next { s with level := ⟨.buf, 0, text.length - 1⟩, buf := buf, reads := reads }

/-- `preadbuffer` after the string that was pushed, if any, has been popped. -/
def fill (s : Input) : Option Byte × Input :=
  if s.level.nleft = eofNleft ∨ ¬ s.hasbuf then (none, s) else refill s s.reads

/-- `preadbuffer`, with `popstring`. -/
def preadbuffer (s : Input) : Option Byte × Input :=
  match s.strpush with
  | [] => fill s
  | level :: strpush =>
    let s := less { s with level := level, strpush := strpush }
    if 0 ≤ s.level.nleft then next s else fill s

def pgetc (s : Input) : Option Byte × Input :=
  if 0 ≤ (less s).level.nleft then next (less s) else preadbuffer (less s)

def pungetc (s : Input) : Input :=
  { s with level := { s.level with nextc := s.level.nextc - 1, nleft := s.level.nleft + 1 } }

def pushstring (text : List Byte) (s : Input) : Input :=
  { s with level := ⟨.string text, 0, text.length⟩, strpush := s.level :: s.strpush }

end Input

/-- Whether `pgetc` finds a character in the current string or in the one below it, if there are
two. -/
def Input.Sound (s : Input) : Bool :=
  match s.strpush with
  | level :: _ :: _ => 0 < s.level.nleft || 0 < level.nleft
  | _ => true

def Level.rest (buf : List Byte) (l : Level) : List Byte :=
  ((l.area.text buf).drop l.nextc.toNat).take l.nleft.toNat

def Level.Fits (buf : List Byte) (l : Level) : Prop :=
  0 < l.nleft → 0 ≤ l.nextc ∧ l.nextc + l.nleft ≤ (l.area.text buf).length

/-- The pushed strings over the file, and what is left to be read of them. -/
inductive Levels (buf : List Byte) (hasbuf : Bool) (reads : List (List Byte)) :
    List Level → List Byte → Prop
  | file {l : Level} (hfits : l.Fits buf) (harea : hasbuf = true → l.area = .buf)
    (hend : l.nleft < 0 ∨ hasbuf = false → reads = []) :
    Levels buf hasbuf reads [l] (l.rest buf ++ reads.flatten.filter (· ≠ 0))
  | string {l : Level} {ls : List Level} {rest : List Byte} (hfits : l.Fits buf)
    (hrest : Levels buf hasbuf reads ls rest) :
    Levels buf hasbuf reads (l :: ls) (l.rest buf ++ rest)

/-- What is left to be read, of the pushed strings and of the file without its nulls. -/
structure Input.Holds (s : Input) (rest : List Byte) : Prop where
  levels : Levels s.buf s.hasbuf s.reads (s.level :: s.strpush) rest
  blocks : ∀ block ∈ s.reads, block ≠ []

theorem Level.rest_nil {buf : List Byte} {l : Level} (h : l.nleft ≤ 0) : l.rest buf = [] := by
  rw [Level.rest, Int.toNat_of_nonpos h, List.take_zero]

theorem Level.rest_cons {buf : List Byte} {l : Level} (hfits : l.Fits buf) (h : 0 < l.nleft) :
    ∃ c, (l.area.text buf)[l.nextc.toNat]? = some c ∧
      l.rest buf = c :: Level.rest buf ⟨l.area, l.nextc + 1, l.nleft - 1⟩ ∧
      Level.Fits buf ⟨l.area, l.nextc + 1, l.nleft - 1⟩ := by
  obtain ⟨hpos, hle⟩ := hfits h
  have hlt : l.nextc.toNat < (l.area.text buf).length := by omega
  refine ⟨(l.area.text buf)[l.nextc.toNat], List.getElem?_eq_getElem hlt, ?_, fun _ => ?_⟩
  · have hnext : (l.nextc + 1).toNat = l.nextc.toNat + 1 := by omega
    have hleft : l.nleft.toNat = (l.nleft - 1).toNat + 1 := by omega
    rw [Level.rest, Level.rest, hnext, hleft, List.drop_eq_getElem_cons hlt, List.take_succ_cons]
  · dsimp only
    omega

theorem file_of_rest {buf r : List Byte} {hasbuf : Bool} {reads : List (List Byte)} {l : Level}
    (hrest : l.rest buf = r) (hfits : l.Fits buf) (harea : hasbuf = true → l.area = .buf)
    (hend : l.nleft < 0 ∨ hasbuf = false → reads = []) :
    Levels buf hasbuf reads [l] (r ++ reads.flatten.filter (· ≠ 0)) :=
  hrest ▸ .file hfits harea hend

theorem file_ended {buf : List Byte} {hasbuf : Bool} {l : Level} (hnleft : l.nleft ≤ 0)
    (harea : hasbuf = true → l.area = .buf) : Levels buf hasbuf [] [l] [] :=
  file_of_rest (Level.rest_nil hnleft) (fun h => absurd hnleft (Int.not_le.2 h)) harea fun _ => rfl

/-- What `pgetc` is to do with what is left to be read: the character can be put back. -/
def Reads (rest : List Byte) (x : Option Byte × Input) : Prop :=
  x.1 = rest.head? ∧ x.2.Holds rest.tail ∧ x.2.pungetc.Holds rest

namespace Input

variable {s : Input} {rest : List Byte}

theorem next_reads (h : s.Holds rest) (hleft : 0 < s.level.nleft) : Reads rest (next (less s)) := by
  obtain ⟨⟨area, nextc, nleft⟩, strpush, hasbuf, buf, reads⟩ := s
  obtain ⟨hlevels, hblocks⟩ := h
  have hback : (next (less ⟨⟨area, nextc, nleft⟩, strpush, hasbuf, buf, reads⟩)).2.pungetc =
      ⟨⟨area, nextc, nleft⟩, strpush, hasbuf, buf, reads⟩ := by
    simp [next, less, pungetc]
  refine ⟨?_, ?_, by rw [hback]; exact ⟨hlevels, hblocks⟩⟩
  · cases hlevels with
    | file hfits harea hend =>
      obtain ⟨c, hc, hrest, -⟩ := Level.rest_cons hfits hleft
      rw [hrest]
      exact hc
    | string hfits hrest' =>
      obtain ⟨c, hc, hrest, -⟩ := Level.rest_cons hfits hleft
      rw [hrest]
      exact hc
  · refine ⟨?_, hblocks⟩
    cases hlevels with
    | file hfits harea hend =>
      obtain ⟨c, hc, hrest, hfits'⟩ := Level.rest_cons hfits hleft
      rw [hrest]
      refine .file hfits' harea fun h => hend (h.imp (fun h => ?_) id)
      have hless : nleft - 1 < 0 := h
      have hpos : 0 < nleft := hleft
      omega
    | string hfits hrest' =>
      obtain ⟨c, hc, hrest, hfits'⟩ := Level.rest_cons hfits hleft
      rw [hrest]
      exact .string hfits' hrest'

theorem refill_reads (reads : List (List Byte)) (hblocks : ∀ block ∈ reads, block ≠ [])
    (hbuf : s.hasbuf = true) (hpush : s.strpush = []) :
    Reads (reads.flatten.filter (· ≠ 0)) (refill s reads) := by
  obtain ⟨level, strpush, hasbuf, buf, before⟩ := s
  obtain rfl : strpush = [] := hpush
  obtain rfl : hasbuf = true := hbuf
  induction reads generalizing buf with
  | nil =>
    have hnone : ∀ nextc nleft : Int, nleft ≤ 0 →
        Holds ⟨⟨.buf, nextc, nleft⟩, [], true, buf, []⟩ [] :=
      fun nextc nleft hle => ⟨file_ended hle fun _ => rfl, hblocks⟩
    exact ⟨rfl, hnone 0 eofNleft (by decide), hnone (0 - 1) (eofNleft + 1) (by decide)⟩
  | cons block reads ih =>
    obtain ⟨hblock, hblocks⟩ := List.forall_mem_cons.1 hblocks
    rw [refill, if_neg hblock, List.flatten_cons, List.filter_append]
    dsimp only
    cases htext : block.filter (· ≠ 0) with
    | nil =>
      rw [if_pos rfl]
      exact ih hblocks _
    | cons c text =>
      rw [if_neg (List.cons_ne_nil c text)]
      have hlength : (((c :: text).length : Int) - 1) = text.length := by
        rw [List.length_cons]
        omega
      rw [hlength]
      have hbuf' : overlay (c :: text ++ [0]) (overlay block buf) =
          c :: text ++ ([0] ++ (overlay block buf).drop (c :: text ++ [0]).length) := by
        rw [overlay, List.append_assoc]
      rw [hbuf']
      generalize [0] ++ (overlay block buf).drop (c :: text ++ [0]).length = stale
      refine ⟨rfl, ⟨?_, hblocks⟩, ⟨?_, hblocks⟩⟩
      · have hrest : Level.rest (c :: text ++ stale) ⟨.buf, 0 + 1, text.length⟩ = text := by
          simp [Level.rest, Area.text]
        have hfile : Levels (c :: text ++ stale) true reads [⟨.buf, 0 + 1, text.length⟩]
            (text ++ reads.flatten.filter (· ≠ 0)) :=
          file_of_rest hrest (fun _ => by simp [Area.text]; omega) (fun _ => rfl)
            fun h => absurd h (by simp)
        exact hfile
      · have hrest : Level.rest (c :: text ++ stale) ⟨.buf, 0 + 1 - 1, text.length + 1⟩ =
            c :: text := by
          simp [Level.rest, Area.text]
        have hfile : Levels (c :: text ++ stale) true reads [⟨.buf, 0 + 1 - 1, text.length + 1⟩]
            (c :: text ++ reads.flatten.filter (· ≠ 0)) :=
          file_of_rest hrest (fun _ => by simp [Area.text] <;> omega) (fun _ => rfl)
            fun h => absurd h (by simp; omega)
        exact hfile

theorem fill_reads (h : s.Holds rest) (hpush : s.strpush = []) (hleft : s.level.nleft ≤ 0) :
    Reads rest (fill (less s)) := by
  obtain ⟨level, strpush, hasbuf, buf, reads⟩ := s
  obtain rfl : strpush = [] := hpush
  obtain ⟨hlevels, hblocks⟩ := h
  cases hlevels with
  | string hfits hrest => cases hrest
  | file hfits harea hend =>
    rw [Level.rest_nil hleft, List.nil_append]
    unfold fill
    split
    case isTrue hstop =>
      have hreads : reads = [] := hend <| hstop.imp (fun h => by
        have hless : level.nleft - 1 = -99 := h
        change level.nleft < 0
        omega) (by simp [less])
      subst hreads
      have hnone : ∀ l : Level, l.nleft ≤ 0 → (hasbuf = true → l.area = .buf) →
          Holds ⟨l, [], hasbuf, buf, []⟩ [] :=
        fun l hl harea => ⟨file_ended hl harea, hblocks⟩
      have hle : level.nleft ≤ 0 := hleft
      exact ⟨rfl, hnone ⟨level.area, level.nextc, level.nleft - 1⟩ (by dsimp only; omega) harea,
        hnone ⟨level.area, level.nextc - 1, level.nleft - 1 + 1⟩ (by dsimp only; omega) harea⟩
    case isFalse hgo =>
      have hbuf : hasbuf = true := by
        by_contra hbuf
        exact hgo (Or.inr hbuf)
      exact refill_reads reads hblocks hbuf rfl

theorem pgetc_reads (h : s.Holds rest) (hsound : s.Sound = true) : Reads rest (pgetc s) := by
  unfold pgetc
  split
  case isTrue hleft =>
    refine next_reads h ?_
    simp only [less] at hleft
    omega
  case isFalse hleft =>
    replace hleft : s.level.nleft ≤ 0 := by
      simp only [less] at hleft
      omega
    unfold preadbuffer
    split
    case h_1 hpush => exact fill_reads h hpush hleft
    case h_2 level strpush hpush =>
      -- the string that is popped has nothing left
      have hbelow : Holds { s with level := level, strpush := strpush } rest := by
        obtain ⟨hlevels, hblocks⟩ := h
        rw [show s.strpush = level :: strpush from hpush] at hlevels
        cases hlevels with
        | string hfits hrest =>
          rw [Level.rest_nil hleft, List.nil_append]
          exact ⟨hrest, hblocks⟩
      have hswap : less { less s with level := level, strpush := strpush } =
          less { s with level := level, strpush := strpush } := rfl
      dsimp only
      rw [hswap]
      by_cases hmore : 0 < level.nleft
      · rw [if_pos (by simp only [less]; omega)]
        exact next_reads hbelow hmore
      · rw [if_neg (by simp only [less]; omega)]
        have hlast : strpush = [] := by
          rw [Sound, show s.strpush = level :: strpush from hpush] at hsound
          cases strpush with
          | nil => rfl
          | cons below strpush => simp [hmore, Int.not_lt.2 hleft] at hsound
        exact fill_reads hbelow hlast (Int.not_lt.1 hmore)

theorem pushstring_holds (h : s.Holds rest) (text : List Byte) :
    (pushstring text s).Holds (text ++ rest) := by
  have hrest : Level.rest s.buf ⟨.string text, 0, text.length⟩ = text := by
    simp [Level.rest, Area.text]
  have hstring := Levels.string (l := ⟨.string text, 0, text.length⟩)
    (fun _ => by simp [Area.text]) h.levels
  rw [hrest] at hstring
  exact ⟨hstring, h.blocks⟩

end Input

inductive Op
  | pgetc
  | pungetc
  | pushstring (text : List Byte)
  deriving DecidableEq, Repr

/-- A single `pungetc` after a `pgetc`. -/
def Legal : Bool → List Op → Bool
  | _, [] => true
  | _, .pgetc :: ops => Legal true ops
  | got, .pungetc :: ops => got && Legal false ops
  | _, .pushstring _ :: ops => Legal false ops

/-- The characters that `pgetc` returns. -/
def Input.run : Input → List Op → List (Option Byte)
  | _, [] => []
  | s, .pgetc :: ops => s.pgetc.1 :: s.pgetc.2.run ops
  | s, .pungetc :: ops => s.pungetc.run ops
  | s, .pushstring text :: ops => (s.pushstring text).run ops

def Input.SoundRun : Input → List Op → Bool
  | _, [] => true
  | s, .pgetc :: ops => s.Sound && s.pgetc.2.SoundRun ops
  | s, .pungetc :: ops => s.pungetc.SoundRun ops
  | s, .pushstring text :: ops => (s.pushstring text).SoundRun ops

/-- The characters of a text on which strings can be put; `back` is what there was before the last
one was taken. -/
def taken : List Byte → List Byte → List Op → List (Option Byte)
  | _, _, [] => []
  | rest, _, .pgetc :: ops => rest.head? :: taken rest.tail rest ops
  | _, back, .pungetc :: ops => taken back back ops
  | rest, _, .pushstring text :: ops => taken (text ++ rest) (text ++ rest) ops

theorem run_taken (ops : List Op) {s : Input} {rest back : List Byte} {got : Bool}
    (h : s.Holds rest) (hback : got = true → s.pungetc.Holds back) (hlegal : Legal got ops = true)
    (hsound : s.SoundRun ops = true) : s.run ops = taken rest back ops := by
  induction ops generalizing s rest back got with
  | nil => rfl
  | cons op ops ih =>
    cases op with
    | pgetc =>
      rw [Input.SoundRun, Bool.and_eq_true] at hsound
      obtain ⟨hc, hrest, hput⟩ := Input.pgetc_reads h hsound.1
      rw [Input.run, taken, hc, ih hrest (fun _ => hput) hlegal hsound.2]
    | pungetc =>
      rw [Legal, Bool.and_eq_true] at hlegal
      have hput := hback hlegal.1
      exact ih hput (fun h => by cases h) hlegal.2 hsound
    | pushstring text =>
      exact ih (Input.pushstring_holds h text) (fun h => by cases h) hlegal hsound

def file (reads : List (List Byte)) : Input := ⟨⟨.buf, 0, 0⟩, [], true, [], reads⟩

theorem file_holds {reads : List (List Byte)} (h : ∀ block ∈ reads, block ≠ []) :
    (file reads).Holds (reads.flatten.filter (· ≠ 0)) :=
  ⟨.file (fun h : (0 : Int) < 0 => absurd h (by decide)) (fun _ => rfl)
    (fun h => absurd h (by simp [file])), h⟩

/-- Every character is delivered, of the pushed strings and of the file without its nulls. -/
theorem run_file (reads : List (List Byte)) (hblocks : ∀ block ∈ reads, block ≠ [])
    (ops : List Op) (hlegal : Legal false ops = true) (hsound : (file reads).SoundRun ops = true) :
    (file reads).run ops =
      taken (reads.flatten.filter (· ≠ 0)) (reads.flatten.filter (· ≠ 0)) ops :=
  run_taken ops (file_holds hblocks) (fun h => by cases h) hlegal hsound

theorem run_file_nested :
    (file [[97, 0], [98]]).run [.pgetc, .pushstring [99, 100], .pgetc, .pushstring [101], .pgetc,
      .pgetc, .pungetc, .pgetc, .pgetc, .pgetc] =
      [some 97, some 99, some 101, some 100, some 100, some 98, none] :=
  run_file [[97, 0], [98]] (by decide) _ rfl rfl

/-- A string that is pushed when another one has just been read: the rest of the block is lost. -/
theorem run_file_loses : ¬ ∀ (reads : List (List Byte)), (∀ block ∈ reads, block ≠ []) →
    ∀ ops : List Op, Legal false ops = true → (file reads).run ops =
      taken (reads.flatten.filter (· ≠ 0)) (reads.flatten.filter (· ≠ 0)) ops :=
  fun h => absurd (h [[97, 98]] (by decide) [.pgetc, .pushstring [99], .pgetc, .pushstring [100],
    .pgetc, .pgetc] rfl) (by decide)

end Bsdi.Sh.Pushback
