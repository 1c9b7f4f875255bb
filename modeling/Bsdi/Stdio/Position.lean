import Bsdi.Stdio.Seek
import Bsdi.Stdio.Written

/-!
# Streams as positions

The operations on a stream that is read, against a machine that has only the file, a position in it
and the characters that were pushed back.
-/

namespace Bsdi.Stdio

open Bsdi.Lib

inductive Request
  | getc
  | fread (size count : Nat)
  | fgetln
  | ungetc (c : Byte)
  | ftell
  | fseek (offset : Int) (whence : Whence)
  deriving DecidableEq

inductive Reply
  | char (c : Option Byte)
  | objects (n : Nat) (bytes : List Byte)
  | line (bytes : Option (List Byte))
  | offset (n : Int)
  | done
  deriving DecidableEq

/-- A place in the file, and the characters that were pushed back, the last one first. -/
structure Position where
  pos : Nat
  push : List Byte
  deriving DecidableEq

variable (file : List Byte) (dev : Reader)

namespace Position

def text (m : Position) : List Byte := m.push ++ file.drop m.pos

def tell (m : Position) : Int := m.pos - m.push.length

def take (n : Nat) (m : Position) : Position :=
  ⟨m.pos + min (n - m.push.length) (file.length - m.pos), m.push.drop n⟩

/-- The reply to a request, and the place and stack behind it. -/
def serve (m : Position) : Request → Reply × Position
  | .getc => (.char (m.text file).head?, m.take file 1)
  | .fread size count =>
    let total := (count * size) % 2 ^ 32
    let bytes := (m.text file).take total
    (.objects (if total = 0 then 0 else objects size count bytes.length) bytes, m.take file total)
  | .fgetln =>
    let line := lineOf (m.text file)
    (.line (if m.text file = [] then none else some line), m.take file line.length)
  | .ungetc c => (.done, { m with push := c :: m.push })
  | .ftell => (.offset (m.tell.bmod (2 ^ 32)), m)
  | .fseek offset whence => (.done, ⟨(seekTarget file m.tell offset whence).toNat, []⟩)

def run : List Request → Position → List Reply × Position
  | [], m => ([], m)
  | q :: qs, m =>
    let (reply, m) := m.serve file q
    let (replies, m) := run qs m
    (reply :: replies, m)

end Position

namespace Istream

/-- The reply to a request, and the stream behind it. -/
def serve (s : Istream) : Request → Option (Reply × Istream)
  | .getc => do
    let (c, s) ← s.getc file dev
    return (.char c, s)
  | .fread size count => do
    let (n, bytes, s) ← s.fread file dev size count
    return (.objects n bytes, s)
  | .fgetln => do
    let (line, s) ← s.fgetln file dev
    return (.line line, s)
  | .ungetc c => some (.done, s.ungetc c)
  | .ftell =>
    let (n, s) := s.ftell
    some (.offset n, s)
  | .fseek offset whence => some (.done, s.fseek file dev offset whence)

def run : List Request → Istream → Option (List Reply × Istream)
  | [], s => some ([], s)
  | q :: qs, s => do
    let (reply, s) ← s.serve file dev q
    let (replies, s) ← run qs s
    return (reply :: replies, s)

end Istream

/-- No seek goes before the start of the file, and nothing is pushed back into a stream that was
opened behind the start of its file and that has no buffer yet. -/
def Request.Allowed (s : Istream) : Request → Prop
  | .ungetc _ => s.base = true ∨ s.koff = 0
  | .fseek offset whence => 0 ≤ seekTarget file s.tell offset whence
  | _ => True

def AllowedRun : List Request → Istream → Prop
  | [], _ => True
  | q :: qs, s => q.Allowed file s ∧ ∀ r ∈ s.serve file dev q, AllowedRun qs r.2

instance (s : Istream) : (q : Request) → Decidable (q.Allowed file s)
  | .ungetc _ => inferInstanceAs (Decidable (_ ∨ _))
  | .fseek _ _ => inferInstanceAs (Decidable (0 ≤ _))
  | .getc | .fread _ _ | .fgetln | .ftell => inferInstanceAs (Decidable True)

instance AllowedRun.decidable : (qs : List Request) → DecidablePred (AllowedRun file dev qs)
  | [], _ => inferInstanceAs (Decidable True)
  | _ :: qs, _ =>
    have : DecidablePred (AllowedRun file dev qs) := AllowedRun.decidable qs
    inferInstanceAs (Decidable (_ ∧ ∀ r : Reply × Istream, r ∈ _ → AllowedRun file dev qs r.2))

/-- A stream that was opened, perhaps with a buffer of the caller, and not used yet. -/
structure Opened (s : Istream) : Prop where
  size : 0 < s.size
  addr : s.addr + s.size < 2 ^ 32
  int : s.size < 2 ^ 31
  soff : s.soff = true → s.offset = s.koff
  p : s.base = false ∧ s.p = -s.addr ∧ 0 < s.addr ∨ s.base = true ∧ s.p = 0
  r : s.r = 0
  ub : s.ub = none
  eof : s.eof = false

variable {file} {dev} {s s' : Istream} {m : Position} {n : Nat}

theorem Position.text_take : (m.take file n).text file = (m.text file).drop n := by
  rw [text, text, take, List.drop_append, List.drop_drop]
  congr 1
  rcases Nat.le_total (n - m.push.length) (file.length - m.pos) with hle | hle
  · rw [Nat.min_eq_left hle]
  · rw [Nat.min_eq_right hle]
    simp only
    rw [List.drop_of_length_le (by omega), List.drop_of_length_le (by omega)]

theorem Position.tell_take : (m.take file n).tell = m.tell + ((m.text file).take n).length := by
  simp only [tell, take, text, List.length_take, List.length_append, List.length_drop]
  omega

/-- The same is to be read, from the same place. -/
structure Agrees (file : List Byte) (s : Istream) (m : Position) : Prop where
  good : Good file s
  text : s.text file = m.text file
  tell : s.tell = m.tell

theorem Opened.agrees (h : Opened s) : Agrees file s ⟨s.koff, []⟩ := by
  have hpend : s.pending = [] := by simp [Istream.pending, h.ub]
  have hpos : s.pos = s.koff := by rw [Istream.pos, h.r, Int.sub_zero]
  refine ⟨⟨h.size, h.addr, h.int, h.soff, ?_, by simp [h.eof], by simp [h.ub]⟩, ?_, ?_⟩
  · rcases h.p with ⟨hb, hp, haddr⟩ | ⟨hb, hp⟩
    · exact .inl ⟨hp, haddr, h.r, by simp [hb, h.ub]⟩
    · exact .inr ⟨0, 0, hb, hp, h.r, Nat.zero_le _, Nat.zero_le _, by simp⟩
  · rw [Istream.text, hpend, hpos]
    rfl
  · rw [Istream.tell, hpend, hpos]
    rfl

theorem Took.agrees (h : Agrees file s m) (ht : Took file s ((m.text file).take n) s') :
    Agrees file s' (m.take file n) := by
  refine ⟨ht.good, ?_, ?_⟩
  · have htext := h.text.symm.trans ht.text
    rw [Position.text_take]
    nth_rewrite 1 [← List.take_append_drop n (m.text file)] at htext
    exact (List.append_cancel_left htext).symm
  · rw [ht.tell, h.tell, Position.tell_take]

theorem Sought.agrees {target : Int} (h : Sought file target s) (ht : 0 ≤ target) :
    Agrees file s ⟨target.toNat, []⟩ := by
  have hpend : s.pending = [] := by simp [Istream.pending, h.ub]
  refine ⟨h.good, ?_, ?_⟩
  · rw [Istream.text, hpend, h.pos]
    rfl
  · rw [Istream.tell, hpend, h.pos, Position.tell]
    simp only [List.length_nil]
    omega

theorem lineOf_take (x : List Byte) : x.take (lineOf x).length = lineOf x := by
  rw [lineOf, List.length_take, ← List.take_eq_take_min]

theorem Agrees.serve (hdev : Delivers dev) (h : Agrees file s m) {q : Request}
    (hq : q.Allowed file s) :
    ∃ s', s.serve file dev q = some ((m.serve file q).1, s') ∧
      Agrees file s' (m.serve file q).2 := by
  cases q with
  | getc =>
    obtain ⟨s', hrun, htook⟩ := h.good.getc hdev
    rw [h.text] at hrun htook
    exact ⟨s', by simp [Istream.serve, Position.serve, hrun], htook.agrees h⟩
  | fread size count =>
    by_cases h0 : (count * size) % 2 ^ 32 = 0
    · have hrun : s.fread file dev size count = some (0, [], s) := by
        rw [Istream.fread, h0]
        rfl
      simp only [Istream.serve, hrun, Position.serve, h0]
      exact ⟨s, rfl, Took.agrees h h.good.refl⟩
    · obtain ⟨s', hrun, htook⟩ := h.good.fread hdev h0
      rw [h.text] at hrun htook
      refine ⟨s', ?_, htook.agrees h⟩
      simp only [Istream.serve, hrun, Position.serve, if_neg h0]
      rfl
  | fgetln =>
    obtain ⟨s', hrun, htook⟩ := h.good.fgetln hdev
    rw [h.text] at hrun htook
    rw [← lineOf_take] at htook
    exact ⟨s', by simp [Istream.serve, Position.serve, hrun], htook.agrees h⟩
  | ungetc c =>
    obtain ⟨hgood, htext, htell⟩ := h.good.ungetc hq c
    refine ⟨s.ungetc c, rfl, hgood, ?_, ?_⟩
    · rw [htext, h.text]
      rfl
    · rw [htell, h.tell]
      simp only [Position.serve, Position.tell, List.length_cons]
      omega
  | ftell =>
    obtain ⟨hrun, htook⟩ := h.good.sftell
    refine ⟨{ s with soff := true, offset := s.koff }, ?_, htook.good, ?_, ?_⟩
    · simp only [Istream.serve, Istream.ftell, hrun, h.tell, Position.serve]
    · exact htook.text.symm.trans h.text
    · rw [htook.tell, List.length_nil]
      simpa [Position.serve] using h.tell
  | fseek offset whence =>
    have hs := h.good.fseek hdev hq
    rw [h.tell] at hs
    simp only [Request.Allowed, h.tell] at hq
    exact ⟨_, rfl, hs.agrees hq⟩

theorem Agrees.run (hdev : Delivers dev) {qs : List Request} (h : Agrees file s m)
    (hqs : AllowedRun file dev qs s) :
    ∃ s', s.run file dev qs = some ((m.run file qs).1, s') ∧
      Agrees file s' (m.run file qs).2 := by
  induction qs generalizing s m with
  | nil => exact ⟨s, rfl, h⟩
  | cons q qs ih =>
    obtain ⟨s₁, hserve, h₁⟩ := h.serve hdev hqs.1
    obtain ⟨s₂, hrun, h₂⟩ := ih h₁ (hqs.2 _ hserve)
    refine ⟨s₂, ?_, h₂⟩
    simp only [Istream.run, hserve, hrun, Position.run, Option.bind_eq_bind, Option.bind_some,
      Option.pure_def]

def fourBytes (base : Bool) (koff : Nat) : Istream where
  base := base
  addr := 1000
  size := 4
  nbf := false
  npt := false
  blksize := 4
  mem := fun _ => 0
  p := if base then 0 else -1000
  r := 0
  ub := none
  eof := false
  smod := false
  soff := false
  offset := 0
  koff := koff
  calls := 0

/-- A stream that is read replies as a position with a stack of characters does. -/
theorem run_replies (hdev : Delivers dev) (ho : Opened s) {qs : List Request}
    (hqs : AllowedRun file dev qs s) :
    ∃ s', s.run file dev qs = some ((Position.run file qs ⟨s.koff, []⟩).1, s') := by
  obtain ⟨s', hrun, -⟩ := ho.agrees.run hdev hqs
  exact ⟨s', hrun⟩

theorem run_replies_pushed :
    (Position.run [1, 2, 3, 4, 5, 6] [.getc, .ungetc 9, .ungetc 8, .fread 1 4, .fseek 1 .cur, .getc]
        ⟨0, []⟩).1 =
      [.char (some 1), .done, .done, .objects 4 [8, 9, 2, 3], .done, .char (some 5)] ∧
    ∃ s', (fourBytes false 0).run [1, 2, 3, 4, 5, 6] (fun _ n => min n 3)
        [.getc, .ungetc 9, .ungetc 8, .fread 1 4, .fseek 1 .cur, .getc] =
      some ((Position.run [1, 2, 3, 4, 5, 6]
        [.getc, .ungetc 9, .ungetc 8, .fread 1 4, .fseek 1 .cur, .getc] ⟨0, []⟩).1, s') :=
  ⟨by decide, run_replies (fun _ n hn => by omega)
    ⟨by decide, by decide, by decide, by decide, by decide, rfl, rfl, rfl⟩ (by decide)⟩

/-- A stream without a buffer, in the middle of its file, reads from nowhere after a seek that gives
up a character. And `ftell` says a wrong place behind what a `long` holds. -/
theorem run_not_position :
    (((fourBytes false 5).run [1, 2, 3, 4, 5, 6, 7, 8] (fun _ n => n)
      [.ungetc 9, .fseek 2 .set, .getc]).map Prod.fst = none ∧
      (Position.run [1, 2, 3, 4, 5, 6, 7, 8] [.ungetc 9, .fseek 2 .set, .getc] ⟨5, []⟩).1 =
        [.done, .done, .char (some 3)]) ∧
    ((fourBytes false 0).run [] (fun _ n => n)
        [.fseek (2 ^ 31 - 1) .set, .fseek 1 .cur, .ftell]).map Prod.fst =
        some [.done, .done, .offset (-2 ^ 31)] ∧
      (Position.run [] [.fseek (2 ^ 31 - 1) .set, .fseek 1 .cur] ⟨0, []⟩).2.tell = 2 ^ 31 := by
  decide

/-- What was written and flushed is what a stream that is opened on the file reads. -/
theorem run_written {sink : Device} (hsink : Accepts sink) {w : Stream} {sent : List Byte}
    (hw : Reached sink w sent) :
    ∃ w', w.sflush sink = (false, w') ∧
      ∀ {dev : Reader} {s : Istream} {qs : List Request}, Delivers dev → Opened s →
        AllowedRun w'.out dev qs s →
        ∃ s', s.run w'.out dev qs = some ((Position.run sent qs ⟨s.koff, []⟩).1, s') := by
  obtain ⟨hs, htext⟩ := hw.sound hsink
  have hflush : ∃ w', w.sflush sink = (false, w') ∧ w'.out = sent := by
    rcases hs with hs | hs
    · refine ⟨w, if_neg (by simp [hs.base]), ?_⟩
      simpa [Stream.text, hs.p, slice] using htext
    · obtain ⟨calls, hrun⟩ := w.sflush_eq hsink hs.base
      exact ⟨_, hrun, htext⟩
  obtain ⟨w', hrun, rfl⟩ := hflush
  refine ⟨w', hrun, fun hdev ho hqs => ?_⟩
  obtain ⟨s', hreplies, -⟩ := ho.agrees.run hdev hqs
  exact ⟨s', hreplies⟩

theorem run_written_line : ∃ w w', Stream.sflush slowly w = (false, w') ∧ ∃ s',
    (fourBytes false 0).run w'.out (fun _ n => min n 3) [.fgetln, .getc] =
      some ([.line [97, newline], .char (some 98)], s') := by
  have h₀ : Reached slowly (opened .lbf 4 fun _ => 0) [] := .fopen _ (by decide) (by decide)
  obtain ⟨w, hstep, -⟩ := (h₀.sound accepts_slowly).1.step accepts_slowly
    (.sfvwrite [[97, newline, 98]])
  obtain ⟨w', hflush, hrun⟩ := run_written accepts_slowly
    (h₀.step (show Op.Fits (.sfvwrite [[97, newline, 98]]) by simp [Op.Fits, Stream.resid]) hstep)
  exact ⟨w, w', hflush, hrun (fun _ n hn => by omega)
    ⟨by decide, by decide, by decide, by decide, by decide, rfl, rfl, rfl⟩
    ⟨trivial, fun _ _ => ⟨trivial, fun _ _ => trivial⟩⟩⟩

end Bsdi.Stdio
