import Mathlib.Data.List.Basic

/-!
# Splitting at two kinds of delimiters

A text with delimiters that are white space and delimiters that are not. White space is dropped at
both ends; elsewhere a delimiter is white space, or a single other delimiter with the white space
around it. Two other delimiters have an empty field between them, and the last one ends a field but
begins none.

A splitter that looks at one stretch after the other may forget at the end of a stretch that it has
just passed white space.
-/

namespace Bsdi.Lib.Splitting

variable {α : Type*}

/-- What a text is made of. -/
inductive Sym (α : Type*)
  | text (b : List α) (h : b ≠ [])
  | white (c : α)
  | other (c : α)

def Sym.bytes : Sym α → List α
  | .text b _ => b
  | .white c => [c]
  | .other c => [c]

/-- A text with the edges of its stretches, its empty parts and its separators; `save` stands behind
the separators of a stretch. -/
inductive Tok (α : Type*)
  | edge
  | null
  | sep
  | save
  | sym (u : Sym α)

/-- The fields of a text, with the field that has begun, and whether one has just been ended by white
space. -/
def fields : Option (List α) → Bool → List (Tok α) → List (List α)
  | p, _, [] => p.toList
  | p, white, .edge :: ts => fields p white ts
  | p, white, .save :: ts => fields p white ts
  | p, _, .null :: ts => fields (some (p.getD [])) false ts
  | p, _, .sep :: ts => p.getD [] :: fields (some []) false ts
  | p, _, .sym (.text b _) :: ts => fields (some (p.getD [] ++ b)) false ts
  | p, white, .sym (.white _) :: ts =>
    match p with
    | none => fields none white ts
    | some p => p :: fields none true ts
  | p, white, .sym (.other _) :: ts =>
    if white then fields none false ts else p.getD [] :: fields none false ts

/-- Whether the text ends, or a separator comes next. -/
def ends : List (Tok α) → Bool
  | [] => true
  | .sep :: _ => true
  | .sym _ :: _ => false
  | _ :: ts => ends ts

/-- The same for a splitter that looks at one stretch at a time: `leading` says that so far the
stretch has only white space. At the end of the text it saves an empty field that a separator has
begun. -/
def fieldsByStretch : List α → Bool → Bool → List (Tok α) → List (List α)
  | p, _, _, [] => if p.isEmpty then [] else [p]
  | p, _, _, .edge :: ts => fieldsByStretch p false true ts
  | p, white, leading, .null :: ts => fieldsByStretch p white leading ts
  | p, white, leading, .save :: ts =>
    if p.isEmpty && ends ts then [] :: fieldsByStretch p white leading ts
    else fieldsByStretch p white leading ts
  | p, white, _, .sep :: ts =>
    if white then fieldsByStretch [] false false ts else p :: fieldsByStretch [] false false ts
  | p, _, _, .sym (.text b _) :: ts => fieldsByStretch (p ++ b) false false ts
  | p, white, leading, .sym (.white _) :: ts =>
    if p.isEmpty then fieldsByStretch p white leading ts
    else p :: fieldsByStretch [] (!leading) leading ts
  | p, white, _, .sym (.other _) :: ts =>
    if white then fieldsByStretch [] false false ts else p :: fieldsByStretch [] false false ts

/-! ### Text and delimiters only -/

/-- What stands before a place: text, or text and white space, with or without an edge behind the
text; or neither. -/
inductive Gap
  | none
  | text (edge : Bool)
  | white (edge : Bool)
  deriving DecidableEq

def Gap.next : Gap → Tok α → Gap
  | .none, .edge => .none
  | .text _, .edge => .text true
  | .white _, .edge => .white true
  | _, .sym (.text _ _) => .text false
  | .none, .sym (.white _) => .none
  | .text edge, .sym (.white _) => .white edge
  | .white edge, .sym (.white _) => .white edge
  | _, .sym (.other _) => .none
  | g, _ => g

/-- Some delimiter is torn: between the end of a text and a delimiter that is not white space there
are white space and an edge, and nothing else. -/
def torn : Gap → List (Tok α) → Bool
  | _, [] => false
  | g, t :: ts =>
    (g = .white true && match t with
      | .sym (.other _) => true
      | _ => false) || torn (g.next t) ts

/-- A token of a text without empty parts and separators. -/
def Tok.Plain : Tok α → Prop
  | .edge => True
  | .sym _ => True
  | _ => False

/-- How both splitters stand at a place. -/
def At (p : Option (List α)) (q : List α) (white white' leading : Bool) : Gap → Prop
  | .none => p = none ∧ q = [] ∧ white = false ∧ white' = false
  | .text edge => p = some q ∧ q ≠ [] ∧ white = false ∧ white' = false ∧ leading = edge
  | .white edge => p = none ∧ q = [] ∧ white = true ∧ white' = !edge

theorem cons_both (p : List α) {b : Bool} {x y : List (List α)}
    (h : (b = false → x = y) ∧ y.length + (if b then 1 else 0) ≤ x.length) :
    (b = false → p :: x = p :: y) ∧ (p :: y).length + (if b then 1 else 0) ≤ (p :: x).length := by
  refine ⟨fun hb => congrArg (p :: ·) (h.1 hb), ?_⟩
  simp only [List.length_cons]
  omega

/-- Where a delimiter is torn there is an empty field too much, and nothing else is different. -/
theorem fields_cases (ts : List (Tok α)) (hts : ∀ t ∈ ts, t.Plain) {p : Option (List α)}
    {q : List α} {white white' leading : Bool} {g : Gap} (h : At p q white white' leading g) :
    (torn g ts = false → fieldsByStretch q white' leading ts = fields p white ts) ∧
      (fields p white ts).length + (if torn g ts then 1 else 0) ≤
        (fieldsByStretch q white' leading ts).length := by
  induction ts generalizing p q white white' leading g with
  | nil =>
    cases g with
    | none =>
      obtain ⟨rfl, rfl, -⟩ := h
      simp [fields, fieldsByStretch, torn]
    | text e =>
      obtain ⟨rfl, hq, -⟩ := h
      simp [fields, fieldsByStretch, torn, hq]
    | white e =>
      obtain ⟨rfl, rfl, -⟩ := h
      simp [fields, fieldsByStretch, torn]
  | cons t ts ih =>
    obtain ⟨ht, hrest⟩ := List.forall_mem_cons.1 hts
    cases t with
    | null => exact ht.elim
    | sep => exact ht.elim
    | save => exact ht.elim
    | edge =>
      have htorn : torn g (.edge :: ts) = torn (g.next (.edge : Tok α)) ts := by simp [torn]
      rw [htorn, fields, fieldsByStretch]
      refine ih hrest ?_
      cases g with
      | none => exact ⟨h.1, h.2.1, h.2.2.1, rfl⟩
      | text e => exact ⟨h.1, h.2.1, h.2.2.1, rfl, rfl⟩
      | white e => exact ⟨h.1, h.2.1, h.2.2.1, rfl⟩
    | sym u =>
      cases u with
      | text b hb =>
        have htorn : torn g (.sym (.text b hb) :: ts) = torn (.text false) ts := by
          cases g <;> simp [torn, Gap.next]
        have hp : p.getD [] = q := by
          cases g with
          | none => rw [h.1, h.2.1]; rfl
          | text e => rw [h.1]; rfl
          | white e => rw [h.1, h.2.1]; rfl
        rw [htorn, fields, fieldsByStretch, hp]
        exact ih hrest ⟨rfl, by simp [hb], rfl, rfl, rfl⟩
      | white c =>
        have htorn : torn g (.sym (.white c) :: ts) = torn (g.next (.sym (.white c))) ts := by
          simp [torn]
        rw [htorn, fieldsByStretch]
        cases g with
        | none =>
          obtain ⟨rfl, rfl, rfl, rfl⟩ := h
          rw [fields]
          exact ih hrest ⟨rfl, rfl, rfl, rfl⟩
        | text e =>
          obtain ⟨rfl, hq, rfl, rfl, rfl⟩ := h
          rw [fields]
          have hq' : q.isEmpty = false := by simpa using hq
          simp only [hq', Bool.false_eq_true, if_false]
          exact cons_both q (ih hrest (g := .white leading) ⟨rfl, rfl, rfl, rfl⟩)
        | white e =>
          obtain ⟨rfl, rfl, rfl, rfl⟩ := h
          rw [fields]
          exact ih hrest ⟨rfl, rfl, rfl, rfl⟩
      | other c =>
        have hbetween : At none ([] : List α) false false false .none := ⟨rfl, rfl, rfl, rfl⟩
        have hnext := ih hrest hbetween
        rw [fields, fieldsByStretch]
        cases g with
        | none =>
          obtain ⟨rfl, rfl, rfl, rfl⟩ := h
          rw [show torn .none (.sym (.other c) :: ts) = torn .none ts by simp [torn, Gap.next]]
          exact cons_both [] hnext
        | text e =>
          obtain ⟨rfl, -, rfl, rfl, -⟩ := h
          rw [show torn (.text e) (.sym (.other c) :: ts) = torn .none ts by simp [torn, Gap.next]]
          exact cons_both q hnext
        | white e =>
          obtain ⟨rfl, rfl, rfl, rfl⟩ := h
          cases e with
          | false =>
            rw [show torn (.white false) (.sym (.other c) :: ts) = torn .none ts by
              simp [torn, Gap.next]]
            exact hnext
          | true =>
            rw [show torn (.white true) (.sym (.other c) :: ts) = true by simp [torn]]
            refine ⟨fun h => (by cases h), Nat.succ_le_succ ?_⟩
            exact Nat.le_trans (Nat.le_add_right _ _) hnext.2

/-- A splitter that looks at one stretch at a time finds the fields exactly when no delimiter is
torn. -/
theorem fieldsByStretch_eq_iff (ts : List (Tok α)) (hts : ∀ t ∈ ts, t.Plain) :
    fieldsByStretch [] false false ts = fields none false ts ↔ torn .none ts = false := by
  have hstart : At none ([] : List α) false false false .none := ⟨rfl, rfl, rfl, rfl⟩
  obtain ⟨hsame, hlen⟩ := fields_cases ts hts hstart
  refine ⟨fun h => Bool.eq_false_iff.2 fun ht => ?_, hsame⟩
  rw [ht, if_pos rfl, h] at hlen
  omega

/-! ### Empty parts and separators -/

/-- What stands before a place: nothing of a field, its text, white space behind a field, an empty
part, or an empty field that has been saved. -/
inductive Stand
  | none
  | text (edge : Bool)
  | white (edge : Bool)
  | null
  | saved

/-- No empty part is followed by white space or by the end before it has text or a delimiter, unless
it has been saved; nothing comes after a field that has been saved; and no delimiter is torn. -/
def Stand.sound : Stand → List (Tok α) → Bool
  | .null, [] => false
  | _, [] => true
  | .text _, .edge :: ts => Stand.sound (.text true) ts
  | .white _, .edge :: ts => Stand.sound (.white true) ts
  | s, .edge :: ts => s.sound ts
  | .text e, .null :: ts => Stand.sound (.text e) ts
  | .white false, .null :: _ => false
  | .saved, .null :: ts => Stand.sound .saved ts
  | _, .null :: ts => Stand.sound .null ts
  | .white false, .sep :: _ => false
  | .saved, .sep :: _ => false
  | _, .sep :: ts => Stand.sound .null ts
  | .null, .save :: ts => if ends ts then Stand.sound .saved ts else Stand.sound .null ts
  | .text e, .save :: ts => Stand.sound (.text e) ts
  | s, .save :: ts => !ends ts && s.sound ts
  | .saved, .sym _ :: _ => false
  | _, .sym (.text _ _) :: ts => Stand.sound (.text false) ts
  | .none, .sym (.white _) :: ts => Stand.sound .none ts
  | .text e, .sym (.white _) :: ts => Stand.sound (.white e) ts
  | .white e, .sym (.white _) :: ts => Stand.sound (.white e) ts
  | .null, .sym (.white _) :: _ => false
  | .white true, .sym (.other _) :: _ => false
  | _, .sym (.other _) :: ts => Stand.sound .none ts

/-- How both splitters stand at a place with empty parts. -/
def Stand.At (p : Option (List α)) (q : List α) (white white' leading : Bool) : Stand → Prop
  | .none => p = .none ∧ q = [] ∧ white = false ∧ white' = false
  | .text edge => p = some q ∧ q ≠ [] ∧ white = false ∧ white' = false ∧ leading = edge
  | .white edge => p = .none ∧ q = [] ∧ white = true ∧ white' = !edge
  | .null => p = some [] ∧ q = [] ∧ white = false ∧ white' = false
  | .saved => False

/-- After an empty field has been saved nothing is left. -/
theorem fields_saved (ts : List (Tok α)) (h : Stand.sound .saved ts = true) (white white' leading : Bool) :
    fields (some []) white ts = [] :: fieldsByStretch [] white' leading ts := by
  induction ts generalizing white white' leading with
  | nil => rfl
  | cons t ts ih =>
    cases t with
    | edge => exact ih h _ _ _
    | null => exact ih h _ _ _
    | sep => simp [Stand.sound] at h
    | save =>
      simp only [Stand.sound, Bool.and_eq_true, Bool.not_eq_true'] at h
      rw [fields, fieldsByStretch, h.1]
      exact ih h.2 _ _ _
    | sym u => simp [Stand.sound] at h

/-- Where nothing of the kind happens both splitters find the same fields. -/
theorem fields_sound (ts : List (Tok α)) {p : Option (List α)} {q : List α}
    {white white' leading : Bool} {s : Stand} (h : s.At p q white white' leading)
    (hs : s.sound ts = true) : fieldsByStretch q white' leading ts = fields p white ts := by
  induction ts generalizing p q white white' leading s with
  | nil =>
    cases s with
    | none =>
      obtain ⟨rfl, rfl, -⟩ := h
      rfl
    | text e =>
      obtain ⟨rfl, hq, -⟩ := h
      simp [fields, fieldsByStretch, hq]
    | white e =>
      obtain ⟨rfl, rfl, -⟩ := h
      rfl
    | null => simp [Stand.sound] at hs
    | saved => exact h.elim
  | cons t ts ih =>
    cases s with
    | saved => exact h.elim
    | none =>
      obtain ⟨rfl, rfl, rfl, rfl⟩ := h
      cases t with
      | edge => exact ih (s := .none) ⟨rfl, rfl, rfl, rfl⟩ hs
      | null => exact ih (s := .null) ⟨rfl, rfl, rfl, rfl⟩ hs
      | sep => exact congrArg ([] :: ·) (ih (s := .null) ⟨rfl, rfl, rfl, rfl⟩ hs)
      | save =>
        simp only [Stand.sound, Bool.and_eq_true, Bool.not_eq_true'] at hs
        rw [fields, fieldsByStretch, hs.1]
        exact ih (s := .none) ⟨rfl, rfl, rfl, rfl⟩ hs.2
      | sym u =>
        cases u with
        | text b hb => exact ih (s := .text false) ⟨rfl, hb, rfl, rfl, rfl⟩ hs
        | white c => exact ih (s := .none) ⟨rfl, rfl, rfl, rfl⟩ hs
        | other c => exact congrArg ([] :: ·) (ih (s := .none) ⟨rfl, rfl, rfl, rfl⟩ hs)
    | text e =>
      obtain ⟨rfl, hq, rfl, rfl, rfl⟩ := h
      have hq' : q.isEmpty = false := by simpa using hq
      cases t with
      | edge => exact ih (s := .text true) ⟨rfl, hq, rfl, rfl, rfl⟩ hs
      | null => exact ih (s := .text leading) ⟨rfl, hq, rfl, rfl, rfl⟩ hs
      | sep => exact congrArg (q :: ·) (ih (s := .null) ⟨rfl, rfl, rfl, rfl⟩ hs)
      | save =>
        rw [fields, fieldsByStretch, hq', Bool.false_and, if_neg Bool.false_ne_true]
        exact ih (s := .text leading) ⟨rfl, hq, rfl, rfl, rfl⟩ hs
      | sym u =>
        cases u with
        | text b hb => exact ih (s := .text false) ⟨rfl, by simp [hb], rfl, rfl, rfl⟩ hs
        | white c =>
          rw [fields, fieldsByStretch, hq', if_neg Bool.false_ne_true]
          exact congrArg (q :: ·) (ih (s := .white leading) ⟨rfl, rfl, rfl, rfl⟩ hs)
        | other c => exact congrArg (q :: ·) (ih (s := .none) ⟨rfl, rfl, rfl, rfl⟩ hs)
    | white e =>
      obtain ⟨rfl, rfl, rfl, rfl⟩ := h
      cases t with
      | edge => exact ih (s := .white true) ⟨rfl, rfl, rfl, rfl⟩ hs
      | null =>
        cases e with
        | false => simp [Stand.sound] at hs
        | true => exact ih (s := .null) ⟨rfl, rfl, rfl, rfl⟩ hs
      | sep =>
        cases e with
        | false => simp [Stand.sound] at hs
        | true => exact congrArg ([] :: ·) (ih (s := .null) ⟨rfl, rfl, rfl, rfl⟩ hs)
      | save =>
        have hs' : ends ts = false ∧ Stand.sound (.white e) ts = true := by
          cases e <;> simpa [Stand.sound] using hs
        rw [fields, fieldsByStretch, hs'.1]
        exact ih (s := .white e) ⟨rfl, rfl, rfl, rfl⟩ hs'.2
      | sym u =>
        cases u with
        | text b hb =>
          have hs' : Stand.sound (.text false) ts = true := by
            cases e <;> simpa [Stand.sound] using hs
          exact ih (s := .text false) ⟨rfl, hb, rfl, rfl, rfl⟩ hs'
        | white c =>
          have hs' : Stand.sound (.white e) ts = true := by
            cases e <;> simpa [Stand.sound] using hs
          exact ih (s := .white e) ⟨rfl, rfl, rfl, rfl⟩ hs'
        | other c =>
          cases e with
          | false => exact ih (s := .none) ⟨rfl, rfl, rfl, rfl⟩ hs
          | true => simp [Stand.sound] at hs
    | null =>
      obtain ⟨rfl, rfl, rfl, rfl⟩ := h
      cases t with
      | edge => exact ih (s := .null) ⟨rfl, rfl, rfl, rfl⟩ hs
      | null => exact ih (s := .null) ⟨rfl, rfl, rfl, rfl⟩ hs
      | sep => exact congrArg ([] :: ·) (ih (s := .null) ⟨rfl, rfl, rfl, rfl⟩ hs)
      | save =>
        rw [Stand.sound] at hs
        rw [fields, fieldsByStretch]
        by_cases hends : ends ts = true
        · rw [if_pos hends] at hs
          rw [hends, fields_saved ts hs false false leading]
          rfl
        · rw [if_neg hends] at hs
          rw [if_neg fun h => hends (by simpa using h)]
          exact ih (s := .null) ⟨rfl, rfl, rfl, rfl⟩ hs
      | sym u =>
        cases u with
        | text b hb => exact ih (s := .text false) ⟨rfl, hb, rfl, rfl, rfl⟩ hs
        | white c => simp [Stand.sound] at hs
        | other c => exact congrArg ([] :: ·) (ih (s := .none) ⟨rfl, rfl, rfl, rfl⟩ hs)

end Bsdi.Lib.Splitting
