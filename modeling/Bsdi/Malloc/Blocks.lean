import Mathlib.Data.List.Pairwise
import Bsdi.Malloc.Words

/-!
# The blocks of the allocator

The allocator and its client: what was handed out and not given back, over every sequence of calls,
with stores of the client into its own storage in between. The invariant says of every block that
`morecore` ever cut out that it is in use or on the list for its size, and where its header is.
-/

namespace Bsdi.Malloc

/-- Storage that a client holds, with the size it asked for. -/
structure Obj where
  ptr : Nat
  size : Nat
  deriving DecidableEq, Repr

structure System where
  heap : Heap
  live : List Obj

/-- The calls, where a null pointer is `none`, and a store by the client. -/
inductive Op
  | malloc (nbytes : Nat) (ans : Answers)
  | free (cp : Option Nat)
  | realloc (cp : Option Nat) (nbytes : Nat) (ans : Answers)
  | store (a : Nat) (v : Byte)

namespace System

def start : System := ⟨.start, []⟩

def without (live : List Obj) (cp : Nat) : List Obj := live.filter fun o => o.ptr ≠ cp

/-- A call. When `realloc` has no space, the object it was given is unchanged, as the manual says. -/
def step (page srchlen : Nat) (s : System) : Op → System
  | .malloc nbytes ans | .realloc none nbytes ans =>
    match s.heap.malloc page nbytes ans with
    | (none, h) => ⟨h, s.live⟩
    | (some p, h) => ⟨h, ⟨p, nbytes⟩ :: s.live⟩
  | .free none => s
  | .free (some cp) => ⟨s.heap.free cp, without s.live cp⟩
  | .realloc (some cp) nbytes ans =>
    match s.heap.realloc page srchlen cp nbytes ans with
    | (none, h) => ⟨h, s.live⟩
    | (some p, h) => ⟨h, ⟨p, nbytes⟩ :: without s.live cp⟩
  | .store a v => ⟨{ s.heap with mem := Function.update s.heap.mem a v }, s.live⟩

end System

def FreshRegion (regions : List (Nat × Nat)) (a n : Nat) : Prop :=
  0 < a ∧ a + n ≤ 2 ^ 32 ∧ ∀ r ∈ regions, a + n ≤ r.1 ∨ r.1 + r.2 ≤ a

/-- What `sbrk` answers: a failure, or a region disjoint from all earlier ones. -/
def Answered (page nbytes : Nat) (ans : Answers) (h : Heap) : Prop :=
  (h.pagesz = 0 → ∀ a, ans.align = some a → FreshRegion h.regions a (Heap.alignSize page ans)) ∧
  ∀ a b, ans.core = some a →
    bucketOf (h.setup page ans).2.pagesz (h.setup page ans).2.pagebucket nbytes = some b →
    FreshRegion (h.setup page ans).2.regions a (coreSize (h.setup page ans).2.pagesz b)

/-- The calls of the claim: `free` and `realloc` get storage that is held, and a client stores only
into storage that it holds. -/
def Proper (page : Nat) (s : System) : Op → Prop
  | .malloc nbytes ans | .realloc none nbytes ans => Answered page nbytes ans s.heap
  | .free none => True
  | .free (some cp) => ∃ o ∈ s.live, o.ptr = cp
  | .realloc (some cp) nbytes ans => (∃ o ∈ s.live, o.ptr = cp) ∧ Answered page nbytes ans s.heap
  | .store a _ => ∃ o ∈ s.live, o.ptr ≤ a ∧ a < o.ptr + o.size

/-- `sbrk` does not fail when the first call aligns the break, and what it gives `morecore` is
aligned. -/
def Aligned (page : Nat) (ans : Answers) (h : Heap) : Prop :=
  (h.pagesz = 0 → Heap.alignSize page ans ≠ 0 → ans.align ≠ none) ∧
  ∀ a, ans.core = some a → a % 4 = 0

/-- There is a block for a request, or `sbrk` gives one. -/
def Room (nbytes : Nat) (ans : Answers) (h : Heap) : Prop :=
  ∃ b, bucketOf h.pagesz h.pagebucket nbytes = some b ∧
    (h.nextf b ≠ 0 ∨ b + 3 < 31 ∧ ans.core ≠ none)

/-- When the calls do what they should: the answers are aligned, and `realloc` has room for a block
that it does not leave where it is. -/
def Sane (page srchlen : Nat) (s : System) : Op → Prop
  | .malloc _ ans | .realloc none _ ans => Aligned page ans s.heap
  | .realloc (some cp) nbytes ans => Aligned page ans s.heap ∧
      (s.heap.stays srchlen cp nbytes = true ∨ Room nbytes ans (s.heap.free cp))
  | _ => True

/-- The states reached by calls that meet a condition. -/
inductive Reached (page srchlen : Nat) (ok : System → Op → Prop) : System → Prop
  | start : Reached page srchlen ok .start
  | step {s : System} {op : Op} : Reached page srchlen ok s → ok s op →
      Reached page srchlen ok (s.step page srchlen op)

structure Allocated (page : Nat) (s : System) : Prop where
  disjoint : s.live.Pairwise fun o o' => o.ptr + o.size + overhead ≤ o'.ptr ∨
    o'.ptr + o'.size + overhead ≤ o.ptr
  inside : ∀ o ∈ s.live, ∃ r ∈ s.heap.regions, r.1 + overhead ≤ o.ptr ∧ o.ptr + o.size ≤ r.1 + r.2
  aligned : ∀ o ∈ s.live, o.ptr % 4 = 0
  large : ∀ o ∈ s.live, ∃ b, (o.ptr - overhead, b) ∈ s.heap.carved ∧
    o.size + overhead ≤ blockSize page b
  -- Every block is in use, or on the one list for its size and on no other.
  kept : ∃ lists : Nat → List Nat,
    (∀ b, Chain s.heap.mem (s.heap.nextf b) (lists b) ∧ (lists b).Nodup) ∧
    ∀ x ∈ s.heap.carved,
      (∃ o ∈ s.live, o.ptr = x.1 + overhead) ∧ (∀ b, x.1 ∉ lists b) ∨
      (∀ o ∈ s.live, o.ptr ≠ x.1 + overhead) ∧ ∀ b, x.1 ∈ lists b ↔ b = x.2

/-! ### The invariant -/

def Apart (page : Nat) (x y : Nat × Nat) : Prop :=
  x.1 + blockSize page x.2 ≤ y.1 ∨ y.1 + blockSize page y.2 ≤ x.1

/-- Facts about the blocks and the regions alone. -/
structure Laid (page : Nat) (h : Heap) : Prop where
  apart : h.carved.Pairwise (Apart page)
  inside : ∀ x ∈ h.carved, ∃ r ∈ h.regions, r.1 ≤ x.1 ∧ x.1 + blockSize page x.2 ≤ r.1 + r.2
  aligned : ∀ x ∈ h.carved, x.1 % 4 = 0
  bounds : ∀ x ∈ h.carved, 0 < x.1 ∧ x.1 + blockSize page x.2 ≤ 2 ^ 32 ∧ x.2 + 3 ≤ 31
  zero : ∀ a, (∀ r ∈ h.regions, ¬ (r.1 ≤ a ∧ a < r.1 + r.2)) → h.mem a = 0

def InUse (page : Nat) (h : Heap) (o : Obj) (x : Nat × Nat) : Prop :=
  x ∈ h.carved ∧ o.ptr = x.1 + overhead ∧ o.size + overhead ≤ blockSize page x.2 ∧
    (h.mem x.1).toNat = magic ∧ (h.mem (x.1 + 1)).toNat = x.2

structure Inv (k : Nat) (h : Heap) (live : List Obj) (lists : Nat → List Nat) : Prop where
  laid : Laid (2 ^ (k + 3)) h
  page : h.pagesz = 0 ∧ h.carved = [] ∨ h.pagesz = 2 ^ (k + 3) ∧ h.pagebucket = k
  chain : ∀ b, Chain h.mem (h.nextf b) (lists b)
  nodup : ∀ b, (lists b).Nodup
  free : ∀ b, ∀ a ∈ lists b, (a, b) ∈ h.carved
  used : ∀ o ∈ live, ∃ x, InUse (2 ^ (k + 3)) h o x
  covers : ∀ x ∈ h.carved, x.1 ∈ lists x.2 ∨ ∃ o ∈ live, o.ptr = x.1 + overhead
  only : ∀ o ∈ live, ∀ b, ∀ a ∈ lists b, o.ptr ≠ a + overhead
  once : (live.map (·.ptr)).Nodup

section

variable {page k : Nat} {h h' : Heap} {mem : Nat → Byte} {live : List Obj} {lists : Nat → List Nat}
  {o : Obj} {x y : Nat × Nat}

/-! ### Stores to one block -/

instance : Std.Symm (Apart page) := ⟨fun _ _ hxy => Or.symm hxy⟩

theorem Laid.apart_of_ne (hl : Laid page h) (hx : x ∈ h.carved) (hy : y ∈ h.carved) (hne : x ≠ y) :
    Apart page x y :=
  hl.apart.forall hx hy hne

theorem Laid.eq_of_addr (hl : Laid page h) (hx : x ∈ h.carved) (hy : y ∈ h.carved) (heq : x.1 = y.1) :
    x = y := by
  by_contra hne
  have hx8 := blockSize_ge page x.2
  have hy8 := blockSize_ge page y.2
  rcases hl.apart_of_ne hx hy hne with hxy | hxy <;> omega

def Local (page : Nat) (x : Nat × Nat) (mem mem' : Nat → Byte) : Prop :=
  ∀ j, ¬ (x.1 ≤ j ∧ j < x.1 + blockSize page x.2) → mem' j = mem j

theorem Laid.frame (hl : Laid page h) (hx : x ∈ h.carved) (hy : y ∈ h.carved) (hne : y.1 ≠ x.1)
    (hloc : Local page x h.mem mem) {j : Nat} (hj : y.1 ≤ j) (hj' : j < y.1 + 8) :
    mem j = h.mem j := by
  have hy8 := blockSize_ge page y.2
  apply hloc
  rcases hl.apart_of_ne hx hy (fun heq => hne (by rw [heq])) with hxy | hxy <;> omega

theorem Laid.word_frame (hl : Laid page h) (hx : x ∈ h.carved) (hy : y ∈ h.carved) (hne : y.1 ≠ x.1)
    (hloc : Local page x h.mem mem) : getWord mem y.1 = getWord h.mem y.1 :=
  getWord_congr fun _ hj hj' => hl.frame hx hy hne hloc hj (by omega)

theorem Laid.of_local (hl : Laid page h) (hx : x ∈ h.carved) (hcarved : h'.carved = h.carved)
    (hregions : h'.regions = h.regions) (hloc : Local page x h.mem h'.mem) : Laid page h' := by
  refine ⟨hcarved ▸ hl.apart, hcarved ▸ hregions ▸ hl.inside, hcarved ▸ hl.aligned,
    hcarved ▸ hl.bounds, fun a ha => ?_⟩
  rw [hregions] at ha
  obtain ⟨r, hr, hr₁, hr₂⟩ := hl.inside x hx
  have hout := ha r hr
  rw [hloc a (by omega)]
  exact hl.zero a ha

theorem InUse.frame (hl : Laid page h) (hx : x ∈ h.carved) (hu : InUse page h o y) (hne : y.1 ≠ x.1)
    (hcarved : h'.carved = h.carved) (hloc : Local page x h.mem h'.mem) : InUse page h' o y := by
  obtain ⟨hy, hptr, hsize, hmagic, hindex⟩ := hu
  refine ⟨hcarved ▸ hy, hptr, hsize, ?_, ?_⟩
  · rw [hl.frame hx hy hne hloc (by omega) (by omega), hmagic]
  · rw [hl.frame hx hy hne hloc (by omega) (by omega), hindex]

theorem Inv.notMem_lists (hi : Inv k h live lists) (ho : o ∈ live) (hu : InUse (2 ^ (k + 3)) h o x)
    {b a : Nat} (ha : a ∈ lists b) : a ≠ x.1 := by
  rintro rfl
  exact hi.only o ho b x.1 ha hu.2.1

theorem Inv.write (hi : Inv k h live lists) (ho : o ∈ live) (hu : InUse (2 ^ (k + 3)) h o x)
    (hmem : ∀ j, ¬ (x.1 + overhead ≤ j ∧ j < x.1 + blockSize (2 ^ (k + 3)) x.2) → mem j = h.mem j) :
    Inv k { h with mem } live lists := by
  have hl := hi.laid
  have hx := hu.1
  have hloc : Local (2 ^ (k + 3)) x h.mem mem := fun j hj => hmem j (by unfold overhead; omega)
  refine ⟨hl.of_local hx rfl rfl hloc, hi.page, fun b => ?_, hi.nodup, hi.free, fun o' ho' => ?_,
    hi.covers, hi.only, hi.once⟩
  · exact (hi.chain b).congr fun a ha =>
      hl.word_frame (y := (a, b)) hx (hi.free b a ha) (hi.notMem_lists ho hu ha) hloc
  · obtain ⟨y, hy⟩ := hi.used o' ho'
    refine ⟨y, ?_⟩
    by_cases hyx : y.1 = x.1
    · -- The header lies before the data.
      obtain rfl := hl.eq_of_addr hy.1 hx hyx
      refine ⟨hy.1, hy.2.1, hy.2.2.1, ?_, ?_⟩
      · change (mem y.1).toNat = magic
        rw [hmem y.1 (by unfold overhead; omega), hy.2.2.2.1]
      · change (mem (y.1 + 1)).toNat = y.2
        rw [hmem (y.1 + 1) (by unfold overhead; omega), hy.2.2.2.2]
    · exact hy.frame hl hx hyx rfl hloc

/-! ### Taking and giving back -/

theorem Inv.pop (hi : Inv k h live lists) {b a nbytes : Nat} {l : List Nat} (hlist : lists b = a :: l)
    (hsize : nbytes + overhead ≤ blockSize (2 ^ (k + 3)) b) :
    (h.pop b).1 = a + overhead ∧
      Inv k (h.pop b).2 (⟨a + overhead, nbytes⟩ :: live) (Function.update lists b l) := by
  have hl := hi.laid
  have hx : (a, b) ∈ h.carved := hi.free b a (by simp [hlist])
  have hchain := hi.chain b
  rw [hlist] at hchain
  obtain ⟨hhead, -, hrest⟩ := hchain
  have hb := (hl.bounds _ hx).2.2
  have h8 := blockSize_ge (2 ^ (k + 3)) b
  have hloc : Local (2 ^ (k + 3)) (a, b) h.mem (h.pop b).2.mem := by
    intro j hj
    simp only [Heap.pop, hhead]
    rw [setByte_of_ne (by simp at hj; omega), setByte_of_ne (by simp at hj; omega)]
  have hnodup := hi.nodup b
  rw [hlist, List.nodup_cons] at hnodup
  -- The block is on no list any more.
  have hnot : ∀ c, ∀ d ∈ Function.update lists b l c, d ≠ a := by
    intro c d hd
    by_cases hc : c = b
    · subst hc
      rw [Function.update_self] at hd
      exact fun heq => hnodup.1 (heq ▸ hd)
    · rw [Function.update_of_ne hc] at hd
      intro heq
      have := hl.eq_of_addr (hi.free c d hd) hx heq
      exact hc (congrArg Prod.snd this)
  have hmem : ∀ c, ∀ d ∈ Function.update lists b l c, d ∈ lists c := by
    intro c d hd
    by_cases hc : c = b
    · subst hc
      rw [Function.update_self] at hd
      simp [hlist, hd]
    · rwa [Function.update_of_ne hc] at hd
  refine ⟨by rw [Heap.pop, hhead], hl.of_local hx rfl rfl hloc, hi.page, fun c => ?_, fun c => ?_,
    fun c d hd => hi.free c d (hmem c d hd), ?_, fun y hy => ?_, ?_, ?_⟩
  · have hframe : ∀ d ∈ Function.update lists b l c, getWord (h.pop b).2.mem d = getWord h.mem d :=
      fun d hd => hl.word_frame (y := (d, c)) hx (hi.free c d (hmem c d hd)) (hnot c d hd) hloc
    refine Chain.congr hframe ?_
    by_cases hc : c = b
    · subst hc
      simpa [Heap.pop, hhead] using hrest
    · simpa [Heap.pop, Function.update_of_ne hc] using hi.chain c
  · by_cases hc : c = b
    · subst hc
      simpa using hnodup.2
    · simpa [Function.update_of_ne hc] using hi.nodup c
  · intro o ho
    rcases List.mem_cons.1 ho with rfl | ho
    · refine ⟨(a, b), hx, rfl, hsize, ?_, ?_⟩
      · simp only [Heap.pop, hhead]
        rw [setByte_of_ne (by omega), setByte_self]
        rfl
      · simp only [Heap.pop, hhead]
        rw [setByte_self, Nat.mod_eq_of_lt]
        simp only at hb
        omega
    · obtain ⟨y, hy⟩ := hi.used o ho
      have hne : y.1 ≠ a := fun heq => hi.only o ho b a (by simp [hlist]) (heq ▸ hy.2.1)
      exact ⟨y, hy.frame hl hx hne rfl hloc⟩
  · by_cases hya : y.1 = a
    · exact .inr ⟨_, List.mem_cons_self, by rw [hya]⟩
    · rcases hi.covers y hy with hin | ⟨o, ho, hptr⟩
      · left
        by_cases hc : y.2 = b
        · rw [hc, Function.update_self]
          rw [hc, hlist] at hin
          exact (List.mem_cons.1 hin).resolve_left hya
        · rwa [Function.update_of_ne hc]
      · exact .inr ⟨o, List.mem_cons_of_mem _ ho, hptr⟩
  · intro o ho c d hd
    rcases List.mem_cons.1 ho with rfl | ho
    · have := hnot c d hd
      simp only [ne_eq, Nat.add_right_cancel_iff]
      exact fun heq => this heq.symm
    · exact hi.only o ho c d (hmem c d hd)
  · rw [List.map_cons, List.nodup_cons]
    refine ⟨fun hmem => ?_, hi.once⟩
    obtain ⟨o, ho, hptr⟩ := List.mem_map.1 hmem
    exact hi.only o ho b a (by simp [hlist]) hptr

theorem Inv.push (hi : Inv k h live lists) (ho : o ∈ live) (hu : InUse (2 ^ (k + 3)) h o x) :
    Inv k (h.free o.ptr) (System.without live o.ptr)
      (Function.update lists x.2 (x.1 :: lists x.2)) := by
  have hl := hi.laid
  obtain ⟨hx, hptr, hsize, hmagic, hindex⟩ := hu
  have h8 := blockSize_ge (2 ^ (k + 3)) x.2
  have hop : o.ptr - overhead = x.1 := by rw [hptr, Nat.add_sub_cancel]
  have hfree : h.free o.ptr = { h with
      mem := setWord h.mem x.1 (h.nextf x.2)
      nextf := Function.update h.nextf x.2 x.1 } := by
    simp only [Heap.free, hop, hmagic, hindex, ne_eq, not_true_eq_false, if_false]
  have hloc : Local (2 ^ (k + 3)) x h.mem (setWord h.mem x.1 (h.nextf x.2)) :=
    fun j hj => setWord_of_notMem (by omega)
  have hword : getWord (setWord h.mem x.1 (h.nextf x.2)) x.1 = h.nextf x.2 := by
    apply getWord_setWord
    refine (hi.chain x.2).lt (fun a ha => ?_) (by decide)
    have := (hl.bounds _ (hi.free _ a ha)).2.1
    simp only at *
    omega
  have hnot : ∀ b, ∀ a ∈ lists b, a ≠ x.1 := fun b a ha =>
    hi.notMem_lists ho ⟨hx, hptr, hsize, hmagic, hindex⟩ ha
  have hchain : ∀ b, Chain (setWord h.mem x.1 (h.nextf x.2)) (h.nextf b) (lists b) := fun b =>
    (hi.chain b).congr fun a ha =>
      hl.word_frame (y := (a, b)) hx (hi.free b a ha) (hnot b a ha) hloc
  have hlists : ∀ b a, a ∈ Function.update lists x.2 (x.1 :: lists x.2) b ↔
      a ∈ lists b ∨ b = x.2 ∧ a = x.1 := by
    intro b a
    by_cases hb : b = x.2
    · subst hb
      rw [Function.update_self, List.mem_cons]
      tauto
    · rw [Function.update_of_ne hb]
      tauto
  have hlive : ∀ o', o' ∈ System.without live o.ptr ↔ o' ∈ live ∧ o'.ptr ≠ o.ptr := by
    intro o'
    simp [System.without]
  rw [hfree]
  refine ⟨hl.of_local hx rfl rfl hloc, hi.page, fun b => ?_, fun b => ?_, fun b a ha => ?_,
    fun o' ho' => ?_, fun y hy => ?_, fun o' ho' b a ha => ?_, ?_⟩
  · by_cases hb : b = x.2
    · subst hb
      simp only [Function.update_self]
      refine ⟨rfl, ?_, ?_⟩
      · have := (hl.bounds x hx).1
        omega
      · rw [hword]
        exact hchain x.2
    · simp only [Function.update_of_ne hb]
      exact hchain b
  · by_cases hb : b = x.2
    · subst hb
      rw [Function.update_self, List.nodup_cons]
      exact ⟨fun hmem => hnot x.2 x.1 hmem rfl, hi.nodup x.2⟩
    · rw [Function.update_of_ne hb]
      exact hi.nodup b
  · rcases (hlists b a).1 ha with ha | ⟨rfl, rfl⟩
    · exact hi.free b a ha
    · exact hx
  · obtain ⟨ho', hne⟩ := (hlive o').1 ho'
    obtain ⟨y, hy⟩ := hi.used o' ho'
    exact ⟨y, hy.frame hl hx (fun heq => hne (by rw [hy.2.1, hptr, heq])) rfl hloc⟩
  · by_cases hyx : y.1 = x.1
    · left
      rw [hl.eq_of_addr hy hx hyx, Function.update_self]
      exact List.mem_cons_self
    · rcases hi.covers y hy with hin | ⟨o', ho', hptr'⟩
      · exact .inl ((hlists y.2 y.1).2 (.inl hin))
      · refine .inr ⟨o', (hlive o').2 ⟨ho', ?_⟩, hptr'⟩
        rw [hptr', hptr]
        omega
  · obtain ⟨ho', hne⟩ := (hlive o').1 ho'
    rcases (hlists b a).1 ha with ha | ⟨-, rfl⟩
    · exact hi.only o' ho' b a ha
    · rwa [← hptr]
  · exact hi.once.sublist (List.filter_sublist.map _)

/-! ### More memory -/

theorem Inv.regions (hi : Inv k h live lists) (hmem : h'.mem = h.mem) (hnextf : h'.nextf = h.nextf)
    (hcarved : h'.carved = h.carved) (hregions : ∀ r ∈ h.regions, r ∈ h'.regions)
    (hpage : h'.pagesz = 2 ^ (k + 3) ∧ h'.pagebucket = k) : Inv k h' live lists := by
  have hl := hi.laid
  refine ⟨⟨hcarved ▸ hl.apart, fun x hx => ?_, hcarved ▸ hl.aligned, hcarved ▸ hl.bounds,
    fun a ha => ?_⟩, .inr hpage, fun b => ?_, hi.nodup, hcarved ▸ hi.free, fun o ho => ?_,
    hcarved ▸ hi.covers, hi.only, hi.once⟩
  · rw [hcarved] at hx
    obtain ⟨r, hr, hin⟩ := hl.inside x hx
    exact ⟨r, hregions r hr, hin⟩
  · rw [hmem]
    exact hl.zero a fun r hr => ha r (hregions r hr)
  · rw [hmem, hnextf]
    exact hi.chain b
  · obtain ⟨x, hx⟩ := hi.used o ho
    unfold InUse at hx ⊢
    exact ⟨x, by rwa [hmem, hcarved]⟩

theorem Inv.setup (hi : Inv k h live lists) (hk : k ≤ 26) {ans : Answers}
    (halign : h.pagesz = 0 → Heap.alignSize (2 ^ (k + 3)) ans ≠ 0 → ans.align ≠ none) :
    ∃ h', h.setup (2 ^ (k + 3)) ans = (false, h') ∧ Inv k h' live lists ∧
      h'.pagesz = 2 ^ (k + 3) ∧ h'.pagebucket = k := by
  have hpos : 2 ^ (k + 3) ≠ 0 := Nat.pos_iff_ne_zero.1 (Nat.two_pow_pos _)
  have hbucket : findPagebucket (2 ^ (k + 3)) 32 8 0 = k := findPagebucket_eq (Nat.zero_le k) (by omega)
  unfold Heap.setup
  rcases hi.page with ⟨hzero, hcarved⟩ | ⟨hpage, hpb⟩
  · simp only [hzero, ne_eq, not_true_eq_false, if_false, hbucket]
    by_cases hn : Heap.alignSize (2 ^ (k + 3)) ans = 0
    · simp only [hn, not_true_eq_false, if_false]
      exact ⟨_, rfl, hi.regions rfl rfl rfl (fun _ hr => hr) ⟨rfl, rfl⟩, rfl, rfl⟩
    · obtain ⟨a, ha⟩ := Option.ne_none_iff_exists'.1 (halign hzero hn)
      simp only [hn, not_false_eq_true, if_true, ha]
      exact ⟨_, rfl, hi.regions rfl rfl rfl (fun r hr => List.mem_cons_of_mem _ hr) ⟨rfl, rfl⟩, rfl, rfl⟩
  · rw [if_pos (by rw [hpage]; exact hpos)]
    exact ⟨h, rfl, hi, hpage, hpb⟩

/-- The blocks that `morecore` cuts out of a region. -/
def cut (page b op : Nat) : List Nat := (List.range (nblks page b)).map fun i => op + i * 2 ^ (b + 3)

theorem mem_cut {b op a : Nat} :
    a ∈ cut page b op ↔ ∃ i < nblks page b, op + i * 2 ^ (b + 3) = a := by
  simp [cut]

theorem cut_inside {b op a : Nat} (ha : a ∈ cut page b op) :
    op ≤ a ∧ a + blockSize page b ≤ op + coreSize page b := by
  obtain ⟨i, hi, rfl⟩ := mem_cut.1 ha
  have := blocks_fit hi
  omega

theorem cut_apart {b op : Nat} : (cut page b op).Pairwise fun a c => a + blockSize page b ≤ c := by
  unfold cut
  rw [List.pairwise_map]
  refine List.pairwise_lt_range.imp_of_mem fun {i j} hi hj hlt => ?_
  have hj' := List.mem_range.1 hj
  rw [blockSize_le_of_nblks (by omega : 1 < nblks page b)]
  have := Nat.mul_le_mul_right (2 ^ (b + 3)) (Nat.succ_le_of_lt hlt)
  rw [Nat.succ_mul] at this
  omega

theorem Laid.chain_cut (hl : Laid page h) {b op : Nat} (hfresh : FreshRegion h.regions op (coreSize page b)) :
    Chain (link (2 ^ (b + 3)) (nblks page b - 1) op h.mem) op (cut page b op) := by
  have hpow := Nat.pow_le_pow_right (n := 2) (by decide) (Nat.le_add_left 3 b)
  obtain ⟨hop, hlt, hdisj⟩ := hfresh
  obtain ⟨n, hn⟩ : ∃ n, nblks page b = n + 1 := ⟨nblks page b - 1, by have := nblks_pos page b; omega⟩
  have hfit : (n + 1) * 2 ^ (b + 3) ≤ coreSize page b := by
    have hb : n * 2 ^ (b + 3) + blockSize page b ≤ coreSize page b := blocks_fit (by omega)
    have hsize : 2 ^ (b + 3) ≤ blockSize page b := by
      unfold blockSize
      split <;> omega
    rw [Nat.succ_mul]
    omega
  unfold cut
  rw [hn, Nat.add_sub_cancel]
  apply chain_link (by omega) hop (by omega)
  intro j hj hj'
  apply hl.zero
  intro r hr hin
  rcases hdisj r hr with hd | hd <;> omega

theorem Laid.outside (hl : Laid page h) {op n : Nat} (hfresh : FreshRegion h.regions op n)
    (hx : x ∈ h.carved) : op + n ≤ x.1 ∨ x.1 + blockSize page x.2 ≤ op := by
  obtain ⟨r, hr, hr₁, hr₂⟩ := hl.inside x hx
  rcases hfresh.2.2 r hr with hd | hd <;> omega

/-- The heap after `morecore`. -/
def Heap.grown (h : Heap) (page b op : Nat) : Heap :=
  { h with
    mem := link (2 ^ (b + 3)) (nblks page b - 1) op h.mem
    nextf := Function.update h.nextf b op
    regions := (op, coreSize page b) :: h.regions
    carved := (cut page b op).map (fun a => (a, b)) ++ h.carved }

theorem morecore_eq {b op : Nat} (hb : b + 3 < 31) (hpage : h.pagesz = page) :
    h.morecore b (some op) = h.grown page b op := by
  subst hpage
  rw [Heap.morecore, if_neg (by omega), Heap.grown, cut, List.map_map]
  rfl

theorem grown_mem {b op j : Nat} (hj : ¬ (op ≤ j ∧ j < op + coreSize page b)) :
    (h.grown page b op).mem j = h.mem j := by
  have hpow := Nat.pow_le_pow_right (n := 2) (by decide) (Nat.le_add_left 3 b)
  have h8 := blockSize_ge page b
  have hfit : (nblks page b - 1) * 2 ^ (b + 3) + blockSize page b ≤ coreSize page b :=
    blocks_fit (by have := nblks_pos page b; omega)
  exact link_of_notMem (by omega) (by omega)

theorem Laid.grown_frame (hl : Laid page h) {b op j : Nat}
    (hfresh : FreshRegion h.regions op (coreSize page b)) (hy : y ∈ h.carved) (hj : y.1 ≤ j)
    (hj' : j < y.1 + 8) : (h.grown page b op).mem j = h.mem j := by
  have hy8 := blockSize_ge page y.2
  apply grown_mem
  rcases hl.outside hfresh hy with hd | hd <;> omega

theorem Laid.grown (hl : Laid page h) {b op : Nat} (hb : b + 3 ≤ 31)
    (hfresh : FreshRegion h.regions op (coreSize page b)) (h4 : op % 4 = 0) :
    Laid page (h.grown page b op) := by
  refine ⟨?_, fun x hx => ?_, fun x hx => ?_, fun x hx => ?_, fun a ha => ?_⟩
  · simp only [Heap.grown]
    rw [List.pairwise_append, List.pairwise_map]
    refine ⟨cut_apart.imp fun hac => .inl hac, hl.apart, fun x hx y hy => ?_⟩
    obtain ⟨a, ha, rfl⟩ := List.mem_map.1 hx
    have := cut_inside ha
    rcases hl.outside hfresh hy with hd | hd
    · exact .inl (by simp only; omega)
    · exact .inr (by simp only; omega)
  · rcases List.mem_append.1 hx with hx | hx
    · obtain ⟨a, ha, rfl⟩ := List.mem_map.1 hx
      exact ⟨_, List.mem_cons_self, cut_inside ha⟩
    · obtain ⟨r, hr, hin⟩ := hl.inside x hx
      exact ⟨r, List.mem_cons_of_mem _ hr, hin⟩
  · rcases List.mem_append.1 hx with hx | hx
    · obtain ⟨a, ha, rfl⟩ := List.mem_map.1 hx
      obtain ⟨i, -, rfl⟩ := mem_cut.1 ha
      have hdvd : 4 ∣ i * 2 ^ (b + 3) := by
        rw [show b + 3 = b + 1 + 2 from rfl, Nat.pow_add 2 (b + 1) 2, ← Nat.mul_assoc]
        exact Nat.dvd_mul_left _ _
      simp only
      omega
    · exact hl.aligned x hx
  · rcases List.mem_append.1 hx with hx | hx
    · obtain ⟨a, ha, rfl⟩ := List.mem_map.1 hx
      have := cut_inside ha
      obtain ⟨hop, hlt, -⟩ := hfresh
      simp only
      omega
    · exact hl.bounds x hx
  · have hnew := ha (op, coreSize page b) List.mem_cons_self
    rw [grown_mem hnew]
    exact hl.zero a fun r hr => ha r (List.mem_cons_of_mem _ hr)

theorem Inv.morecore (hi : Inv k h live lists) {b op : Nat} (hb : b + 3 < 31)
    (hpage : h.pagesz = 2 ^ (k + 3) ∧ h.pagebucket = k) (hnil : lists b = [])
    (hfresh : FreshRegion h.regions op (coreSize (2 ^ (k + 3)) b)) (h4 : op % 4 = 0) :
    Inv k (h.morecore b (some op)) live (Function.update lists b (cut (2 ^ (k + 3)) b op)) := by
  have hl := hi.laid
  have h8 := blockSize_ge (2 ^ (k + 3)) b
  rw [morecore_eq hb hpage.1]
  refine ⟨hl.grown (by omega) hfresh h4, .inr hpage, fun c => ?_, fun c => ?_, fun c a ha => ?_,
    fun o ho => ?_, fun x hx => ?_, fun o ho c a ha => ?_, hi.once⟩
  · by_cases hc : c = b
    · subst hc
      simp only [Heap.grown, Function.update_self]
      exact hl.chain_cut hfresh
    · simp only [Heap.grown, Function.update_of_ne hc]
      exact (hi.chain c).congr fun a ha => getWord_congr fun j hj hj' =>
        hl.grown_frame (y := (a, c)) hfresh (hi.free c a ha) hj (by simp only; omega)
  · by_cases hc : c = b
    · subst hc
      rw [Function.update_self]
      exact cut_apart.imp fun hac => by omega
    · rw [Function.update_of_ne hc]
      exact hi.nodup c
  · by_cases hc : c = b
    · subst hc
      rw [Function.update_self] at ha
      exact List.mem_append_left _ (List.mem_map_of_mem ha)
    · rw [Function.update_of_ne hc] at ha
      exact List.mem_append_right _ (hi.free c a ha)
  · obtain ⟨y, hy, hptr, hsize, hmagic, hindex⟩ := hi.used o ho
    refine ⟨y, List.mem_append_right _ hy, hptr, hsize, ?_, ?_⟩
    · rw [hl.grown_frame hfresh hy (by omega) (by omega), hmagic]
    · rw [hl.grown_frame hfresh hy (by omega) (by omega), hindex]
  · rcases List.mem_append.1 hx with hx | hx
    · obtain ⟨a, ha, rfl⟩ := List.mem_map.1 hx
      left
      simpa using ha
    · rcases hi.covers x hx with hin | hin
      · left
        by_cases hc : x.2 = b
        · rw [hc, hnil] at hin
          simp at hin
        · rwa [Function.update_of_ne hc]
      · exact .inr hin
  · by_cases hc : c = b
    · subst hc
      rw [Function.update_self] at ha
      obtain ⟨y, hy, hptr, -⟩ := hi.used o ho
      have hin := cut_inside ha
      have hy8 := blockSize_ge (2 ^ (k + 3)) y.2
      rw [hptr]
      rcases hl.outside hfresh hy with hd | hd <;> omega
    · rw [Function.update_of_ne hc] at ha
      exact hi.only o ho c a ha

/-! ### The calls -/

/-- `malloc` after its first part. -/
def Heap.serve (nbytes : Nat) (ans : Answers) (h : Heap) : Option Nat × Heap :=
  match bucketOf h.pagesz h.pagebucket nbytes with
  | none => (none, h)
  | some bucket =>
    let h := if h.nextf bucket = 0 then h.morecore bucket ans.core else h
    if h.nextf bucket = 0 then (none, h) else ((h.pop bucket).1, (h.pop bucket).2)

theorem malloc_of_setup {nbytes : Nat} {ans : Answers} (hset : h.setup page ans = (false, h')) :
    h.malloc page nbytes ans = h'.serve nbytes ans := by
  rw [Heap.malloc, hset]
  rfl

def Served (k : Nat) (live : List Obj) (nbytes : Nat) : Option Nat × Heap → Prop
  | (none, h) => ∃ lists, Inv k h live lists
  | (some p, h) => ∃ lists, Inv k h (⟨p, nbytes⟩ :: live) lists

theorem Inv.pop_served (hi : Inv k h live lists) {b nbytes : Nat} (hne : h.nextf b ≠ 0)
    (hsize : nbytes + overhead ≤ blockSize (2 ^ (k + 3)) b) :
    Served k live nbytes (some (h.pop b).1, (h.pop b).2) := by
  obtain ⟨l, hlist, -⟩ := (hi.chain b).cons_of_ne hne
  obtain ⟨hptr, hpop⟩ := hi.pop hlist hsize
  rw [hptr]
  exact ⟨_, hpop⟩

theorem Inv.serve (hi : Inv k h live lists) (hk : k ≤ 26)
    (hpage : h.pagesz = 2 ^ (k + 3) ∧ h.pagebucket = k) {nbytes : Nat} {ans : Answers}
    (hcore : ∀ a b, ans.core = some a → bucketOf h.pagesz h.pagebucket nbytes = some b →
      FreshRegion h.regions a (coreSize h.pagesz b))
    (h4 : ∀ a, ans.core = some a → a % 4 = 0) :
    Served k live nbytes (h.serve nbytes ans) ∧
      (Room nbytes ans h → (h.serve nbytes ans).1 ≠ none) := by
  unfold Heap.serve Room
  cases hb : bucketOf h.pagesz h.pagebucket nbytes with
  | none => exact ⟨⟨lists, hi⟩, by rintro ⟨b, hb', -⟩; cases hb'⟩
  | some b =>
    obtain ⟨hb31, hsize⟩ := bucketOf_spec (by omega) (hpage.1 ▸ hpage.2 ▸ hb)
    dsimp only
    by_cases hnext : h.nextf b = 0
    · rw [if_pos hnext]
      have hnil : lists b = [] := Chain.nil_of_zero (hnext ▸ hi.chain b)
      by_cases hbig : 31 ≤ b + 3
      · have hsame : h.morecore b ans.core = h := by
          unfold Heap.morecore
          rw [if_pos hbig]
        rw [hsame, if_pos hnext]
        refine ⟨⟨lists, hi⟩, ?_⟩
        rintro ⟨b', hb', hroom⟩
        cases hb'
        rcases hroom with hroom | ⟨hroom, -⟩
        · exact absurd hnext hroom
        · omega
      · cases hc : ans.core with
        | none =>
          have hsame : h.morecore b none = h := by rw [Heap.morecore, if_neg hbig]
          rw [hsame, if_pos hnext]
          refine ⟨⟨lists, hi⟩, ?_⟩
          rintro ⟨b', hb', hroom⟩
          cases hb'
          rcases hroom with hroom | ⟨-, hroom⟩
          · exact absurd hnext hroom
          · exact absurd rfl hroom
        | some op =>
          have hfresh := hcore op b hc hb
          rw [hpage.1] at hfresh
          have hmore := hi.morecore (by omega) hpage hnil hfresh (h4 op hc)
          have hnext' : (h.morecore b (some op)).nextf b ≠ 0 := by
            rw [morecore_eq (by omega) hpage.1, Heap.grown]
            simp only [Function.update_self]
            have := hfresh.1
            omega
          rw [if_neg hnext']
          exact ⟨hmore.pop_served hnext' hsize, by simp⟩
    · rw [if_neg hnext, if_neg hnext]
      exact ⟨hi.pop_served hnext hsize, by simp⟩

theorem Inv.malloc (hi : Inv k h live lists) (hk : k ≤ 26) {nbytes : Nat} {ans : Answers}
    (hans : Answered (2 ^ (k + 3)) nbytes ans h) (halign : Aligned (2 ^ (k + 3)) ans h) :
    Served k live nbytes (h.malloc (2 ^ (k + 3)) nbytes ans) ∧
      (h.pagesz ≠ 0 → Room nbytes ans h → (h.malloc (2 ^ (k + 3)) nbytes ans).1 ≠ none) := by
  obtain ⟨h', hset, hi', hpage⟩ := hi.setup hk halign.1
  have hcore := hans.2
  rw [hset] at hcore
  obtain ⟨hserved, hroom⟩ := hi'.serve hk hpage hcore halign.2
  rw [malloc_of_setup hset]
  refine ⟨hserved, fun hne hr => hroom ?_⟩
  have hsame : h' = h := by
    rw [Heap.setup, if_pos hne] at hset
    exact (Prod.mk.inj hset).2.symm
  rwa [hsame]

theorem Inv.resize (hi : Inv k h live lists) (ho : o ∈ live) (hu : InUse (2 ^ (k + 3)) h o x)
    {nbytes : Nat} (hsize : nbytes + overhead ≤ blockSize (2 ^ (k + 3)) x.2) :
    Inv k h (⟨o.ptr, nbytes⟩ :: System.without live o.ptr) lists := by
  have hlive : ∀ o' ∈ System.without live o.ptr, o' ∈ live ∧ o'.ptr ≠ o.ptr := by
    intro o' ho'
    simpa [System.without] using ho'
  refine ⟨hi.laid, hi.page, hi.chain, hi.nodup, hi.free, fun o' ho' => ?_, fun y hy => ?_,
    fun o' ho' b a ha => ?_, ?_⟩
  · rcases List.mem_cons.1 ho' with rfl | ho'
    · exact ⟨x, hu.1, hu.2.1, hsize, hu.2.2.2⟩
    · exact hi.used o' (hlive o' ho').1
  · rcases hi.covers y hy with hin | ⟨o', ho', hptr⟩
    · exact .inl hin
    · right
      by_cases heq : o'.ptr = o.ptr
      · exact ⟨_, List.mem_cons_self, by rw [← hptr, heq]⟩
      · exact ⟨o', List.mem_cons_of_mem _ (by simp [System.without, ho', heq]), hptr⟩
  · rcases List.mem_cons.1 ho' with rfl | ho'
    · exact hi.only o ho b a ha
    · exact hi.only o' (hlive o' ho').1 b a ha
  · rw [List.map_cons, List.nodup_cons]
    refine ⟨fun hmem => ?_, hi.once.sublist (List.filter_sublist.map _)⟩
    obtain ⟨o', ho', hptr⟩ := List.mem_map.1 hmem
    exact (hlive o' ho').2 hptr

theorem Inv.pagesz_of_mem (hi : Inv k h live lists) (hx : x ∈ h.carved) : h.pagesz = 2 ^ (k + 3) := by
  rcases hi.page with ⟨-, hnil⟩ | ⟨hpage, -⟩
  · simp [hnil] at hx
  · exact hpage

theorem InUse.locate (hu : InUse page h o x) (srchlen : Nat) :
    h.locate srchlen o.ptr = (true, x.2) := by
  obtain ⟨-, hptr, -, hmagic, hindex⟩ := hu
  have hop : o.ptr - overhead = x.1 := by rw [hptr, Nat.add_sub_cancel]
  simp only [Heap.locate, hop, hmagic, hindex, if_true]

theorem Inv.bcopy (hi : Inv k h live lists) (ho : o ∈ live) {src n : Nat} (hn : n ≤ o.size) :
    Inv k { h with mem := Malloc.bcopy h.mem src o.ptr n } live lists := by
  obtain ⟨x, hu⟩ := hi.used o ho
  refine hi.write ho hu fun j hj => if_neg ?_
  have hptr := hu.2.1
  have hsize := hu.2.2.1
  omega

theorem free_pagesz (cp : Nat) : (h.free cp).pagesz = h.pagesz ∧ (h.free cp).pagebucket = h.pagebucket ∧
    (h.free cp).regions = h.regions := by
  unfold Heap.free
  dsimp only
  split <;> exact ⟨rfl, rfl, rfl⟩

theorem Answered.free {nbytes : Nat} {ans : Answers} (hans : Answered page nbytes ans h) (cp : Nat)
    (hne : h.pagesz ≠ 0) : Answered page nbytes ans (h.free cp) := by
  obtain ⟨hp, hb, hr⟩ := free_pagesz (h := h) cp
  have hset : h.setup page ans = (false, h) := by rw [Heap.setup, if_pos hne]
  have hset' : (h.free cp).setup page ans = (false, h.free cp) := by
    rw [Heap.setup, if_pos (by rwa [hp])]
  obtain ⟨-, hcore⟩ := hans
  refine ⟨fun h0 => absurd (hp ▸ h0) hne, fun a b ha hbucket => ?_⟩
  rw [hset] at hcore
  rw [hset'] at hbucket ⊢
  simp only [hp, hb, hr] at hbucket ⊢
  exact hcore a b ha hbucket

theorem Inv.realloc (hi : Inv k h live lists) (hk : k ≤ 26) (ho : o ∈ live) {srchlen nbytes : Nat}
    {ans : Answers} (hans : Answered (2 ^ (k + 3)) nbytes ans h) (halign : Aligned (2 ^ (k + 3)) ans h)
    (hroom : h.stays srchlen o.ptr nbytes = true ∨ Room nbytes ans (h.free o.ptr)) :
    ∃ p h', h.realloc (2 ^ (k + 3)) srchlen o.ptr nbytes ans = (some p, h') ∧
      ∃ lists', Inv k h' (⟨p, nbytes⟩ :: System.without live o.ptr) lists' := by
  obtain ⟨x, hu⟩ := hi.used o ho
  have hpagesz := hi.pagesz_of_mem hu.1
  have hloc := hu.locate srchlen
  by_cases hstays : h.stays srchlen o.ptr nbytes = true
  · refine ⟨o.ptr, h, ?_, lists, hi.resize ho hu ?_⟩
    · simp only [Heap.realloc, hloc, hstays, if_true]
    · have hcap := capacity_eq (2 ^ (k + 3)) (hi.laid.bounds x hu.1).2.2
      simp only [Heap.stays, hloc, Bool.true_and, Bool.and_eq_true, decide_eq_true_eq, hpagesz] at hstays
      unfold overhead
      omega
  · have hpush := hi.push ho hu
    have hne : h.pagesz ≠ 0 := by
      rw [hpagesz]
      exact Nat.pos_iff_ne_zero.1 (Nat.two_pow_pos _)
    have hne' : (h.free o.ptr).pagesz ≠ 0 := by rwa [(free_pagesz o.ptr).1]
    obtain ⟨hserved, hnone⟩ := hpush.malloc hk (hans.free o.ptr hne) ⟨fun h0 => absurd h0 hne', halign.2⟩
    have hsome := hnone hne' (hroom.resolve_left hstays)
    simp only [Heap.realloc, hloc, if_neg hstays, if_true]
    cases hm : (h.free o.ptr).malloc (2 ^ (k + 3)) nbytes ans with
    | mk p h' =>
      rw [hm] at hserved hsome
      cases p with
      | none => exact absurd rfl hsome
      | some p =>
        obtain ⟨lists', hi'⟩ := hserved
        dsimp only
        split
        · exact ⟨p, _, rfl, lists', hi'.bcopy List.mem_cons_self (Nat.min_le_left _ _)⟩
        · exact ⟨p, h', rfl, lists', hi'⟩

/-! ### Runs -/

def Sound (k : Nat) (s : System) : Prop := ∃ lists, Inv k s.heap s.live lists

theorem sound_start : Sound k .start :=
  ⟨fun _ => [], ⟨.nil, by simp [System.start, Heap.start], by simp [System.start, Heap.start],
    by simp [System.start, Heap.start], fun _ _ => rfl⟩, .inl ⟨rfl, rfl⟩, fun _ => rfl, fun _ => .nil,
    by simp, by simp [System.start], by simp [System.start, Heap.start], by simp, .nil⟩

theorem Inv.malloc_step {s : System} (hi : Inv k s.heap s.live lists) (hk : k ≤ 26) {nbytes : Nat}
    {ans : Answers} (hans : Answered (2 ^ (k + 3)) nbytes ans s.heap)
    (halign : Aligned (2 ^ (k + 3)) ans s.heap) (srchlen : Nat) :
    Sound k (s.step (2 ^ (k + 3)) srchlen (.malloc nbytes ans)) := by
  have hserved := (hi.malloc hk hans halign).1
  rw [System.step]
  cases hm : s.heap.malloc (2 ^ (k + 3)) nbytes ans with
  | mk p h' =>
    rw [hm] at hserved
    cases p with
    | none => exact hserved
    | some p => exact hserved

theorem Sound.step (hk : k ≤ 26) {srchlen : Nat} {s : System} (hs : Sound k s) {op : Op}
    (hproper : Proper (2 ^ (k + 3)) s op) (hsane : Sane (2 ^ (k + 3)) srchlen s op) :
    Sound k (s.step (2 ^ (k + 3)) srchlen op) := by
  obtain ⟨lists, hi⟩ := hs
  cases op with
  | malloc nbytes ans => exact hi.malloc_step hk hproper hsane srchlen
  | free cp =>
    cases cp with
    | none => exact ⟨lists, hi⟩
    | some cp =>
      obtain ⟨o, ho, rfl⟩ := hproper
      obtain ⟨x, hu⟩ := hi.used o ho
      exact ⟨_, hi.push ho hu⟩
  | realloc cp nbytes ans =>
    cases cp with
    | none => exact hi.malloc_step hk hproper hsane srchlen
    | some cp =>
      obtain ⟨⟨o, ho, rfl⟩, hans⟩ := hproper
      obtain ⟨halign, hroom⟩ := hsane
      obtain ⟨p, h', heq, lists', hi'⟩ := hi.realloc hk ho hans halign hroom
      refine ⟨lists', ?_⟩
      rw [System.step, heq]
      exact hi'
  | store a v =>
    obtain ⟨o, ho, hle, hlt⟩ := hproper
    obtain ⟨x, hu⟩ := hi.used o ho
    refine ⟨lists, hi.write ho hu fun j hj => Function.update_of_ne ?_ _ _⟩
    have hptr := hu.2.1
    have hsize := hu.2.2.1
    rintro rfl
    omega

theorem sound_of_reached (hk : k ≤ 26) {srchlen : Nat} {s : System}
    (h : Reached (2 ^ (k + 3)) srchlen
      (fun s op => Proper (2 ^ (k + 3)) s op ∧ Sane (2 ^ (k + 3)) srchlen s op) s) : Sound k s := by
  induction h with
  | start => exact sound_start
  | step _ hok ih => exact ih.step hk hok.1 hok.2

theorem Inv.allocated {s : System} (hi : Inv k s.heap s.live lists) : Allocated (2 ^ (k + 3)) s := by
  have hl := hi.laid
  refine ⟨?_, fun o ho => ?_, fun o ho => ?_, fun o ho => ?_, lists,
    fun b => ⟨hi.chain b, hi.nodup b⟩, fun x hx => ?_⟩
  · have hne : s.live.Pairwise fun o o' => o.ptr ≠ o'.ptr := List.pairwise_map.1 hi.once
    refine hne.imp_of_mem fun {o o'} ho ho' hne => ?_
    obtain ⟨x, hx⟩ := hi.used o ho
    obtain ⟨y, hy⟩ := hi.used o' ho'
    have hxy : x ≠ y := fun heq => hne (by rw [hx.2.1, hy.2.1, heq])
    have hx₁ := hx.2.1
    have hx₂ := hx.2.2.1
    have hy₁ := hy.2.1
    have hy₂ := hy.2.2.1
    rcases hl.apart_of_ne hx.1 hy.1 hxy with hd | hd <;> omega
  · obtain ⟨x, hx⟩ := hi.used o ho
    obtain ⟨r, hr, hr₁, hr₂⟩ := hl.inside x hx.1
    have hptr := hx.2.1
    have hsize := hx.2.2.1
    exact ⟨r, hr, by omega, by omega⟩
  · obtain ⟨x, hx⟩ := hi.used o ho
    have hmod := hl.aligned x hx.1
    have hptr := hx.2.1
    unfold overhead at hptr
    omega
  · obtain ⟨x, hx⟩ := hi.used o ho
    refine ⟨x.2, ?_, hx.2.2.1⟩
    rw [hx.2.1, Nat.add_sub_cancel]
    exact hx.1
  · rcases hi.covers x hx with hin | ⟨o, ho, hptr⟩
    · refine .inr ⟨fun o ho => hi.only o ho x.2 x.1 hin, fun b => ⟨fun hb => ?_, ?_⟩⟩
      · exact congrArg Prod.snd (hl.eq_of_addr (hi.free b x.1 hb) hx rfl)
      · rintro rfl
        exact hin
    · exact .inl ⟨⟨o, ho, hptr⟩, fun b hb => hi.only o ho b x.1 hb hptr⟩

end

/-- The storage handed out is as promised in every state reached by proper calls of which `sbrk` and
the size requests meet the condition; `2 ^ (k + 3)` is the size of a page. -/
theorem allocator_sound (k srchlen : Nat) (hk : k ≤ 26) (s : System)
    (h : Reached (2 ^ (k + 3)) srchlen
      (fun s op => Proper (2 ^ (k + 3)) s op ∧ Sane (2 ^ (k + 3)) srchlen s op) s) :
    Allocated (2 ^ (k + 3)) s := by
  obtain ⟨lists, hi⟩ := sound_of_reached hk h
  exact hi.allocated

/-- The answers of `sbrk` at a break of 4096: to the first call, and to a later one. -/
def firstAnswers : Answers := ⟨4096, some 4096, some 8192⟩

theorem reached_first : Reached (2 ^ (9 + 3)) 4
    (fun s op => Proper (2 ^ (9 + 3)) s op ∧ Sane (2 ^ (9 + 3)) 4 s op)
    (System.start.step 4096 4 (.malloc 1 firstAnswers)) := by
  refine .step .start ⟨⟨fun _ a ha => ?_, fun a b ha hb => ?_⟩, ?_, ?_⟩
  · cases ha
    exact ⟨by decide, by decide, by simp [System.start, Heap.start]⟩
  · cases ha
    have hb' : b = 0 := by
      have hz : bucketOf (System.start.heap.setup (2 ^ (9 + 3)) firstAnswers).2.pagesz
          (System.start.heap.setup (2 ^ (9 + 3)) firstAnswers).2.pagebucket 1 = some 0 := by decide
      rw [hz] at hb
      exact (Option.some.inj hb).symm
    subst hb'
    refine ⟨by decide, by decide, ?_⟩
    decide
  · intro _ _ h
    cases h
  · intro a ha
    cases ha
    decide

theorem allocator_sound_one : Allocated 4096 (System.start.step 4096 4 (.malloc 1 firstAnswers)) :=
  allocator_sound 9 4 (by decide) _ reached_first

/-- The answers when `sbrk` fails at first. -/
def noAnswers : Answers := ⟨4096, none, none⟩

/-- `sbrk` fails in the first call; later there is memory, and a request of 5000 bytes gets a block of
eight. -/
theorem allocator_short : ¬ ∀ s : System, Reached 4096 4 (Proper 4096) s → Allocated 4096 s := by
  intro h
  have h₁ : Reached 4096 4 (Proper 4096) (System.start.step 4096 4 (.malloc 1 noAnswers)) :=
    .step .start ⟨fun _ _ ha => (nomatch ha), fun _ _ ha => (nomatch ha)⟩
  have hone : System.start.step 4096 4 (.malloc 1 noAnswers) =
      ⟨⟨fun _ => 0, fun _ => 0, 4096, 0, [], []⟩, []⟩ := rfl
  rw [hone] at h₁
  have h₂ := h₁.step (show Proper 4096 _ (.malloc 5000 firstAnswers) from by
    refine ⟨fun hz => absurd hz (by decide), fun a b ha hb => ?_⟩
    cases ha
    have hb' : b = 0 := (Option.some.inj (hb : some 0 = some b)).symm
    subst hb'
    exact ⟨by decide, by decide, fun r hr => by cases hr⟩)
  obtain ⟨r, hr, -, hin⟩ := (h _ h₂).inside ⟨8196, 5000⟩ List.mem_cons_self
  have hr' : r = (8192, 4096) := List.mem_singleton.1 hr
  rw [hr'] at hin
  exact absurd hin (by decide)

end Bsdi.Malloc
