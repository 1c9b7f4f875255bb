import Bsdi.Malloc.Blocks

/-!
# What `realloc` keeps

`realloc` gives the old block back before it asks for a new one. Its data outlive that, for only the
header becomes a link, and they are copied from the free block; but when there is no new block the
caller is left with storage that is on a free list.
-/

namespace Bsdi.Malloc

def OnFreeList (h : Heap) (a : Nat) : Prop := ∃ b l, Chain h.mem (h.nextf b) l ∧ a ∈ l

/-- What is promised of `realloc` of an object: the data are those of before, the object is free
when another one is returned, and it stays as it is when there is none. -/
def Keeps (page : Nat) (s : System) (o : Obj) (nbytes : Nat) : Option Nat × Heap → Prop
  | (some p, h) =>
    Allocated page ⟨h, ⟨p, nbytes⟩ :: System.without s.live o.ptr⟩ ∧
      (∀ j, j < min o.size nbytes → h.mem (p + j) = s.heap.mem (o.ptr + j)) ∧
      (p ≠ o.ptr → OnFreeList h (o.ptr - overhead))
  | (none, h) =>
    Allocated page ⟨h, s.live⟩ ∧ (∀ j, j < o.size → h.mem (o.ptr + j) = s.heap.mem (o.ptr + j)) ∧
      ¬ OnFreeList h (o.ptr - overhead)

/-- There is a block for a request beside the one at `cp`, that one will do, or `sbrk` gives one. -/
def Obtainable (nbytes cp : Nat) (ans : Answers) (h : Heap) : Prop :=
  ∃ b, bucketOf h.pagesz h.pagebucket nbytes = some b ∧
    (h.nextf b ≠ 0 ∨ (h.mem (cp - overhead + 1)).toNat = b ∨ b + 3 < 31 ∧ ans.core ≠ none)

section

variable {k page nbytes : Nat} {h : Heap} {live : List Obj} {lists : Nat → List Nat} {o : Obj}
  {x : Nat × Nat} {ans : Answers}

theorem Inv.pop_data (hi : Inv k h live lists) {b : Nat} (hne : h.nextf b ≠ 0)
    (hx : x ∈ h.carved) {j : Nat}
    (hj : x.1 + overhead ≤ j) (hj' : j < x.1 + blockSize (2 ^ (k + 3)) x.2) :
    (h.pop b).2.mem j = h.mem j := by
  obtain ⟨l, hlist, -⟩ := (hi.chain b).cons_of_ne hne
  have hop : (h.nextf b, b) ∈ h.carved := hi.free b _ (by simp [hlist])
  have h8 := blockSize_ge (2 ^ (k + 3)) b
  have haway : j ≠ h.nextf b ∧ j ≠ h.nextf b + 1 := by
    unfold overhead at hj
    by_cases heq : (h.nextf b, b) = x
    · subst heq
      omega
    · rcases hi.laid.apart_of_ne hop hx heq with hd | hd <;> simp only at hd <;> omega
  simp only [Heap.pop]
  rw [setByte_of_ne haway.2, setByte_of_ne haway.1]

theorem Inv.serve_data (hi : Inv k h live lists) (hpage : h.pagesz = 2 ^ (k + 3) ∧ h.pagebucket = k)
    (hcore : ∀ a b, ans.core = some a → bucketOf h.pagesz h.pagebucket nbytes = some b →
      FreshRegion h.regions a (coreSize h.pagesz b))
    (h4 : ∀ a, ans.core = some a → a % 4 = 0) (hx : x ∈ h.carved) {j : Nat}
      (hj : x.1 + overhead ≤ j)
    (hj' : j < x.1 + blockSize (2 ^ (k + 3)) x.2) : (h.serve nbytes ans).2.mem j = h.mem j := by
  unfold Heap.serve
  cases hb : bucketOf h.pagesz h.pagebucket nbytes with
  | none => rfl
  | some b =>
    dsimp only
    by_cases hnext : h.nextf b = 0
    · rw [if_pos hnext]
      have hnil : lists b = [] := Chain.nil_of_zero (hnext ▸ hi.chain b)
      by_cases hbig : 31 ≤ b + 3
      · have hsame : h.morecore b ans.core = h := by
          unfold Heap.morecore
          rw [if_pos hbig]
        rw [hsame, if_pos hnext]
      · cases hc : ans.core with
        | none =>
          have hsame : h.morecore b none = h := by rw [Heap.morecore, if_neg hbig]
          rw [hsame, if_pos hnext]
        | some op =>
          have hfresh := hcore op b hc hb
          rw [hpage.1] at hfresh
          have hmore := hi.morecore (by omega) hpage hnil hfresh (h4 op hc)
          have heq : h.morecore b (some op) = h.grown (2 ^ (k + 3)) b op :=
            morecore_eq (by omega) hpage.1
          have hgrown : (h.morecore b (some op)).mem j = h.mem j := by
            rw [heq]
            apply grown_mem
            rcases hi.laid.outside hfresh hx with hd | hd <;> omega
          have hx' : x ∈ (h.morecore b (some op)).carved := by
            rw [heq]
            exact List.mem_append_right _ hx
          split
          · exact hgrown
          · rename_i hne
            exact (hmore.pop_data hne hx' hj hj').trans hgrown
    · rw [if_neg hnext, if_neg hnext]
      exact hi.pop_data hnext hx hj hj'

theorem room_of_malloc (hne : h.pagesz ≠ 0) (hsome : (h.malloc page nbytes ans).1 ≠ none) :
    Room nbytes ans h := by
  have hset : h.setup page ans = (false, h) := by rw [Heap.setup, if_pos hne]
  rw [malloc_of_setup hset] at hsome
  unfold Heap.serve at hsome
  cases hb : bucketOf h.pagesz h.pagebucket nbytes with
  | none =>
    rw [hb] at hsome
    exact absurd rfl hsome
  | some b =>
    refine ⟨b, hb, ?_⟩
    by_contra hnot
    push Not at hnot
    have hsame : h.morecore b ans.core = h := by
      unfold Heap.morecore
      split
      · rfl
      · rw [hnot.2 (by omega)]
    simp only [hb, hnot.1, if_true, hsame, ne_eq, not_true_eq_false] at hsome

theorem InUse.free_eq (hu : InUse page h o x) :
    h.free o.ptr = { h with
      mem := setWord h.mem x.1 (h.nextf x.2), nextf := Function.update h.nextf x.2 x.1 } := by
  obtain ⟨-, hptr, -, hmagic, hindex⟩ := hu
  have hop : o.ptr - overhead = x.1 := by rw [hptr, Nat.add_sub_cancel]
  simp only [Heap.free, hop, hmagic, hindex, ne_eq, not_true_eq_false, if_false]

theorem Inv.obtainable_iff (hi : Inv k h live lists) (hu : InUse (2 ^ (k + 3)) h o x) :
    Obtainable nbytes o.ptr ans h ↔ Room nbytes ans (h.free o.ptr) := by
  have hpos := (hi.laid.bounds x hu.1).1
  have hindex : (h.mem (o.ptr - overhead + 1)).toNat = x.2 := by
    rw [hu.2.1, Nat.add_sub_cancel, hu.2.2.2.2]
  rw [hu.free_eq, Obtainable, Room, hindex]
  refine exists_congr fun b => and_congr_right fun _ => ?_
  by_cases hb : b = x.2
  · subst hb
    simp only [Function.update_self]
    exact ⟨fun _ => .inl (by omega), fun _ => .inr (.inl trivial)⟩
  · simp only [Function.update_of_ne hb, Ne.symm hb, false_or]

theorem Inv.onFreeList (hi : Inv k h live lists) (hx : x ∈ h.carved)
    (hnone : ∀ o ∈ live, o.ptr ≠ x.1 + overhead) : OnFreeList h x.1 := by
  rcases hi.covers x hx with hin | ⟨o, ho, hptr⟩
  · exact ⟨x.2, lists x.2, hi.chain x.2, hin⟩
  · exact absurd hptr (hnone o ho)

variable {s : System} {srchlen : Nat}

theorem Inv.keeps_stays (hi : Inv k s.heap s.live lists) (ho : o ∈ s.live)
    (hu : InUse (2 ^ (k + 3)) s.heap o x) (hstays : s.heap.stays srchlen o.ptr nbytes = true) :
    Keeps (2 ^ (k + 3)) s o nbytes (some o.ptr, s.heap) := by
  have hcap := capacity_eq (2 ^ (k + 3)) (hi.laid.bounds x hu.1).2.2
  have hpagesz := hi.pagesz_of_mem hu.1
  simp only [Heap.stays, hu.locate srchlen, Bool.true_and, Bool.and_eq_true, decide_eq_true_eq,
    hpagesz] at hstays
  refine ⟨?_, fun _ _ => rfl, fun hne => absurd rfl hne⟩
  exact Inv.allocated (s := ⟨s.heap, _⟩) (hi.resize ho hu (by unfold overhead; omega))

theorem InUse.freed_data (hu : InUse page h o x) (j : Nat) :
    (h.free o.ptr).mem (o.ptr + j) = h.mem (o.ptr + j) := by
  rw [hu.free_eq]
  refine setWord_of_notMem ?_
  have := hu.2.1
  unfold overhead at this
  omega

theorem Inv.keeps_moved (hi : Inv k s.heap s.live lists) (hu : InUse (2 ^ (k + 3)) s.heap o x)
    {h' : Heap} {p : Nat} (hserved : Served k (System.without s.live o.ptr) nbytes (some p, h'))
    (hx : x ∈ h'.carved) (hdata : ∀ j, j < o.size → h'.mem (o.ptr + j) = s.heap.mem (o.ptr + j)) :
    Keeps (2 ^ (k + 3)) s o nbytes (if o.ptr ≠ p then
      (some p, { h' with
        mem := Malloc.bcopy h'.mem o.ptr p (min nbytes (Heap.capacity s.heap.pagesz x.2)) })
      else (some p, h')) := by
  obtain ⟨lists', hi'⟩ := hserved
  by_cases hp : o.ptr = p
  · subst hp
    rw [if_neg (fun hne => hne rfl)]
    exact ⟨Inv.allocated (s := ⟨h', _⟩) hi', fun j hj => hdata j (by omega),
      fun hne => absurd rfl hne⟩
  · rw [if_pos hp]
    have hcopied : Inv k { h' with
        mem := Malloc.bcopy h'.mem o.ptr p (min nbytes (Heap.capacity s.heap.pagesz x.2)) }
        (⟨p, nbytes⟩ :: System.without s.live o.ptr) lists' :=
      hi'.bcopy List.mem_cons_self (Nat.min_le_left nbytes (Heap.capacity s.heap.pagesz x.2))
    refine ⟨Inv.allocated (s := ⟨_, _⟩) hcopied, fun j hj => ?_, fun _ => ?_⟩
    · have hcap := capacity_eq (2 ^ (k + 3)) (hi.laid.bounds x hu.1).2.2
      have hsize := hu.2.2.1
      have hpagesz := hi.pagesz_of_mem hu.1
      have hlt : j < min nbytes (Heap.capacity s.heap.pagesz x.2) := by
        rw [hpagesz]
        unfold overhead at hsize
        omega
      simp only [Malloc.bcopy]
      rw [if_pos ⟨Nat.le_add_right p j, Nat.add_lt_add_left hlt p⟩, Nat.add_sub_cancel_left]
      exact hdata j (by omega)
    · have hfree : o.ptr - overhead = x.1 := by rw [hu.2.1, Nat.add_sub_cancel]
      rw [hfree]
      refine hcopied.onFreeList hx fun o' ho' hptr => ?_
      rw [← hu.2.1] at hptr
      rcases List.mem_cons.1 ho' with rfl | ho'
      · exact hp hptr.symm
      · simp [System.without, hptr] at ho'

theorem Inv.not_keeps (hu : InUse (2 ^ (k + 3)) s.heap o x) {h' : Heap}
    (hserved : Served k (System.without s.live o.ptr) nbytes (none, h')) (hx : x ∈ h'.carved) :
    ¬ Keeps (2 ^ (k + 3)) s o nbytes (none, h') := by
  obtain ⟨lists', hi'⟩ := hserved
  rintro ⟨-, -, hnot⟩
  rw [hu.2.1, Nat.add_sub_cancel] at hnot
  refine hnot (hi'.onFreeList hx fun o' ho' hptr => ?_)
  rw [← hu.2.1] at hptr
  simp [System.without, hptr] at ho'

theorem carved_serve (hx : x ∈ h.carved) : x ∈ (h.serve nbytes ans).2.carved := by
  unfold Heap.serve
  cases bucketOf h.pagesz h.pagebucket nbytes with
  | none => exact hx
  | some b =>
    have hmore : x ∈ (h.morecore b ans.core).carved := by
      unfold Heap.morecore
      split
      · exact hx
      · cases ans.core with
        | none => exact hx
        | some op => exact List.mem_append_right _ hx
    dsimp only
    by_cases hnext : h.nextf b = 0
    · rw [if_pos hnext]
      split
      · exact hmore
      · exact hmore
    · rw [if_neg hnext, if_neg hnext]
      exact hx

theorem Inv.keeps_iff (hi : Inv k s.heap s.live lists) (hk : k ≤ 26) (ho : o ∈ s.live)
    (hans : Answered (2 ^ (k + 3)) nbytes ans s.heap) (h4 : ∀ a, ans.core = some a → a % 4 = 0) :
    Keeps (2 ^ (k + 3)) s o nbytes (s.heap.realloc (2 ^ (k + 3)) srchlen o.ptr nbytes ans) ↔
      s.heap.stays srchlen o.ptr nbytes = true ∨ Obtainable nbytes o.ptr ans s.heap := by
  obtain ⟨x, hu⟩ := hi.used o ho
  have hpagesz := hi.pagesz_of_mem hu.1
  have hloc := hu.locate srchlen
  by_cases hstays : s.heap.stays srchlen o.ptr nbytes = true
  · have hsame : s.heap.realloc (2 ^ (k + 3)) srchlen o.ptr nbytes ans = (some o.ptr, s.heap) := by
      simp only [Heap.realloc, hloc, hstays, if_true]
    rw [hsame]
    exact ⟨fun _ => .inl hstays, fun _ => hi.keeps_stays ho hu hstays⟩
  · have hpush := hi.push ho hu
    have hne : s.heap.pagesz ≠ 0 := by
      rw [hpagesz]
      exact Nat.pos_iff_ne_zero.1 (Nat.two_pow_pos _)
    have hne' : (s.heap.free o.ptr).pagesz ≠ 0 := by rwa [(free_pagesz o.ptr).1]
    have hset : (s.heap.free o.ptr).setup (2 ^ (k + 3)) ans = (false, s.heap.free o.ptr) := by
      rw [Heap.setup, if_pos hne']
    have hans' := hans.free o.ptr hne
    have hcore := hans'.2
    rw [hset] at hcore
    obtain ⟨hserved, hroom⟩ := hpush.malloc hk hans' ⟨fun h0 => absurd h0 hne', h4⟩
    have hx : x ∈ (s.heap.free o.ptr).carved := by
      rw [hu.free_eq]
      exact hu.1
    have hpage : (s.heap.free o.ptr).pagesz = 2 ^ (k + 3) ∧ (s.heap.free o.ptr).pagebucket = k := by
      rcases hpush.page with ⟨h0, -⟩ | hpage
      · exact absurd h0 hne'
      · exact hpage
    have hx' : x ∈ ((s.heap.free o.ptr).malloc (2 ^ (k + 3)) nbytes ans).2.carved := by
      rw [malloc_of_setup hset]
      exact carved_serve hx
    have hdata : ∀ j, j < o.size →
        ((s.heap.free o.ptr).malloc (2 ^ (k + 3)) nbytes ans).2.mem (o.ptr + j) = s.heap.mem
          (o.ptr + j) := by
      intro j hj
      have hptr := hu.2.1
      have hsize := hu.2.2.1
      rw [malloc_of_setup hset, hpush.serve_data hpage hcore h4 hx (by omega) (by omega)]
      exact hu.freed_data j
    have hmalloc : ((s.heap.free o.ptr).malloc (2 ^ (k + 3)) nbytes ans).1 ≠ none →
        Room nbytes ans (s.heap.free o.ptr) := room_of_malloc hne'
    rw [or_iff_right hstays, hi.obtainable_iff hu]
    simp only [Heap.realloc, hloc, if_neg hstays, if_true]
    cases hm : (s.heap.free o.ptr).malloc (2 ^ (k + 3)) nbytes ans with
    | mk p h' =>
      rw [hm] at hserved hroom hx' hdata hmalloc
      cases p with
      | none => exact ⟨fun hkeeps => absurd hkeeps (Inv.not_keeps hu hserved hx'),
          fun hr => absurd rfl (hroom hne' hr)⟩
      | some p => exact ⟨fun _ => hmalloc (by simp), fun _ => hi.keeps_moved hu hserved hx' hdata⟩

end

/-- In a state reached by proper calls that meet the condition, `realloc` of an object keeps what it
should if and only if the object stays in place or a block for the new size is to be had. -/
theorem realloc_keeps_iff (k srchlen : Nat) (hk : k ≤ 26) (s : System)
    (h : Reached (2 ^ (k + 3)) srchlen
      (fun s op => Proper (2 ^ (k + 3)) s op ∧ Sane (2 ^ (k + 3)) srchlen s op) s)
    (o : Obj) (ho : o ∈ s.live) (nbytes : Nat) (ans : Answers)
    (hans : Answered (2 ^ (k + 3)) nbytes ans s.heap) (h4 : ∀ a, ans.core = some a → a % 4 = 0) :
    Keeps (2 ^ (k + 3)) s o nbytes (s.heap.realloc (2 ^ (k + 3)) srchlen o.ptr nbytes ans) ↔
      s.heap.stays srchlen o.ptr nbytes = true ∨ Obtainable nbytes o.ptr ans s.heap := by
  obtain ⟨lists, hi⟩ := sound_of_reached hk h
  exact hi.keeps_iff hk ho hans h4

def oneByte : System := System.start.step 4096 4 (.malloc 1 firstAnswers)

theorem live_oneByte : ⟨8196, 1⟩ ∈ oneByte.live := by decide

theorem answered_none (nbytes : Nat) : Answered (2 ^ (9 + 3)) nbytes noAnswers oneByte.heap :=
  ⟨fun _ _ ha => (nomatch ha), fun _ _ ha => (nomatch ha)⟩

theorem realloc_keeps_iff_two :
    Keeps (2 ^ (9 + 3)) oneByte ⟨8196, 1⟩ 2
        (oneByte.heap.realloc (2 ^ (9 + 3)) 4 8196 2 noAnswers) ↔
      oneByte.heap.stays 4 8196 2 = true ∨ Obtainable 2 8196 noAnswers oneByte.heap :=
  realloc_keeps_iff 9 4 (by decide) oneByte reached_first ⟨8196, 1⟩ live_oneByte 2 noAnswers
    (answered_none 2)
    fun _ ha => (nomatch ha)

/-- The object of one byte is to get 5000, and `sbrk` gives no more. -/
theorem realloc_frees : ¬ ∀ (k srchlen : Nat) (s : System), k ≤ 26 →
    Reached (2 ^ (k + 3)) srchlen
      (fun s op => Proper (2 ^ (k + 3)) s op ∧ Sane (2 ^ (k + 3)) srchlen s op) s →
    ∀ o ∈ s.live, ∀ (nbytes : Nat) (ans : Answers), Answered (2 ^ (k + 3)) nbytes ans s.heap →
      (∀ a, ans.core = some a → a % 4 = 0) →
      Keeps (2 ^ (k + 3)) s o nbytes (s.heap.realloc (2 ^ (k + 3)) srchlen o.ptr nbytes ans) := by
  intro h
  have hkeeps := h 9 4 oneByte (by decide) reached_first ⟨8196, 1⟩ live_oneByte 5000 noAnswers
    (answered_none 5000) fun _ ha => (nomatch ha)
  obtain ⟨lists, hi⟩ := sound_of_reached (by decide) reached_first
  obtain hstays | ⟨b, hb, hroom⟩ := (Inv.keeps_iff hi (by decide) live_oneByte (answered_none 5000)
    fun _ ha => (nomatch ha)).1 hkeeps
  · exact absurd hstays (by decide)
  · have hb' : bucketOf oneByte.heap.pagesz oneByte.heap.pagebucket 5000 = some 9 := by decide
    obtain rfl : 9 = b := Option.some.inj (hb'.symm.trans hb)
    rcases hroom with hnext | hindex | ⟨-, hcore⟩
    · exact hnext (by decide)
    · exact absurd hindex (by decide)
    · exact hcore rfl

end Bsdi.Malloc
