import Bsdi.Pax.Ustar

/-!
# The old tar header

`tar_wr`, `tar_id` and `tar_rd` of `tar.c`: a member's description as a block of 512 bytes in the
format of BSD releases, and back. Nothing in the header tells a directory from a file but a slash
at the end of the name.
-/

namespace Bsdi.Pax

open Lib

structure HdTar where
  name : List Chr
  mode : List Chr
  uid : List Chr
  gid : List Chr
  size : List Chr
  mtime : List Chr
  chksum : List Chr
  linkflag : List Chr
  linkname : List Chr

def tarWidths : List Nat := [tnmsz, 8, 8, 8, 12, 12, 8, 1, tnmsz]

def HdTar.fields (hd : HdTar) : List (List Chr) :=
  [hd.name, hd.mode, hd.uid, hd.gid, hd.size, hd.mtime, hd.chksum, hd.linkflag, hd.linkname]

def HdTar.ofBlock (blk : List Chr) : Option HdTar :=
  match cut tarWidths blk with
  | [name, mode, uid, gid, size, mtime, chksum, linkflag, linkname] =>
    some ⟨name, mode, uid, gid, size, mtime, chksum, linkflag, linkname⟩
  | _ => none

/-- The fields that depend on the type of a member, and the padding after its data. -/
structure TarFields where
  name : List Chr
  size : List Chr
  linkflag : Chr
  linkname : List Chr
  pad : Nat

/-- The type-dependent part of `tar_wr`. -/
def tarFields (a : Archd) : Option TarFields := do
  let name := zfStrncpy (slice a.name 0 tnmsz) tnmsz
  let zeros := List.replicate tnmsz (0 : Chr)
  match a.type with
  | .dir =>
    let size ← ulOct 0 12 1
    some ⟨name.set a.nlen 47, size, 0, zeros, 0⟩
  | .slk =>
    let size ← ulOct 0 12 1
    some ⟨name, size, 50, zfStrncpy (slice a.lnName 0 tnmsz) tnmsz, 0⟩
  | .hlk | .hrg =>
    let size ← ulOct 0 12 1
    some ⟨name, size, 49, zfStrncpy (slice a.lnName 0 tnmsz) tnmsz, 0⟩
  | .chr | .blk | .sck | .fif | .reg | .ctg =>
    let size ← ulOct a.sb.size.toNat 12 1
    some ⟨name, size, 0, zeros, tarPad a.sb.size⟩

/-- The first switch of `tar_wr`: what cannot be stored. -/
def tarRefuses (nodir : Bool) (a : Archd) : Bool :=
  match a.type with
  | .dir => nodir
  | .chr | .blk | .sck | .fif => true
  | .slk | .hlk | .hrg => tnmsz < a.lnNlen
  | .reg | .ctg => false

/-- `tar_wr(arcn)` with `tar_nodir`: what is returned, the block, and the member with its padding
set; nothing when the member cannot be stored. -/
def tarWr (nodir : Bool) (a : Archd) : Option (Nat × List Chr × Archd) := do
  if tarRefuses nodir a then
    none
  else if tnmsz < (if a.type = .dir then a.nlen + 1 else a.nlen) then
    none
  else
    let tf ← tarFields a
    let mode ← ulOct a.sb.mode.toNat 8 0
    let uid ← ulOct a.sb.uid.toNat 8 0
    let gid ← ulOct a.sb.gid.toNat 8 0
    let mtime ← ulOct a.sb.mtime.toNat 12 1
    let hd : HdTar :=
      { name := tf.name, mode := mode, uid := uid, gid := gid, size := tf.size, mtime := mtime
        chksum := List.replicate 8 32, linkflag := [tf.linkflag], linkname := tf.linkname }
    -- the checksum field is not summed, so that it is set afterwards
    let chksum ← ulOct (tarChksm hd.fields.flatten 257) 8 2
    some (if a.type = .ctg ∨ a.type = .reg then 0 else 1,
      { hd with chksum := chksum }.fields.flatten ++ List.replicate 255 0, { a with pad := tf.pad })

/-- `tar_id(blk, size)`: the block is a header, and not one of ustar. -/
def tarId (blk : List Chr) (hd : HdTar) : Bool :=
  hd.name.head? != some 0 && (blk.drop 257).take 5 != tmagic.take 5 &&
    (ascUl octal hd.chksum).toNat == tarChksm blk 512

/-- The part of `tar_rd` that all types share, with any member read into `old` before. -/
def tarCommon (old : Archd) (hd : HdTar) : Archd :=
  let (n, name) := lStrncpy old.name 0 hd.name
  { old with
    nlen := n
    name := store name n [0]
    sb := { old.sb with
      nlink := 1
      mode := (ascUl octal hd.mode &&& 0xfff).toUInt16
      uid := ascUl octal hd.uid
      gid := ascUl octal hd.gid
      size := (ascUl octal hd.size).toUInt64
      mtime := ascUl octal hd.mtime }
    pad := 0
    skip := 0 }

def tarLink (hd : HdTar) (a : Archd) (type : PaxType) (bits nlink : UInt16) : Archd :=
  let (n, ln) := lStrncpy a.lnName 0 hd.linkname
  { a with
    type := type
    sb := { a.sb with mode := a.sb.mode ||| bits, nlink := nlink }
    lnNlen := n
    lnName := store ln n [0] }

/-- The switch on the link flag in `tar_rd`. -/
def tarType (hd : HdTar) (a : Archd) : Archd :=
  match hd.linkflag with
  | [50] => tarLink hd a .slk sIflnk a.sb.nlink
  | [49] => tarLink hd a .hlk sIfreg 2
  | _ =>
    let a : Archd := { a with lnNlen := 0, lnName := store a.lnName 0 [0] }
    if a.name (a.nlen - 1) = 47 then
      { a with type := .dir, sb := { a.sb with mode := a.sb.mode ||| sIfdir, nlink := 2 } }
    else
      { a with
        type := .reg, sb := { a.sb with mode := a.sb.mode ||| sIfreg }, pad := tarPad a.sb.size
        skip := a.sb.size }

/-- The end of `tar_rd`: a trailing slash is stripped off. -/
def tarStrip (a : Archd) : Archd :=
  if a.name (a.nlen - 1) = 47 then
    { a with nlen := a.nlen - 1, name := store a.name (a.nlen - 1) [0] }
  else
    a

def tarRd (old : Archd) (blk : List Chr) : Option Archd := do
  let hd ← HdTar.ofBlock blk
  if tarId blk hd = false then none else some (tarStrip (tarType hd (tarCommon old hd)))

def HdTar.Sized (hd : HdTar) : Prop := hd.fields.map List.length = tarWidths

variable {hd : HdTar} {a old r : Archd} {tf : TarFields} {nodir : Bool}

theorem HdTar.ofBlock_flatten (h : hd.Sized) (rest : List Chr) :
    HdTar.ofBlock (hd.fields.flatten ++ rest) = some hd := by
  rw [HdTar.ofBlock, ← h, cut_flatten]
  rfl

theorem HdTar.Sized.length (h : hd.Sized) : hd.fields.flatten.length = 257 := by
  rw [List.length_flatten, h]
  rfl

theorem HdTar.chksm_set {chksum : List Chr} (h : hd.Sized) (hchk : chksum.length = 8) :
    tarChksm ({ hd with chksum := chksum }.fields.flatten ++ List.replicate 255 0) 512 =
      tarChksm hd.fields.flatten 257 := by
  simp only [HdTar.Sized, HdTar.fields, tarWidths, List.map_cons, List.map_nil, List.cons.injEq,
    and_true, tnmsz] at h
  obtain ⟨h1, h2, h3, h4, h5, h6, h7, h8, h9⟩ := h
  let pre := hd.name ++ (hd.mode ++ (hd.uid ++ (hd.gid ++ (hd.size ++ hd.mtime))))
  let post := hd.linkflag ++ hd.linkname
  have hpre : pre.length = 148 := by simp [pre, h1, h2, h3, h4, h5, h6]
  have hpost : post.length = 101 := by simp [post, h8, h9]
  have hnew := tarChksm_parts post 255 hpre hchk
  have hold := tarChksm_parts post 0 hpre h7
  rw [hpost] at hnew hold
  rw [List.replicate_zero, List.append_nil] at hold
  have hflat : hd.fields.flatten = pre ++ (hd.chksum ++ post) := by
    simp [HdTar.fields, pre, post]
  have hflat' : { hd with chksum := chksum }.fields.flatten = pre ++ (chksum ++ post) := by
    simp [HdTar.fields, pre, post]
  rw [hflat, hflat']
  exact hnew.trans hold.symm

theorem HdTar.id_set {chksum : List Chr} (h : hd.Sized) (hname : hd.name.head? ≠ some 0)
    (hset : { hd with chksum := chksum }.Sized)
    (hchk : ulOct (tarChksm hd.fields.flatten 257) 8 2 = some chksum) :
    tarId ({ hd with chksum := chksum }.fields.flatten ++ List.replicate 255 0)
      { hd with chksum := chksum } = true := by
  have hlen : chksum.length = 8 := length_ulOct (by decide) hchk
  have hsmall : tarChksm hd.fields.flatten 257 < 2 ^ 32 := by
    obtain ⟨l, hl, -⟩ := Option.map_eq_some_iff.1 hchk
    exact Nat.lt_trans (writeNumeral_lt (by decide) hl) (by decide)
  have hread := ascUl_ulOct_toNat hsmall hchk
  have hmagic : ((({ hd with chksum := chksum }.fields.flatten ++
      List.replicate 255 0).drop 257).take 5 != tmagic.take 5) = true := by
    rw [List.drop_left' hset.length]
    decide
  rw [tarId, HdTar.chksm_set h hlen, hread, hmagic]
  simp [hname]

def tarName (a : Archd) : List Chr := if a.type = .dir then a.path ++ [47] else a.path

theorem zfStrncpy_eq (src : List Chr) (len : Nat) :
    zfStrncpy src len = fieldString (zfStrncpy src len) ++
      List.replicate (len - (fieldString (zfStrncpy src len)).length) 0 := by
  have hzero : 0 ∉ (src.take len).takeWhile (· != 0) := fun hmem => by
    simpa using List.all_eq_true.1 List.all_takeWhile 0 hmem
  have hstring : fieldString (zfStrncpy src len) = (src.take len).takeWhile (· != 0) := by
    rw [fieldString, zfStrncpy, takeWhile_nonzero _ hzero]
    cases len - ((src.take len).takeWhile (· != 0)).length <;> simp [List.replicate_succ]
  rw [hstring]
  rfl

theorem fieldString_set {field : List Chr} {s : List Chr} {k : Nat}
    (hfield : field = s ++ List.replicate (k + 1) 0) (hs : 0 ∉ s) :
    fieldString (field.set s.length 47) = s ++ [47] := by
  have hset : field.set s.length 47 = (s ++ [47]) ++ List.replicate k 0 := by
    rw [hfield, List.set_append_right _ _ (Nat.le_refl _), Nat.sub_self, List.replicate_succ,
      List.set_cons_zero, List.append_assoc, List.singleton_append]
  have hzero : 0 ∉ s ++ [47] := by simp [hs]
  rw [hset, fieldString, takeWhile_nonzero _ hzero]
  cases k <;> simp [List.replicate_succ]

theorem fieldString_tarFields (hnamed : a.Named)
    (hlen : (if a.type = .dir then a.nlen + 1 else a.nlen) ≤ tnmsz) (h : tarFields a = some tf) :
    fieldString tf.name = tarName a := by
  have hle : a.nlen ≤ tnmsz := by
    split_ifs at hlen <;> omega
  have hfield := fieldString_slice hnamed.path hnamed.ends hle
  rw [tarFields] at h
  cases htype : a.type
  case dir =>
    simp only [htype, Option.bind_eq_bind, Option.bind_eq_some_iff, Option.some.injEq] at h
    obtain ⟨size, -, rfl⟩ := h
    rw [if_pos htype] at hlen
    have heq := zfStrncpy_eq (slice a.name 0 tnmsz) tnmsz
    rw [hfield, length_slice, show tnmsz - a.nlen = tnmsz - a.nlen - 1 + 1 by omega] at heq
    have hset := fieldString_set heq hnamed.path
    rw [length_slice] at hset
    rw [tarName, if_pos htype]
    exact hset
  all_goals
    simp only [htype, Option.bind_eq_bind, Option.bind_eq_some_iff, Option.some.injEq] at h
    obtain ⟨size, -, rfl⟩ := h
    rw [tarName, if_neg (by rw [htype]; decide)]
    exact hfield

theorem length_tarFields (h : tarFields a = some tf) :
    tf.name.length = tnmsz ∧ tf.size.length = 12 ∧ tf.linkname.length = tnmsz := by
  rw [tarFields] at h
  cases htype : a.type <;>
    simp only [htype, Option.bind_eq_bind, Option.bind_eq_some_iff, Option.some.injEq] at h <;>
    obtain ⟨size, hsize, rfl⟩ := h <;>
    simp [length_zfStrncpy, length_ulOct (by decide) hsize]

/-- What is read back of the member `a`, with the padding the writer set. -/
structure TarSame (a : Archd) (pad : Nat) (r : Archd) : Prop where
  path : r.path = a.path
  nlen : r.nlen = a.nlen
  ends : r.name r.nlen = 0
  link : r.link = if a.type.isLink then a.link else []
  type : r.type = a.type.readAs
  mode : r.sb.mode &&& permBits = a.sb.mode &&& permBits
  uid : r.sb.uid = a.sb.uid
  gid : r.sb.gid = a.sb.gid
  mtime : r.sb.mtime = a.sb.mtime
  size : r.sb.size = if a.type.hasData then a.sb.size else 0
  pad : r.pad = pad

/-- What the writer put into the block. -/
structure TarWritten (a : Archd) (tf : TarFields) (hd : HdTar) : Prop where
  sized : hd.Sized
  fields : tarFields a = some tf
  name : fieldString hd.name = tarName a
  size : hd.size = tf.size
  linkflag : hd.linkflag = [tf.linkflag]
  linkname : hd.linkname = tf.linkname
  mode : ulOct a.sb.mode.toNat 8 0 = some hd.mode
  uid : ulOct a.sb.uid.toNat 8 0 = some hd.uid
  gid : ulOct a.sb.gid.toNat 8 0 = some hd.gid
  mtime : ulOct a.sb.mtime.toNat 12 1 = some hd.mtime

theorem tarWr_written {ret : Nat} {blk : List Chr} {a' : Archd} (hnamed : a.Named)
    (h : tarWr nodir a = some (ret, blk, a')) :
    ∃ tf hd chksum, TarWritten a tf hd ∧ tarRefuses nodir a = false ∧ a'.pad = tf.pad ∧
      ulOct (tarChksm hd.fields.flatten 257) 8 2 = some chksum ∧
      blk = { hd with chksum := chksum }.fields.flatten ++ List.replicate 255 0 := by
  have hrefuse : ¬ tarRefuses nodir a = true := by
    intro hrefuse
    simp [tarWr, hrefuse] at h
  have hlong : ¬ tnmsz < (if a.type = .dir then a.nlen + 1 else a.nlen) := by
    intro hlong
    simp [tarWr, hrefuse, hlong] at h
  rw [tarWr, if_neg hrefuse, if_neg hlong] at h
  simp only [Option.bind_eq_bind, Option.bind_eq_some_iff, Option.some.injEq, Prod.mk.injEq] at h
  obtain ⟨tf, htf, mode, hmode, uid, huid, gid, hgid, mtime, hmtime, chksum, hchksum, -, hblk,
    ha'⟩ := h
  obtain ⟨hname, hsize, hlinkname⟩ := length_tarFields htf
  refine ⟨tf, _, chksum, ⟨?_, htf, fieldString_tarFields hnamed (Nat.le_of_not_lt hlong) htf, rfl,
    rfl,
    rfl, hmode, huid, hgid, hmtime⟩, by simpa using hrefuse, by rw [← ha'], hchksum, hblk.symm⟩
  simp only [HdTar.Sized, HdTar.fields, List.map_cons, List.map_nil, tarWidths, hname, hsize,
    hlinkname,     length_ulOct (by decide) hmode, length_ulOct (by decide) huid, length_ulOct (by decide) hgid,
    length_ulOct (by decide) hmtime, List.length_replicate, List.length_singleton]

/-- What the part common to all types reads back. -/
structure TarCommon (a : Archd) (hd : HdTar) (r : Archd) : Prop where
  path : r.path = tarName a
  nlen : r.nlen = (tarName a).length
  ends : r.name r.nlen = 0
  mode : ∀ bits, bits &&& permBits = 0 → (r.sb.mode ||| bits) &&& permBits = a.sb.mode &&& permBits
  uid : r.sb.uid = a.sb.uid
  gid : r.sb.gid = a.sb.gid
  mtime : r.sb.mtime = a.sb.mtime
  size : r.sb.size = (ascUl octal hd.size).toUInt64
  pad : r.pad = 0

theorem tarCommon_spec (hw : TarWritten a tf hd) (old : Archd) :
    TarCommon a hd (tarCommon old hd) := by
  obtain ⟨hn, hslice, hend⟩ := lStrncpy_spec old.name hd.name
  rw [hw.name] at hn hslice
  exact
    { path := hslice
      nlen := hn
      ends := hend
      mode := perm_eq hw.mode
      uid := ascUl_ulOct hw.uid
      gid := ascUl_ulOct hw.gid
      mtime := ascUl_ulOct hw.mtime
      size := rfl
      pad := rfl }

theorem tarName_of_ne_dir (h : a.type ≠ .dir) : tarName a = a.path := if_neg h

theorem TarCommon.last (h : TarCommon a hd r) (hpos : 0 < a.nlen) :
    r.name (r.nlen - 1) = if a.type = .dir then 47 else a.name (a.nlen - 1) := by
  have hcell : ∀ (mem : Nat → Chr) (n : Nat), 0 < n →
      (slice mem 0 n).getLast? = some (mem (n - 1)) := by
    intro mem n hn
    obtain ⟨k, rfl⟩ : ∃ k, n = k + 1 := ⟨n - 1, by omega⟩
    rw [slice_succ, Nat.zero_add, List.getLast?_concat, Nat.add_sub_cancel]
  have hlen : 0 < r.nlen := by
    rw [h.nlen, tarName]
    split_ifs <;> simp [Archd.path, hpos]
  have hlast := hcell r.name r.nlen hlen
  have hpath : slice r.name 0 r.nlen = tarName a := h.path
  rw [hpath, tarName] at hlast
  split_ifs at hlast ⊢ with hdir
  · simpa using hlast.symm
  · rw [Archd.path, hcell _ _ hpos] at hlast
    simpa using hlast.symm

theorem TarCommon.directory (h : TarCommon a hd r) (hdir : a.type = .dir)
    (hsize : ulOct 0 12 1 = some hd.size)
    (lnName : Nat → Chr) (bits nlink : UInt16) (hbits : bits &&& permBits = 0) (hpos : 0 < a.nlen) :
    TarSame a 0 (tarStrip { r with
      lnNlen := 0, lnName := lnName, type := .dir
      sb := { r.sb with mode := r.sb.mode ||| bits, nlink := nlink } }) := by
  have hname : tarName a = a.path ++ [47] := if_pos hdir
  have hlast : r.name (r.nlen - 1) = 47 := (h.last hpos).trans (if_pos hdir)
  have hlen : r.nlen = a.nlen + 1 := by rw [h.nlen, hname]; simp [Archd.path]
  have hslice : slice r.name 0 a.nlen ++ [r.name a.nlen] = a.path ++ [47] := by
    have hpath := h.path
    rwa [hname, Archd.path, hlen, slice_succ, Nat.zero_add] at hpath
  have hkinds : a.type.isLink = false ∧ a.type.hasData = false ∧ a.type.readAs = .dir := by
    rw [hdir]
    decide
  rw [tarStrip, if_pos hlast]
  simp only [hlen, Nat.add_sub_cancel]
  exact
    { path := (slice_store_before (by simp)).trans (List.append_inj_left' hslice rfl)
      nlen := rfl
      ends := by simp [store]
      link := by rw [hkinds.1]; rfl
      type := hkinds.2.2.symm
      mode := h.mode bits hbits
      uid := h.uid
      gid := h.gid
      mtime := h.mtime
      size := by rw [hkinds.2.1]; exact h.size.trans (ascUl_zero hsize)
      pad := h.pad }

theorem TarCommon.linked (h : TarCommon a hd r) (hnamed : a.Named) (hlen : a.lnNlen ≤ tnmsz)
    (hsize : ulOct 0 12 1 = some hd.size)
    (hlinkname : hd.linkname = zfStrncpy (slice a.lnName 0 tnmsz) tnmsz)
    (type : PaxType) (bits nlink : UInt16) (hbits : bits &&& permBits = 0)
      (htype : type = a.type.readAs)
    (hlink : a.type.isLink = true) (hpos : 0 < a.nlen) (hslash : a.name (a.nlen - 1) ≠ 47) :
    TarSame a 0 (tarStrip (tarLink hd r type bits nlink)) := by
  have hkinds : a.type.hasData = false ∧ a.type ≠ .dir := by
    revert hlink
    cases a.type <;> decide
  have hlast : r.name (r.nlen - 1) ≠ 47 := by rwa [h.last hpos, if_neg hkinds.2]
  have hname := tarName_of_ne_dir hkinds.2
  have hstay : tarStrip (tarLink hd r type bits nlink) = tarLink hd r type bits nlink :=
    if_neg hlast
  rw [hstay]
  exact
    { path := h.path.trans hname
      nlen := by simp only [tarLink, h.nlen, hname, Archd.path, length_slice]
      ends := h.ends
      link := by
        rw [hlink]
        refine (lStrncpy_spec r.lnName hd.linkname).2.1.trans ?_
        rw [hlinkname]
        exact fieldString_slice hnamed.link hnamed.lnEnds hlen
      type := htype
      mode := h.mode bits hbits
      uid := h.uid
      gid := h.gid
      mtime := h.mtime
      size := by rw [hkinds.1]; exact h.size.trans (ascUl_zero hsize)
      pad := h.pad }

theorem TarCommon.regular (h : TarCommon a hd r) (hsize : ulOct a.sb.size.toNat 12 1 = some hd.size)
    (lnName : Nat → Chr) (hdata : a.type.hasData = true) (hlt : a.sb.size.toNat < 2 ^ 32)
    (hpos : 0 < a.nlen) (hslash : a.name (a.nlen - 1) ≠ 47) :
    TarSame a (tarPad a.sb.size) (tarStrip { r with
      lnNlen := 0, lnName := lnName, type := .reg
      sb := { r.sb with mode := r.sb.mode ||| sIfreg }, pad := tarPad r.sb.size
      skip := r.sb.size }) := by
  have hkinds : a.type.readAs = .reg ∧ a.type.isLink = false ∧ a.type ≠ .dir := by
    revert hdata
    cases a.type <;> decide
  have hlast : r.name (r.nlen - 1) ≠ 47 := by rwa [h.last hpos, if_neg hkinds.2.2]
  have hname := tarName_of_ne_dir hkinds.2.2
  have hsame := h.size.trans (ascUl_size hlt hsize)
  rw [tarStrip, if_neg hlast]
  exact
    { path := h.path.trans hname
      nlen := by simp only [h.nlen, hname, Archd.path, length_slice]
      ends := h.ends
      link := by rw [hkinds.2.1]; rfl
      type := hkinds.1.symm
      mode := h.mode sIfreg (by decide)
      uid := h.uid
      gid := h.gid
      mtime := h.mtime
      size := by rw [hdata]; exact hsame
      pad := congrArg tarPad hsame }

theorem tarType_spec (hw : TarWritten a tf hd) (h : TarCommon a hd r) (hnamed : a.Named)
    (hrefuse : tarRefuses nodir a = false) (hpos : 0 < a.nlen)
    (hslash : a.type ≠ .dir → a.name (a.nlen - 1) ≠ 47)
    (hsize : a.type.hasData = true → a.sb.size.toNat < 2 ^ 32) :
    TarSame a tf.pad (tarStrip (tarType hd r)) := by
  have hlast := h.last hpos
  have hsz := hw.size
  have hln := hw.linkname
  have htf := hw.fields
  rw [tarFields] at htf
  rw [tarRefuses] at hrefuse
  rw [tarType, hw.linkflag]
  cases htype : a.type <;> rw [htype] at htf hrefuse hslash
  case chr | blk | sck | fif => cases hrefuse
  case dir =>
    simp only [Option.bind_eq_bind, Option.bind_eq_some_iff, Option.some.injEq] at htf
    obtain ⟨size, hs, rfl⟩ := htf
    dsimp only
    rw [if_pos (hlast.trans (if_pos htype))]
    exact h.directory htype (hsz ▸ hs) _ _ _ (by decide) hpos
  case slk =>
    simp only [Option.bind_eq_bind, Option.bind_eq_some_iff, Option.some.injEq] at htf
    obtain ⟨size, hs, rfl⟩ := htf
    exact h.linked hnamed (by simpa using hrefuse) (hsz ▸ hs) hln .slk _ _ (by decide)
      (by rw [htype]; rfl)
      (by rw [htype]; rfl) hpos (hslash (by decide))
  case hlk | hrg =>
    simp only [Option.bind_eq_bind, Option.bind_eq_some_iff, Option.some.injEq] at htf
    obtain ⟨size, hs, rfl⟩ := htf
    exact h.linked hnamed (by simpa using hrefuse) (hsz ▸ hs) hln .hlk _ _ (by decide)
      (by rw [htype]; rfl)
      (by rw [htype]; rfl) hpos (hslash (by decide))
  case reg | ctg =>
    have hdata : a.type.hasData = true := by rw [htype]; rfl
    simp only [Option.bind_eq_bind, Option.bind_eq_some_iff, Option.some.injEq] at htf
    obtain ⟨size, hs, rfl⟩ := htf
    dsimp only
    rw [if_neg (by rw [hlast, if_neg (by rw [htype]; decide)]; exact hslash (by decide))]
    exact h.regular (hsz ▸ hs) _ hdata (hsize hdata) hpos (hslash (by decide))

/-- A member is read back from the block it was written to, whatever was read before. -/
theorem tar_roundtrip (nodir : Bool) (a old : Archd) (ret : Nat) (blk : List Chr) (a' : Archd)
    (hnamed : a.Named) (hpos : 0 < a.nlen) (hslash : a.type ≠ .dir → a.name (a.nlen - 1) ≠ 47)
    (hsize : a.type.hasData = true → a.sb.size.toNat < 2 ^ 32)
    (hwr : tarWr nodir a = some (ret, blk, a')) :
    ∃ r, tarRd old blk = some r ∧ TarSame a a'.pad r := by
  obtain ⟨tf, hd, chksum, hw, hrefuse, hpad, hchksum, rfl⟩ := tarWr_written hnamed hwr
  have hhead : hd.name.head? ≠ some 0 := by
    intro hzero
    have hlength : (fieldString hd.name).length = 0 := by
      cases hn : hd.name with
      | nil => rfl
      | cons ch rest =>
        obtain rfl : ch = 0 := by simpa [hn] using hzero
        simp [fieldString]
    rw [hw.name, tarName] at hlength
    split_ifs at hlength <;> simp [Archd.path] at hlength
    omega
  have hw' : TarWritten a tf { hd with chksum := chksum } :=
    { hw with
      sized := by
        have := hw.sized
        simp only [HdTar.Sized, HdTar.fields, tarWidths, List.map_cons, List.map_nil,
          List.cons.injEq,
          and_true] at this ⊢
        simp only [this, length_ulOct (by decide) hchksum, and_self] }
  refine ⟨tarStrip (tarType _ (tarCommon old _)), ?_, hpad ▸ tarType_spec hw'
    (tarCommon_spec hw' old)
    hnamed hrefuse hpos hslash hsize⟩
  rw [tarRd, HdTar.ofBlock_flatten hw'.sized]
  simp only [Option.bind_eq_bind, Option.bind_some, HdTar.id_set hw.sized hhead hw'.sized hchksum,
    Bool.true_eq_false, if_false]

theorem tar_roundtrip_link :
    ∃ w r, tarWr false linkA = some w ∧ tarRd dirD w.2.1 = some r ∧ TarSame linkA w.2.2.pad r := by
  have hsome : (tarWr false linkA).isSome = true := by decide +kernel
  obtain ⟨w, hw⟩ := Option.isSome_iff_exists.1 hsome
  obtain ⟨r, hr, hsame⟩ := tar_roundtrip false linkA dirD w.1 w.2.1 w.2.2 named_linkA (by decide)
    (by decide) (by decide) hw
  exact ⟨w, r, hw, hr, hsame⟩

/-- The size of a directory is not stored. -/
theorem tar_size_lost :
    ¬ ∀ (nodir : Bool) (a old : Archd) (ret : Nat) (blk : List Chr) (a' : Archd), a.Named →
      0 < a.nlen → tarWr nodir a = some (ret, blk, a') →
      ∃ r, tarRd old blk = some r ∧ r.path = a.path ∧ r.nlen = a.nlen ∧ r.link = a.link ∧
        r.type = a.type.readAs ∧ r.sb.mode &&& permBits = a.sb.mode &&& permBits ∧
        r.sb.uid = a.sb.uid ∧ r.sb.gid = a.sb.gid ∧ r.sb.mtime = a.sb.mtime ∧
        r.sb.size = a.sb.size ∧ r.pad = a'.pad := by
  intro h
  have hsome : (tarWr false dirD).isSome = true := by decide +kernel
  have hread : ((tarWr false dirD).bind fun w => tarRd linkA w.2.1).map (fun r => r.sb.size) =
      some 0 := by
    decide +kernel
  obtain ⟨w, hw⟩ := Option.isSome_iff_exists.1 hsome
  obtain ⟨r, hr, -, -, -, -, -, -, -, -, hsize, -⟩ := h false dirD linkA w.1 w.2.1 w.2.2 named_dirD
    (by decide) hw
  rw [hw, Option.bind_some, hr, Option.map_some, hsize] at hread
  exact absurd hread (by decide)

end Bsdi.Pax
