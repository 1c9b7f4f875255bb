import Bsdi.Pax.Archd

/-!
# The ustar header

`ustar_wr`, `name_split`, `ustar_id` and `ustar_rd` of `tar.c`: a member's description as a block
of 512 bytes, and back.
-/

namespace Bsdi.Pax

open Lib

/-- `TNMSZ` and `TPFSZ`: the sizes of the name and of the prefix field. -/
def tnmsz : Nat := 100

def tpfsz : Nat := 155

structure HdUstar where
  name : List Chr
  mode : List Chr
  uid : List Chr
  gid : List Chr
  size : List Chr
  mtime : List Chr
  chksum : List Chr
  typeflag : List Chr
  linkname : List Chr
  magic : List Chr
  version : List Chr
  uname : List Chr
  gname : List Chr
  devmajor : List Chr
  devminor : List Chr
  pfix : List Chr

def ustarWidths : List Nat := [tnmsz, 8, 8, 8, 12, 12, 8, 1, 100, 6, 2, 32, 32, 8, 8, tpfsz]

def HdUstar.fields (hd : HdUstar) : List (List Chr) :=
  [hd.name, hd.mode, hd.uid, hd.gid, hd.size, hd.mtime, hd.chksum, hd.typeflag, hd.linkname, hd.magic,
    hd.version, hd.uname, hd.gname, hd.devmajor, hd.devminor, hd.pfix]

def HdUstar.ofBlock (blk : List Chr) : Option HdUstar :=
  match cut ustarWidths blk with
  | [name, mode, uid, gid, size, mtime, chksum, typeflag, linkname, magic, version, uname, gname,
      devmajor, devminor, pfix] =>
    some ⟨name, mode, uid, gid, size, mtime, chksum, typeflag, linkname, magic, version, uname, gname,
      devmajor, devminor, pfix⟩
  | _ => none

/-- The local tables of user and group names: `name_uid(uid, 0)`, `name_gid(gid, 0)`, `uid_name`
and `gid_name`. -/
structure Tables where
  nameUid : UInt32 → List Chr
  nameGid : UInt32 → List Chr
  uidName : List Chr → Option UInt32
  gidName : List Chr → Option UInt32

def tarPad (size : UInt64) : Nat := (512 - size.toNat % 512) % 512

/-- `tar_chksm(blk, len)`: the checksum field counts as eight blanks. -/
def tarChksm (blk : List Chr) (len : Nat) : Nat :=
  256 + ((blk.take 148).map UInt8.toNat).sum + (((blk.take len).drop 156).map UInt8.toNat).sum

/-- The first slash or zero from `start` on. -/
def slashFrom (name : Nat → Chr) : Nat → Nat → Nat
  | 0, start => start
  | fuel + 1, start =>
    if name start ≠ 0 ∧ name start ≠ 47 then slashFrom name fuel (start + 1) else start

/-- `name_split(name, len)`: where the name is split, 0 when it need not be. -/
def nameSplit (name : Nat → Chr) (len : Nat) : Option Nat :=
  if len ≤ tnmsz then
    some 0
  else if tpfsz + tnmsz + 1 < len then
    none
  else
    let start := slashFrom name (paxpathlen + 1) (len - tnmsz - 1)
    if name start = 0 then none
    else if tpfsz < start ∨ start = 0 then none
    else some start

/-- The fields that depend on the type of a member: `typeflag`, `linkname`, `devmajor`, `devminor`,
`size`, and the padding after its data. -/
structure TypeFields where
  typeflag : Chr
  linkname : List Chr
  devmajor : List Chr
  devminor : List Chr
  size : List Chr
  pad : Nat

/-- The type-dependent part of `ustar_wr`. -/
def typeFields (a : Archd) : Option TypeFields := do
  let zeros := List.replicate 8 (0 : Chr)
  match a.type with
  | .dir =>
    let size ← ulOct 0 12 3
    some ⟨53, List.replicate 100 0, zeros, zeros, size, 0⟩
  | .chr | .blk =>
    let devmajor ← ulOct (major a.sb.rdev) 8 3
    let devminor ← ulOct (minor a.sb.rdev) 8 3
    let size ← ulOct 0 12 3
    some ⟨if a.type = .chr then 51 else 52, List.replicate 100 0, devmajor, devminor, size, 0⟩
  | .fif =>
    let size ← ulOct 0 12 3
    some ⟨54, List.replicate 100 0, zeros, zeros, size, 0⟩
  | .slk | .hlk | .hrg =>
    let size ← ulOct 0 12 3
    some ⟨if a.type = .slk then 50 else 49, zfStrncpy (slice a.lnName 0 100) 100, zeros, zeros, size, 0⟩
  | .reg | .ctg | .sck =>
    let size ← ulOct a.sb.size.toNat 12 3
    some ⟨if a.type = .ctg then 55 else 48, List.replicate 100 0, zeros, zeros, size,
      tarPad a.sb.size⟩

def tmagic : List Chr := [117, 115, 116, 97, 114, 0]

def tversion : List Chr := [48, 48]

/-- `ustar_wr(arcn)`: what is returned, the block, and the member with its padding set; nothing
when the member cannot be stored. -/
def ustarWr (t : Tables) (a : Archd) : Option (Nat × List Chr × Archd) := do
  if a.type = .sck then
    none
  else if (a.type = .slk ∨ a.type = .hlk ∨ a.type = .hrg) ∧ 100 < a.lnNlen then
    none
  else
    let pt ← nameSplit a.name a.nlen
    let pfix := if pt = 0 then List.replicate tpfsz 0 else zfStrncpy (slice (store a.name pt [0]) 0 tpfsz) tpfsz
    let name := zfStrncpy (slice a.name (if pt = 0 then 0 else pt + 1) tnmsz) tnmsz
    let tf ← typeFields a
    let mode ← ulOct a.sb.mode.toNat 8 3
    let uid ← ulOct a.sb.uid.toNat 8 3
    let gid ← ulOct a.sb.gid.toNat 8 3
    let mtime ← ulOct a.sb.mtime.toNat 12 3
    let hd : HdUstar :=
      { name := name, mode := mode, uid := uid, gid := gid, size := tf.size, mtime := mtime
        chksum := List.replicate 8 32, typeflag := [tf.typeflag], linkname := tf.linkname
        magic := tmagic, version := tversion
        uname := zfStrncpy (t.nameUid a.sb.uid) 32, gname := zfStrncpy (t.nameGid a.sb.gid) 32
        devmajor := tf.devmajor, devminor := tf.devminor, pfix := pfix }
    -- the checksum field is not summed, so that it is set afterwards
    let chksum ← ulOct (tarChksm hd.fields.flatten 500) 8 3
    some (if a.type = .ctg ∨ a.type = .reg then 0 else 1,
      { hd with chksum := chksum }.fields.flatten ++ List.replicate 12 0, { a with pad := tf.pad })

/-- `ustar_id(blk, size)`: the block is a header. -/
def ustarId (blk : List Chr) (hd : HdUstar) : Bool :=
  hd.name.head? != some 0 && hd.magic.take 5 == tmagic.take 5 &&
    (ascUl octal hd.chksum).toNat == tarChksm blk 512

/-- The type bits of `st_mode`. -/
def sIfifo : UInt16 := 0o010000
def sIfchr : UInt16 := 0o020000
def sIfdir : UInt16 := 0o040000
def sIfblk : UInt16 := 0o060000
def sIfreg : UInt16 := 0o100000
def sIflnk : UInt16 := 0o120000

/-- The name `ustar_rd` looks up: the last character of the field is cleared. -/
def ownerName (field : List Chr) : List Chr := fieldString (field.set 31 0)

/-- The part of `ustar_rd` that all types share, with any member read into `old` before. -/
def ustarCommon (t : Tables) (old : Archd) (hd : HdUstar) : Archd :=
  -- a prefix is copied first; the place of the slash is taken from the old length
  let (cnt, name, dest) :=
    if hd.pfix.head? != some 0 then
      let (cnt, name) := lStrncpy old.name 0 hd.pfix
      (cnt, store name old.nlen [47], old.nlen + 1)
    else
      (0, old.name, 0)
  let (n, name) := lStrncpy name dest hd.name
  { old with
    nlen := n + cnt
    name := store name (n + cnt) [0]
    lnNlen := 0
    lnName := store old.lnName 0 [0]
    sb := { old.sb with
      nlink := 1
      mode := (ascUl octal hd.mode &&& 0xfff).toUInt16
      size := (ascUl octal hd.size).toUInt64
      mtime := ascUl octal hd.mtime
      gid := (t.gidName (ownerName hd.gname)).getD (ascUl octal hd.gid)
      uid := (t.uidName (ownerName hd.uname)).getD (ascUl octal hd.uid)
      rdev := 0 }
    pad := 0
    skip := 0 }

def ustarDevice (hd : HdUstar) (a : Archd) (type : PaxType) (bits : UInt16) : Archd :=
  { a with
    type := type
    sb := { a.sb with
      mode := a.sb.mode ||| bits
      rdev := todev (ascUl octal hd.devmajor).toNat (ascUl octal hd.devminor).toNat } }

def ustarLink (hd : HdUstar) (a : Archd) (type : PaxType) (bits nlink : UInt16) : Archd :=
  let (n, ln) := lStrncpy a.lnName 0 hd.linkname
  { a with
    type := type
    sb := { a.sb with mode := a.sb.mode ||| bits, nlink := nlink }
    lnNlen := n
    lnName := store ln n [0] }

/-- The switch on the type in `ustar_rd`. -/
def ustarType (hd : HdUstar) (a : Archd) : Archd :=
  match hd.typeflag with
  | [54] => { a with type := .fif, sb := { a.sb with mode := a.sb.mode ||| sIfifo } }
  | [53] =>
    let a := { a with type := .dir, sb := { a.sb with mode := a.sb.mode ||| sIfdir, nlink := 2 } }
    if 0 < a.nlen ∧ a.name (a.nlen - 1) = 47 then
      { a with nlen := a.nlen - 1, name := store a.name (a.nlen - 1) [0] }
    else
      a
  | [52] => ustarDevice hd a .blk sIfblk
  | [51] => ustarDevice hd a .chr sIfchr
  | [50] => ustarLink hd a .slk sIflnk a.sb.nlink
  | [49] => ustarLink hd a .hlk sIfreg 2
  | _ =>
    { a with
      type := .reg, sb := { a.sb with mode := a.sb.mode ||| sIfreg }, pad := tarPad a.sb.size
      skip := a.sb.size }

def ustarRd (t : Tables) (old : Archd) (blk : List Chr) : Option Archd := do
  let hd ← HdUstar.ofBlock blk
  if ustarId blk hd = false then none else some (ustarType hd (ustarCommon t old hd))

/-! ## The block -/

def HdUstar.Sized (hd : HdUstar) : Prop := hd.fields.map List.length = ustarWidths

variable {hd : HdUstar} {t : Tables} {a old : Archd}

theorem ofBlock_flatten (h : hd.Sized) (rest : List Chr) :
    HdUstar.ofBlock (hd.fields.flatten ++ rest) = some hd := by
  rw [HdUstar.ofBlock, ← h, cut_flatten]
  rfl

theorem tarChksm_parts {pre chk : List Chr} (post : List Chr) (k : Nat) (hpre : pre.length = 148)
    (hchk : chk.length = 8) :
    tarChksm (pre ++ (chk ++ post) ++ List.replicate k 0) (156 + post.length + k) =
      256 + (pre.map UInt8.toNat).sum + (post.map UInt8.toNat).sum := by
  have htake : (pre ++ (chk ++ post) ++ List.replicate k 0).take 148 = pre := by
    rw [List.append_assoc, List.take_left' hpre]
  have hlen : (pre ++ (chk ++ post) ++ List.replicate k (0 : Chr)).length = 156 + post.length + k := by
    simp only [List.length_append, List.length_replicate, hpre, hchk]
    omega
  have hdrop : (pre ++ (chk ++ post) ++ List.replicate k 0).drop 156 = post ++ List.replicate k 0 := by
    rw [List.append_assoc, List.append_assoc, ← List.append_assoc pre,
      List.drop_left' (by simp [hpre, hchk])]
  rw [tarChksm, htake, List.take_of_length_le (Nat.le_of_eq hlen), hdrop]
  simp

theorem tarChksm_set {chksum : List Chr} (h : hd.Sized) (hchk : chksum.length = 8) :
    tarChksm ({ hd with chksum := chksum }.fields.flatten ++ List.replicate 12 0) 512 =
      tarChksm hd.fields.flatten 500 := by
  simp only [HdUstar.Sized, HdUstar.fields, ustarWidths, List.map_cons, List.map_nil,
    List.cons.injEq, and_true, tnmsz, tpfsz] at h
  obtain ⟨h1, h2, h3, h4, h5, h6, h7, h8, h9, h10, h11, h12, h13, h14, h15, h16⟩ := h
  let pre := hd.name ++ (hd.mode ++ (hd.uid ++ (hd.gid ++ (hd.size ++ hd.mtime))))
  let post := hd.typeflag ++ (hd.linkname ++ (hd.magic ++ (hd.version ++ (hd.uname ++ (hd.gname ++
    (hd.devmajor ++ (hd.devminor ++ hd.pfix)))))))
  have hpre : pre.length = 148 := by simp [pre, h1, h2, h3, h4, h5, h6]
  have hpost : post.length = 344 := by simp [post, h8, h9, h10, h11, h12, h13, h14, h15, h16]
  have hnew := tarChksm_parts post 12 hpre hchk
  have hold := tarChksm_parts post 0 hpre h7
  rw [hpost] at hnew hold
  rw [List.replicate_zero, List.append_nil] at hold
  have hflat : hd.fields.flatten = pre ++ (hd.chksum ++ post) := by
    simp [HdUstar.fields, pre, post]
  have hflat' : { hd with chksum := chksum }.fields.flatten = pre ++ (chksum ++ post) := by
    simp [HdUstar.fields, pre, post]
  rw [hflat, hflat']
  exact hnew.trans hold.symm

theorem ustarId_set {chksum : List Chr} (h : hd.Sized) (hname : hd.name.head? ≠ some 0)
    (hmagic : hd.magic = tmagic) (hchk : ulOct (tarChksm hd.fields.flatten 500) 8 3 = some chksum) :
    ustarId ({ hd with chksum := chksum }.fields.flatten ++ List.replicate 12 0)
      { hd with chksum := chksum } = true := by
  have hlen : chksum.length = 8 := length_ulOct (by decide) hchk
  have hsmall : tarChksm hd.fields.flatten 500 < 2 ^ 32 := by
    obtain ⟨l, hl, -⟩ := Option.map_eq_some_iff.1 hchk
    exact Nat.lt_trans (writeNumeral_lt (by decide) hl) (by decide)
  have hread : (ascUl octal chksum).toNat = tarChksm hd.fields.flatten 500 := by
    rw [ascUl, read_ulOct hchk, Nat.mod_eq_of_lt hsmall, UInt32.toNat_ofNat_of_lt' hsmall]
  rw [ustarId, tarChksm_set h hlen, hread, hmagic]
  simp [hname]

/-! ## Reading back -/

def PaxType.readAs : PaxType → PaxType
  | .ctg => .reg
  | .hrg => .hlk
  | type => type

def PaxType.isLink (type : PaxType) : Bool := type = .slk ∨ type = .hlk ∨ type = .hrg

def PaxType.isDevice (type : PaxType) : Bool := type = .chr ∨ type = .blk

def PaxType.hasData (type : PaxType) : Bool := type = .reg ∨ type = .ctg

def Tables.Foreign (t : Tables) (a : Archd) : Prop :=
  t.uidName (ownerName (zfStrncpy (t.nameUid a.sb.uid) 32)) = none ∧
    t.gidName (ownerName (zfStrncpy (t.nameGid a.sb.gid) 32)) = none

def permBits : UInt16 := 0xfff

/-- What is read back of the member `a`, with the padding the writer set. -/
structure UstarSame (a : Archd) (pad : Nat) (r : Archd) : Prop where
  path : r.path = a.path
  nlen : r.nlen = a.nlen
  ends : r.name r.nlen = 0
  link : r.link = if a.type.isLink then a.link else []
  type : r.type = a.type.readAs
  mode : r.sb.mode &&& permBits = a.sb.mode &&& permBits
  uid : r.sb.uid = a.sb.uid
  gid : r.sb.gid = a.sb.gid
  mtime : r.sb.mtime = a.sb.mtime
  size : r.sb.size = if a.type.hasData then a.sb.size else 0
  rdev : r.sb.rdev = if a.type.isDevice then a.sb.rdev else 0
  pad : r.pad = pad

theorem perm_eq {mode : UInt16} {term : Nat} {f : List Chr} (h : ulOct mode.toNat 8 term = some f) (bits : UInt16)
    (hbits : bits &&& permBits = 0) :
    ((ascUl octal f &&& 0xfff).toUInt16 ||| bits) &&& permBits = mode &&& permBits := by
  have hread : ascUl octal f = mode.toUInt32 := by
    refine ascUl_of_read (x := mode.toUInt32) ?_
    rw [read_ulOct h, UInt16.toNat_toUInt32]
  have hlow : (mode.toUInt32 &&& 0xfff).toUInt16 = mode &&& permBits := by
    rw [UInt32.toUInt16_and, UInt16.toUInt16_toUInt32]
    rfl
  have hdistrib : (mode &&& permBits ||| bits) &&& permBits =
      (mode &&& permBits &&& permBits) ||| (bits &&& permBits) := by
    apply UInt16.toNat_inj.1
    simp only [UInt16.toNat_and, UInt16.toNat_or, Nat.and_or_distrib_right]
  rw [hread, hlow, hdistrib, hbits, UInt16.or_zero, UInt16.and_assoc, UInt16.and_self]

theorem ascUl_ulOct {x : UInt32} {len term : Nat} {f : List Chr} (h : ulOct x.toNat len term = some f) :
    ascUl octal f = x := ascUl_of_read (read_ulOct h)

theorem ascUl_ulOct_toNat {n len term : Nat} {f : List Chr} (hn : n < 2 ^ 32)
    (h : ulOct n len term = some f) : (ascUl octal f).toNat = n := by
  rw [ascUl, read_ulOct h, Nat.mod_eq_of_lt hn, UInt32.toNat_ofNat_of_lt' hn]

theorem ascUl_size {n : UInt64} {len term : Nat} {f : List Chr} (hn : n.toNat < 2 ^ 32)
    (h : ulOct n.toNat len term = some f) : (ascUl octal f).toUInt64 = n := by
  apply UInt64.toNat_inj.1
  rw [UInt32.toNat_toUInt64, ascUl_ulOct_toNat hn h]

theorem ascUl_zero {term : Nat} {f : List Chr} (h : ulOct 0 12 term = some f) : (ascUl octal f).toUInt64 = 0 :=
  ascUl_size (n := 0) (by decide) h

/-- What the writer put into the block of a member whose name is not split. -/
structure Written (t : Tables) (a : Archd) (tf : TypeFields) (hd : HdUstar) : Prop where
  sized : hd.Sized
  name : hd.name = zfStrncpy (slice a.name 0 tnmsz) tnmsz
  pfix : hd.pfix = List.replicate tpfsz 0
  fields : typeFields a = some tf
  typeflag : hd.typeflag = [tf.typeflag]
  linkname : hd.linkname = tf.linkname
  size : hd.size = tf.size
  devmajor : hd.devmajor = tf.devmajor
  devminor : hd.devminor = tf.devminor
  magic : hd.magic = tmagic
  mode : ulOct a.sb.mode.toNat 8 3 = some hd.mode
  uid : ulOct a.sb.uid.toNat 8 3 = some hd.uid
  gid : ulOct a.sb.gid.toNat 8 3 = some hd.gid
  mtime : ulOct a.sb.mtime.toNat 12 3 = some hd.mtime
  uname : hd.uname = zfStrncpy (t.nameUid a.sb.uid) 32
  gname : hd.gname = zfStrncpy (t.nameGid a.sb.gid) 32

theorem typeFields_sized {tf : TypeFields} (h : typeFields a = some tf) :
    tf.linkname.length = 100 ∧ tf.devmajor.length = 8 ∧ tf.devminor.length = 8 ∧
      tf.size.length = 12 := by
  rw [typeFields] at h
  split at h <;>
    simp only [Option.bind_eq_bind, Option.bind_eq_some_iff, Option.some.injEq] at h
  · obtain ⟨size, hsize, rfl⟩ := h
    simp [length_ulOct (by decide) hsize]
  · obtain ⟨maj, hmaj, min, hmin, size, hsize, rfl⟩ := h
    simp [length_ulOct (by decide) hsize, length_ulOct (by decide) hmaj,
      length_ulOct (by decide) hmin]
  · obtain ⟨maj, hmaj, min, hmin, size, hsize, rfl⟩ := h
    simp [length_ulOct (by decide) hsize, length_ulOct (by decide) hmaj,
      length_ulOct (by decide) hmin]
  · obtain ⟨size, hsize, rfl⟩ := h
    simp [length_ulOct (by decide) hsize]
  all_goals
    obtain ⟨size, hsize, rfl⟩ := h
    simp [length_ulOct (by decide) hsize, length_zfStrncpy]

theorem ustarWr_written {ret : Nat} {blk : List Chr} {a' : Archd} (hname : a.nlen ≤ tnmsz)
    (h : ustarWr t a = some (ret, blk, a')) :
    ∃ tf hd chksum, Written t a tf hd ∧ a.type ≠ .sck ∧
      (a.type.isLink = true → a.lnNlen ≤ 100) ∧ a'.pad = tf.pad ∧
      ulOct (tarChksm hd.fields.flatten 500) 8 3 = some chksum ∧
      blk = { hd with chksum := chksum }.fields.flatten ++ List.replicate 12 0 := by
  have hsck : a.type ≠ .sck := by
    intro hsck
    simp [ustarWr, hsck] at h
  have hlink : ¬ ((a.type = .slk ∨ a.type = .hlk ∨ a.type = .hrg) ∧ 100 < a.lnNlen) := by
    intro hlink
    simp [ustarWr, hlink] at h
  rw [ustarWr, if_neg hsck, if_neg hlink] at h
  simp only [nameSplit, hname, if_true, Option.bind_eq_bind, Option.bind_some,
    Option.bind_eq_some_iff, Option.some.injEq, Prod.mk.injEq] at h
  obtain ⟨tf, htf, mode, hmode, uid, huid, gid, hgid, mtime, hmtime, chksum, hchksum, -, hblk, ha'⟩ := h
  obtain ⟨hl, hmaj, hmin, hsize⟩ := typeFields_sized htf
  refine ⟨tf, _, chksum, ?_, hsck, fun hl => ?_, by rw [← ha'], hchksum, hblk.symm⟩
  · refine ⟨?_, rfl, rfl, htf, rfl, rfl, rfl, rfl, rfl, rfl, hmode, huid, hgid, hmtime, rfl, rfl⟩
    simp only [HdUstar.Sized, HdUstar.fields, List.map_cons, List.map_nil, ustarWidths,
      length_zfStrncpy, length_ulOct (by decide) hmode, length_ulOct (by decide) huid,
      length_ulOct (by decide) hgid, length_ulOct (by decide) hmtime, hl, hmaj, hmin, hsize,
      List.length_replicate, List.length_singleton]
    rfl
  · by_contra hlt
    exact hlink ⟨by simpa [PaxType.isLink] using hl, by omega⟩

/-- What the part common to all types reads back. -/
structure Common (a : Archd) (hd : HdUstar) (old r : Archd) : Prop where
  path : r.path = a.path
  nlen : r.nlen = a.nlen
  ends : r.name r.nlen = 0
  mode : ∀ bits, bits &&& permBits = 0 → (r.sb.mode ||| bits) &&& permBits = a.sb.mode &&& permBits
  uid : r.sb.uid = a.sb.uid
  gid : r.sb.gid = a.sb.gid
  mtime : r.sb.mtime = a.sb.mtime
  size : r.sb.size = (ascUl octal hd.size).toUInt64
  rdev : r.sb.rdev = 0
  lnNlen : r.lnNlen = 0
  pad : r.pad = 0

theorem ustarCommon_spec {tf : TypeFields} (hw : Written t a tf hd) (hnamed : a.Named)
    (hforeign : t.Foreign a) (hname : a.nlen ≤ tnmsz) (old : Archd) :
    Common a hd old (ustarCommon t old hd) := by
  have hfield : fieldString hd.name = a.path := by
    rw [hw.name]
    exact fieldString_slice hnamed.path hnamed.ends hname
  have hpfix : (hd.pfix.head? != some 0) = false := by
    rw [hw.pfix]
    decide
  obtain ⟨hn, hslice, hend⟩ := lStrncpy_spec old.name hd.name
  rw [hfield] at hn hslice
  have hnlen : (lStrncpy old.name 0 hd.name).1 = a.nlen := by rw [hn, Archd.path, length_slice]
  simp only [ustarCommon, hpfix, Bool.false_eq_true, if_false, Nat.add_zero]
  exact
    { path := hslice
      nlen := hnlen
      ends := hend
      mode := perm_eq hw.mode
      uid := by rw [hw.uname, hforeign.1, Option.getD_none, ascUl_ulOct hw.uid]
      gid := by rw [hw.gname, hforeign.2, Option.getD_none, ascUl_ulOct hw.gid]
      mtime := ascUl_ulOct hw.mtime
      size := rfl
      rdev := rfl
      lnNlen := rfl
      pad := rfl }

theorem Common.link {r : Archd} (h : Common a hd old r) : r.link = [] := by
  rw [Archd.link, h.lnNlen, slice_zero]

theorem Common.last {r : Archd} (h : Common a hd old r) (hpos : 0 < a.nlen) :
    r.name (r.nlen - 1) = a.name (a.nlen - 1) := by
  have hpath : slice r.name 0 a.nlen = slice a.name 0 a.nlen := by
    have := h.path
    rwa [Archd.path, Archd.path, h.nlen] at this
  have hcell := eq_of_slice_eq hpath (Nat.sub_one_lt_of_lt hpos)
  simpa [h.nlen] using hcell

theorem Common.plain {r : Archd} {pad : Nat} (h : Common a hd old r) (hsize : ulOct 0 12 3 = some hd.size)
    (type : PaxType) (bits nlink : UInt16) (hbits : bits &&& permBits = 0) (htype : type = a.type.readAs)
    (hdata : a.type.hasData = false) (hlink : a.type.isLink = false) (hdev : a.type.isDevice = false)
    (hpad : pad = 0) :
    UstarSame a pad { r with type := type, sb := { r.sb with mode := r.sb.mode ||| bits, nlink := nlink } }
    where
  path := h.path
  nlen := h.nlen
  ends := h.ends
  link := by rw [hlink]; exact h.link
  type := htype
  mode := h.mode bits hbits
  uid := h.uid
  gid := h.gid
  mtime := h.mtime
  size := by rw [hdata]; exact h.size.trans (ascUl_zero hsize)
  rdev := by rw [hdev]; exact h.rdev
  pad := h.pad.trans hpad.symm

theorem Common.device {r : Archd} {pad : Nat} (h : Common a hd old r) (hsize : ulOct 0 12 3 = some hd.size)
    (hmaj : ulOct (major a.sb.rdev) 8 3 = some hd.devmajor)
    (hmin : ulOct (minor a.sb.rdev) 8 3 = some hd.devminor)
    (type : PaxType) (bits : UInt16) (hbits : bits &&& permBits = 0) (htype : a.type = type)
    (hdev : type.isDevice = true) (hpad : pad = 0) : UstarSame a pad (ustarDevice hd r type bits) := by
  have hmajor : major a.sb.rdev < 2 ^ 32 := Nat.lt_trans (Nat.mod_lt _ (by decide)) (by decide)
  have hminor : minor a.sb.rdev < 2 ^ 32 := Nat.lt_trans (Nat.mod_lt _ (by decide)) (by decide)
  have hkinds : type.readAs = type ∧ type.hasData = false ∧ type.isLink = false := by
    revert hdev
    cases type <;> decide
  exact
    { path := h.path
      nlen := h.nlen
      ends := h.ends
      link := by rw [htype, hkinds.2.2]; exact h.link
      type := by rw [htype, hkinds.1]; rfl
      mode := h.mode bits hbits
      uid := h.uid
      gid := h.gid
      mtime := h.mtime
      size := by rw [htype, hkinds.2.1]; exact h.size.trans (ascUl_zero hsize)
      rdev := by
        rw [htype, hdev]
        simp only [ustarDevice]
        rw [ascUl_ulOct_toNat hmajor hmaj, ascUl_ulOct_toNat hminor hmin, todev_major_minor]
        rfl
      pad := h.pad.trans hpad.symm }

theorem Common.linked {r : Archd} {pad : Nat} (h : Common a hd old r) (hnamed : a.Named)
    (hlen : a.lnNlen ≤ 100) (hsize : ulOct 0 12 3 = some hd.size)
    (hlinkname : hd.linkname = zfStrncpy (slice a.lnName 0 100) 100)
    (type : PaxType) (bits nlink : UInt16) (hbits : bits &&& permBits = 0) (htype : type = a.type.readAs)
    (hlink : a.type.isLink = true) (hpad : pad = 0) :
    UstarSame a pad (ustarLink hd r type bits nlink) := by
  have hkinds : a.type.hasData = false ∧ a.type.isDevice = false := by
    revert hlink
    cases a.type <;> decide
  exact
    { path := h.path
      nlen := h.nlen
      ends := h.ends
      link := by
        rw [hlink]
        refine (lStrncpy_spec r.lnName hd.linkname).2.1.trans ?_
        rw [hlinkname]
        exact fieldString_slice hnamed.link hnamed.lnEnds hlen
      type := htype
      mode := h.mode bits hbits
      uid := h.uid
      gid := h.gid
      mtime := h.mtime
      size := by rw [hkinds.1]; exact h.size.trans (ascUl_zero hsize)
      rdev := by rw [hkinds.2]; exact h.rdev
      pad := h.pad.trans hpad.symm }

theorem Common.regular {r : Archd} {pad : Nat} (h : Common a hd old r)
    (hsize : ulOct a.sb.size.toNat 12 3 = some hd.size) (hdata : a.type.hasData = true)
    (hlt : a.sb.size.toNat < 2 ^ 32) (hpad : pad = tarPad a.sb.size) :
    UstarSame a pad { r with
      type := .reg, sb := { r.sb with mode := r.sb.mode ||| sIfreg }, pad := tarPad r.sb.size
      skip := r.sb.size } := by
  have hkinds : a.type.readAs = .reg ∧ a.type.isLink = false ∧ a.type.isDevice = false := by
    revert hdata
    cases a.type <;> decide
  have hsame := h.size.trans (ascUl_size hlt hsize)
  exact
    { path := h.path
      nlen := h.nlen
      ends := h.ends
      link := by rw [hkinds.2.1]; exact h.link
      type := hkinds.1.symm
      mode := h.mode sIfreg (by decide)
      uid := h.uid
      gid := h.gid
      mtime := h.mtime
      size := by rw [hdata]; exact hsame
      rdev := by rw [hkinds.2.2]; exact h.rdev
      pad := (congrArg tarPad hsame).trans hpad.symm }

theorem ustarType_spec {r : Archd} {tf : TypeFields} (hw : Written t a tf hd) (h : Common a hd old r)
    (hnamed : a.Named) (hsck : a.type ≠ .sck) (hlen : a.type.isLink = true → a.lnNlen ≤ 100)
    (hpos : 0 < a.nlen) (hdir : a.type = .dir → a.name (a.nlen - 1) ≠ 47)
    (hsize : a.type.hasData = true → a.sb.size.toNat < 2 ^ 32) :
    UstarSame a tf.pad (ustarType hd r) := by
  have htf := hw.fields
  have hflag := hw.typeflag
  have hsz := hw.size
  rw [typeFields] at htf
  rw [ustarType, hflag]
  cases htype : a.type with
  | sck => exact absurd htype hsck
  | dir =>
    simp only [htype, Option.bind_eq_bind, Option.bind_eq_some_iff, Option.some.injEq] at htf
    obtain ⟨size, hs, rfl⟩ := htf
    have hslash : ¬ (0 < r.nlen ∧ r.name (r.nlen - 1) = 47) := by
      rw [h.last hpos]
      exact fun hlast => hdir htype hlast.2
    dsimp only
    rw [if_neg hslash]
    exact h.plain (hsz ▸ hs) .dir _ _ (by decide) (by rw [htype]; rfl) (by rw [htype]; rfl)
      (by rw [htype]; rfl) (by rw [htype]; rfl) rfl
  | fif =>
    simp only [htype, Option.bind_eq_bind, Option.bind_eq_some_iff, Option.some.injEq] at htf
    obtain ⟨size, hs, rfl⟩ := htf
    exact h.plain (hsz ▸ hs) .fif _ r.sb.nlink (by decide) (by rw [htype]; rfl) (by rw [htype]; rfl)
      (by rw [htype]; rfl) (by rw [htype]; rfl) rfl
  | chr =>
    simp only [htype, Option.bind_eq_bind, Option.bind_eq_some_iff, Option.some.injEq] at htf
    obtain ⟨maj, hmaj, min, hmin, size, hs, rfl⟩ := htf
    exact h.device (hsz ▸ hs) (hw.devmajor ▸ hmaj) (hw.devminor ▸ hmin) .chr _ (by decide) htype rfl rfl
  | blk =>
    simp only [htype, Option.bind_eq_bind, Option.bind_eq_some_iff, Option.some.injEq] at htf
    obtain ⟨maj, hmaj, min, hmin, size, hs, rfl⟩ := htf
    exact h.device (hsz ▸ hs) (hw.devmajor ▸ hmaj) (hw.devminor ▸ hmin) .blk _ (by decide) htype rfl rfl
  | slk =>
    have hlink : a.type.isLink = true := by rw [htype]; rfl
    simp only [htype, Option.bind_eq_bind, Option.bind_eq_some_iff, Option.some.injEq] at htf
    obtain ⟨size, hs, rfl⟩ := htf
    exact h.linked hnamed (hlen hlink) (hsz ▸ hs) hw.linkname .slk _ _ (by decide) (by rw [htype]; rfl)
      hlink rfl
  | hlk =>
    have hlink : a.type.isLink = true := by rw [htype]; rfl
    simp only [htype, Option.bind_eq_bind, Option.bind_eq_some_iff, Option.some.injEq] at htf
    obtain ⟨size, hs, rfl⟩ := htf
    exact h.linked hnamed (hlen hlink) (hsz ▸ hs) hw.linkname .hlk _ _ (by decide) (by rw [htype]; rfl)
      hlink rfl
  | hrg =>
    have hlink : a.type.isLink = true := by rw [htype]; rfl
    simp only [htype, Option.bind_eq_bind, Option.bind_eq_some_iff, Option.some.injEq] at htf
    obtain ⟨size, hs, rfl⟩ := htf
    exact h.linked hnamed (hlen hlink) (hsz ▸ hs) hw.linkname .hlk _ _ (by decide) (by rw [htype]; rfl)
      hlink rfl
  | reg =>
    have hdata : a.type.hasData = true := by rw [htype]; rfl
    simp only [htype, Option.bind_eq_bind, Option.bind_eq_some_iff, Option.some.injEq] at htf
    obtain ⟨size, hs, rfl⟩ := htf
    exact h.regular (hsz ▸ hs) hdata (hsize hdata) rfl
  | ctg =>
    have hdata : a.type.hasData = true := by rw [htype]; rfl
    simp only [htype, Option.bind_eq_bind, Option.bind_eq_some_iff, Option.some.injEq] at htf
    obtain ⟨size, hs, rfl⟩ := htf
    exact h.regular (hsz ▸ hs) hdata (hsize hdata) rfl

/-- A member is read back from the block it was written to, whatever was read before. -/
theorem ustar_roundtrip (t : Tables) (a old : Archd) (ret : Nat) (blk : List Chr) (a' : Archd)
    (hnamed : a.Named) (hforeign : t.Foreign a) (hpos : 0 < a.nlen) (hname : a.nlen ≤ tnmsz)
    (hdir : a.type = .dir → a.name (a.nlen - 1) ≠ 47)
    (hsize : a.type.hasData = true → a.sb.size.toNat < 2 ^ 32)
    (hwr : ustarWr t a = some (ret, blk, a')) :
    ∃ r, ustarRd t old blk = some r ∧ UstarSame a a'.pad r := by
  obtain ⟨tf, hd, chksum, hw, hsck, hlen, hpad, hchksum, rfl⟩ := ustarWr_written hname hwr
  have hhead : hd.name.head? ≠ some 0 := by
    intro hzero
    have hfield : fieldString hd.name = a.path := by
      rw [hw.name]
      exact fieldString_slice hnamed.path hnamed.ends hname
    have hlength := congrArg List.length hfield
    cases hn : hd.name with
    | nil => simp [hn] at hzero
    | cons ch rest =>
      obtain rfl : ch = 0 := by simpa [hn] using hzero
      simp [hn, fieldString, Archd.path] at hlength
      omega
  have hw' : Written t a tf { hd with chksum := chksum } :=
    { hw with
      sized := by
        have := hw.sized
        simp only [HdUstar.Sized, HdUstar.fields, ustarWidths, List.map_cons, List.map_nil,
          List.cons.injEq, and_true] at this ⊢
        simp only [this, length_ulOct (by decide) hchksum, and_self] }
  refine ⟨ustarType _ (ustarCommon t old _), ?_, hpad ▸ ustarType_spec hw'
    (ustarCommon_spec hw' hnamed hforeign hname old) hnamed hsck hlen hpos hdir hsize⟩
  rw [ustarRd, ofBlock_flatten hw'.sized]
  simp only [Option.bind_eq_bind, Option.bind_some, ustarId_set hw.sized hhead hw.magic hchksum,
    Bool.true_eq_false, if_false]

def noTables : Tables := ⟨fun _ => [], fun _ => [], fun _ => none, fun _ => none⟩

theorem ustar_roundtrip_link :
    ∃ w r, ustarWr noTables linkA = some w ∧ ustarRd noTables dirD w.2.1 = some r ∧
      UstarSame linkA w.2.2.pad r := by
  have hsome : (ustarWr noTables linkA).isSome = true := by decide +kernel
  obtain ⟨w, hw⟩ := Option.isSome_iff_exists.1 hsome
  obtain ⟨r, hr, hsame⟩ := ustar_roundtrip noTables linkA dirD w.1 w.2.1 w.2.2 named_linkA
    ⟨rfl, rfl⟩ (by decide) (by decide) (by decide) (by decide) hw
  exact ⟨w, r, hw, hr, hsame⟩

/-- The size of a directory is not stored. -/
theorem ustar_size_lost :
    ¬ ∀ (t : Tables) (a old : Archd) (ret : Nat) (blk : List Chr) (a' : Archd), a.Named →
      t.Foreign a → 0 < a.nlen → a.nlen ≤ tpfsz + tnmsz + 1 → ustarWr t a = some (ret, blk, a') →
      ∃ r, ustarRd t old blk = some r ∧ r.path = a.path ∧ r.nlen = a.nlen ∧ r.link = a.link ∧
        r.type = a.type.readAs ∧ r.sb.mode &&& permBits = a.sb.mode &&& permBits ∧
        r.sb.uid = a.sb.uid ∧ r.sb.gid = a.sb.gid ∧ r.sb.mtime = a.sb.mtime ∧
        r.sb.size = a.sb.size ∧ r.sb.rdev = a.sb.rdev ∧ r.pad = a'.pad := by
  intro h
  have hsome : (ustarWr noTables dirD).isSome = true := by decide +kernel
  have hread : ((ustarWr noTables dirD).bind fun w => ustarRd noTables linkA w.2.1).map
      (fun r => r.sb.size) = some 0 := by decide +kernel
  obtain ⟨w, hw⟩ := Option.isSome_iff_exists.1 hsome
  obtain ⟨r, hr, -, -, -, -, -, -, -, -, hsize, -⟩ := h noTables dirD linkA w.1 w.2.1 w.2.2 named_dirD
    ⟨rfl, rfl⟩ (by decide) (by decide) hw
  rw [hw, Option.bind_some, hr, Option.map_some, hsize] at hread
  exact absurd hread (by decide)

end Bsdi.Pax
