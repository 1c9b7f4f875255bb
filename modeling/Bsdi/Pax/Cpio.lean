import Bsdi.Pax.Archd

/-!
# The cpio headers

`cpio.c`: the byte oriented, the System VR4 (with and without a checksum) and the binary format
store the same description of a member in three encodings.
-/

namespace Bsdi.Pax

open Lib

/-- What the headers of all formats hold. -/
structure CpioHead where
  dev : UInt32
  ino : UInt32
  mode : UInt16
  uid : UInt32
  gid : UInt32
  nlink : UInt16
  rdev : UInt32
  mtime : UInt32
  namesize : Nat
  filesize : UInt64
  /-- The checksum of the file data, in the formats that have one. -/
  crc : Option UInt32
  deriving DecidableEq

structure CpioFormat where
  /-- The size of a header. -/
  hsz : Nat
  /-- The bytes that fill up a part of the given length. -/
  pad : Nat → Nat
  /-- The header, or nothing when a field is too small. -/
  encode : CpioHead → Option (List Chr)
  decode : List Chr → Option CpioHead

def cIfmt : UInt16 := 0o170000
/-- The file types in `st_mode`. -/
def cIsdir : UInt16 := 0o040000
def cIsfifo : UInt16 := 0o010000
def cIsreg : UInt16 := 0o100000
def cIsblk : UInt16 := 0o060000
def cIschr : UInt16 := 0o020000
def cIslnk : UInt16 := 0o120000
def cIsock : UInt16 := 0o140000

/-! ## Writing -/

def Archd.fileSize (a : Archd) : UInt64 :=
  match a.type with
  | .ctg | .reg | .hrg => a.sb.size
  | .slk => UInt64.ofNat a.lnNlen
  | _ => 0

def Archd.hasFile (a : Archd) : Bool := a.type = .ctg ∨ a.type = .reg ∨ a.type = .hrg

def Archd.storedRdev (a : Archd) : UInt32 :=
  if a.type ≠ .blk ∧ a.type ≠ .chr then 0 else a.sb.rdev

def Archd.head (a : Archd) : CpioHead :=
  { dev := a.sb.dev, ino := a.sb.ino, mode := a.sb.mode, uid := a.sb.uid, gid := a.sb.gid
    nlink := a.sb.nlink, rdev := a.storedRdev, mtime := a.sb.mtime, namesize := a.nlen + 1
    filesize := a.fileSize, crc := some a.crc }

def CpioFormat.left (F : CpioFormat) (a : Archd) : Archd :=
  { a with
    sb := { a.sb with rdev := a.storedRdev }
    pad := if a.hasFile then F.pad a.sb.size.toNat else 0 }

/-- `cpio_wr`, `vcpio_wr` and `bcpio_wr` after `map_dev`: what is returned, the bytes before the
file data, and the member as it is left; nothing when a field is too small. -/
def CpioFormat.wr (F : CpioFormat) (a : Archd) : Option (Nat × List Chr × Archd) := do
  let nsz := a.nlen + 1
  let hd ← F.encode a.head
  let front := hd ++ slice a.name 0 nsz ++ List.replicate (F.pad (F.hsz + nsz)) 0
  if a.hasFile then some (0, front, F.left a)
  else if a.type ≠ .slk then some (1, front, F.left a)
  else some (1, front ++ slice a.lnName 0 a.lnNlen ++ List.replicate (F.pad a.lnNlen) 0, F.left a)

/-! ## Reading -/

/-- An entry of the table of files with several links. -/
structure HrdLnk where
  dev : UInt32
  ino : UInt32
  nlink : UInt16
  name : List Chr

/-- `rd_nm(arcn, nsz)`: the name, and what follows it. -/
def rdNm (mem : Nat → Chr) (nsz : Nat) (input : List Chr) : Option ((Nat → Chr) × List Chr) :=
  if nsz = 0 ∨ paxpathlen + 1 < nsz ∨ input.length < nsz then
    none
  else
    let mem := store mem 0 (input.take nsz)
    if mem (nsz - 1) ≠ 0 ∨ mem 0 = 0 then none else some (mem, input.drop nsz)

/-- `rd_ln_nm(arcn)`: the link name, and what follows it. -/
def rdLnNm (mem : Nat → Chr) (size : Nat) (input : List Chr) : Option ((Nat → Chr) × List Chr) :=
  if size = 0 ∨ paxpathlen + 1 ≤ size ∨ input.length < size then
    none
  else
    let mem := store (store mem 0 (input.take size)) size [0]
    if mem 0 = 0 then none else some (mem, input.drop size)

/-- `chk_lnk(arcn)`: a member that was seen before is a hard link, another one with several links
is put into the table. -/
def chkLnk (ltab : List HrdLnk) (a : Archd) : Archd × List HrdLnk :=
  if a.type = .dir ∨ a.sb.nlink ≤ 1 then
    (a, ltab)
  else
    match ltab.find? fun e => e.ino == a.sb.ino && e.dev == a.sb.dev with
    | some e =>
      let seen : HrdLnk → Bool := fun e => e.ino == a.sb.ino && e.dev == a.sb.dev
      ({ a with
          lnNlen := e.name.length
          lnName := store a.lnName 0 (e.name ++ [0])
          type := if a.type = .reg then .hrg else .hlk },
        if e.nlink - 1 ≤ 1 then ltab.eraseP seen
        else (ltab.takeWhile fun e => !seen e) ++ { e with nlink := e.nlink - 1 } ::
          ((ltab.dropWhile fun e => !seen e).drop 1))
    | none => (a, ⟨a.sb.dev, a.sb.ino, a.sb.nlink, a.path⟩ :: ltab)

def comRd (ltab : List HrdLnk) (a : Archd) : Archd × List HrdLnk :=
  let fmt := a.sb.mode &&& cIfmt
  let a := { a with skip := 0 }
  chkLnk ltab <|
    if fmt = cIsfifo then { a with type := .fif }
    else if fmt = cIsdir then { a with type := .dir }
    else if fmt = cIsblk then { a with type := .blk }
    else if fmt = cIschr then { a with type := .chr }
    else if fmt = cIslnk then { a with type := .slk }
    else if fmt = cIsock then { a with type := .sck }
    else
      { a with
        sb := { a.sb with mode := (a.sb.mode &&& 0xfff) ||| cIsreg }, type := .reg
        skip := a.sb.size }

/-- `cpio_rd`, `vcpio_rd` and `bcpio_rd`: the member, the table of links and what follows. -/
def CpioFormat.rd (F : CpioFormat) (ltab : List HrdLnk) (old : Archd) (input : List Chr) :
    Option (Archd × List HrdLnk × List Chr) := do
  let hd ← F.decode (input.take F.hsz)
  if hd.namesize < 2 then
    none
  else
    let sb : Stat :=
      { dev := hd.dev, ino := hd.ino, mode := hd.mode, nlink := hd.nlink, uid := hd.uid, gid := hd.gid
        rdev := hd.rdev, size := hd.filesize, mtime := hd.mtime }
    let (name, rest) ← rdNm old.name hd.namesize (input.drop F.hsz)
    let rest := rest.drop (F.pad (F.hsz + hd.namesize))
    let a := { old with
      nlen := hd.namesize - 1, name := name, sb := sb, pad := 0, crc := hd.crc.getD old.crc }
    if hd.mode &&& cIfmt ≠ cIslnk ∨ hd.filesize = 0 then
      let (a, ltab) := comRd ltab { a with
        lnNlen := 0, lnName := store a.lnName 0 [0], pad := F.pad hd.filesize.toNat }
      some (a, ltab, rest)
    else
      let (lnName, rest) ← rdLnNm a.lnName hd.filesize.toNat rest
      let rest := rest.drop (F.pad hd.filesize.toNat)
      let (a, ltab) := comRd ltab { a with lnNlen := hd.filesize.toNat, lnName := lnName }
      some (a, ltab, rest)

/-! ## The three encodings -/

def amagic : List Chr := [48, 55, 48, 55, 48, 55]

/-- The header of `cpio_wr`: octal fields, no alignment. -/
def cpioEncode (h : CpioHead) : Option (List Chr) := do
  let filesize ← ulAsc octal h.filesize.toNat 11
  let magic ← ulAsc octal 0o070707 6
  let dev ← ulAsc octal h.dev.toNat 6
  let ino ← ulAsc octal h.ino.toNat 6
  let mode ← ulAsc octal h.mode.toNat 6
  let uid ← ulAsc octal h.uid.toNat 6
  let gid ← ulAsc octal h.gid.toNat 6
  let nlink ← ulAsc octal h.nlink.toNat 6
  let rdev ← ulAsc octal h.rdev.toNat 6
  let mtime ← ulAsc octal h.mtime.toNat 11
  let namesize ← ulAsc octal h.namesize 6
  some [magic, dev, ino, mode, uid, gid, nlink, rdev, mtime, namesize, filesize].flatten

def cpioDecode (l : List Chr) : Option CpioHead :=
  match cut [6, 6, 6, 6, 6, 6, 6, 6, 11, 6, 11] l with
  | [magic, dev, ino, mode, uid, gid, nlink, rdev, mtime, namesize, filesize] =>
    if magic ≠ amagic then
      none
    else
      some
        { dev := ascUl octal dev
          ino := ascUl octal ino
          mode := (ascUl octal mode).toUInt16
          uid := ascUl octal uid
          gid := ascUl octal gid
          nlink := (ascUl octal nlink).toUInt16
          rdev := ascUl octal rdev
          mtime := ascUl octal mtime
          namesize := (ascUl octal namesize).toNat
          filesize := ascUqd octal filesize
          crc := none }
  | _ => none

def cpio : CpioFormat where
  hsz := 76
  pad _ := 0
  encode := cpioEncode
  decode := cpioDecode

def vcpioPad (n : Nat) : Nat := (4 - n % 4) % 4

def vmagic (docrc : Bool) : List Chr := [48, 55, 48, 55, 48, if docrc then 50 else 49]

/-- The header of `vcpio_wr`: hexadecimal fields, aligned to four bytes. -/
def vcpioEncode (docrc : Bool) (h : CpioHead) : Option (List Chr) := do
  let magic ← ulAsc octal (if docrc then 0o070702 else 0o070701) 6
  let chksum ← ulAsc hex (if docrc then (h.crc.getD 0).toNat else 0) 8
  let filesize ← ulAsc hex h.filesize.toNat 8
  let ino ← ulAsc hex h.ino.toNat 8
  let mode ← ulAsc hex h.mode.toNat 8
  let uid ← ulAsc hex h.uid.toNat 8
  let gid ← ulAsc hex h.gid.toNat 8
  let mtime ← ulAsc hex h.mtime.toNat 8
  let nlink ← ulAsc hex h.nlink.toNat 8
  let maj ← ulAsc hex (major h.dev) 8
  let min ← ulAsc hex (minor h.dev) 8
  let rmaj ← ulAsc hex (major h.rdev) 8
  let rmin ← ulAsc hex (minor h.rdev) 8
  let namesize ← ulAsc hex h.namesize 8
  some [magic, ino, mode, uid, gid, nlink, mtime, filesize, maj, min, rmaj, rmin, namesize,
    chksum].flatten

def vcpioDecode (docrc : Bool) (l : List Chr) : Option CpioHead :=
  match cut [6, 8, 8, 8, 8, 8, 8, 8, 8, 8, 8, 8, 8, 8] l with
  | [magic, ino, mode, uid, gid, nlink, mtime, filesize, maj, min, rmaj, rmin, namesize, chksum] =>
    if magic ≠ vmagic docrc then
      none
    else
      some
        { dev := todev (ascUl hex maj).toNat (ascUl hex min).toNat
          ino := ascUl hex ino
          mode := (ascUl hex mode).toUInt16
          uid := ascUl hex uid
          gid := ascUl hex gid
          nlink := (ascUl hex nlink).toUInt16
          rdev := todev (ascUl hex rmaj).toNat (ascUl hex rmin).toNat
          mtime := ascUl hex mtime
          namesize := (ascUl hex namesize).toNat
          filesize := ascUqd hex filesize
          crc := some (ascUl hex chksum) }
  | _ => none

def vcpio (docrc : Bool) : CpioFormat where
  hsz := 110
  pad := vcpioPad
  encode := vcpioEncode docrc
  decode := vcpioDecode docrc

def bcpioPad (n : Nat) : Nat := (2 - n % 2) % 2

/-- A number in two bytes, the high one first (`CHR_WR_2`, `CHR_WR_3`), when it is the one read
back (`SHRT_EXT`). -/
def shrt (n : Nat) : Option (List Chr) :=
  if n < 2 ^ 16 then some [UInt8.ofNat (n / 256), UInt8.ofNat n] else none

/-- `SHRT_EXT`, and with swapped bytes `RSHRT_EXT`. -/
def shrtExt (swp : Bool) : List Chr → Nat
  | [hi, lo] => if swp then lo.toNat * 256 + hi.toNat else hi.toNat * 256 + lo.toNat
  | _ => 0

/-- The header of `bcpio_wr`: numbers of 16 bits, aligned to two bytes. `swp` is `swp_head` before
the header is read. -/
def bcpioEncode (h : CpioHead) : Option (List Chr) := do
  let filesize1 ← shrt (h.filesize.toNat / 2 ^ 16)
  let filesize2 ← shrt (h.filesize.toNat % 2 ^ 16)
  let magic ← shrt 0o070707
  let dev ← shrt h.dev.toNat
  let ino ← shrt h.ino.toNat
  let mode ← shrt h.mode.toNat
  let uid ← shrt h.uid.toNat
  let gid ← shrt h.gid.toNat
  let nlink ← shrt h.nlink.toNat
  let rdev ← shrt h.rdev.toNat
  let mtime1 ← shrt (h.mtime.toNat / 2 ^ 16)
  let mtime2 ← shrt (h.mtime.toNat % 2 ^ 16)
  let namesize ← shrt h.namesize
  some [magic, dev, ino, mode, uid, gid, nlink, rdev, mtime1, mtime2, namesize, filesize1,
    filesize2].flatten

def bcpioDecode (swp : Bool) (l : List Chr) : Option CpioHead :=
  match cut [2, 2, 2, 2, 2, 2, 2, 2, 2, 2, 2, 2, 2] l with
  | [magic, dev, ino, mode, uid, gid, nlink, rdev, mtime1, mtime2, namesize, filesize1, filesize2] =>
    if shrtExt false magic ≠ 0o070707 ∧ shrtExt true magic ≠ 0o070707 then
      none
    else
      -- a swapped magic number turns `swp_head` on
      let swp := swp || decide (shrtExt false magic ≠ 0o070707)
      some
        { dev := UInt32.ofNat (shrtExt swp dev)
          ino := UInt32.ofNat (shrtExt swp ino)
          mode := UInt16.ofNat (shrtExt swp mode)
          uid := UInt32.ofNat (shrtExt swp uid)
          gid := UInt32.ofNat (shrtExt swp gid)
          nlink := UInt16.ofNat (shrtExt swp nlink)
          rdev := UInt32.ofNat (shrtExt swp rdev)
          mtime := UInt32.ofNat (shrtExt swp mtime1 * 2 ^ 16 + shrtExt swp mtime2)
          namesize := shrtExt swp namesize
          filesize := UInt64.ofNat (shrtExt swp filesize1 * 2 ^ 16 + shrtExt swp filesize2)
          crc := none }
  | _ => none

def bcpio (swp : Bool) : CpioFormat where
  hsz := 26
  pad := bcpioPad
  encode := bcpioEncode
  decode := bcpioDecode swp

/-! ## Headers -/

/-- A header is read as it was written; the checksum may be left out. -/
structure CpioFormat.Lawful (F : CpioFormat) : Prop where
  pad_zero : F.pad 0 = 0
  length : ∀ h l, F.encode h = some l → l.length = F.hsz
  decode : ∀ h l, F.encode h = some l → ∃ crc, F.decode l = some { h with crc := crc }

section

variable {base : Digits Chr} {n len : Nat} {f : List Chr}

/-- A base whose digits are read back and whose zero fills up fields. -/
structure Base (base : Digits Chr) : Prop where
  lawful : base.Lawful
  zero : base.skip 48 = true

theorem base_octal : Base octal := ⟨octal_lawful, by decide⟩

theorem base_hex : Base hex := ⟨hex_lawful, by decide⟩

theorem ascUl_ulAsc {x : UInt32} (hb : Base base) (h : ulAsc base x.toNat len = some f) :
    ascUl base f = x := ascUl_of_read (read_ulAsc hb.lawful hb.zero h)

theorem ascUl_ulAsc_short {x : UInt16} (hb : Base base) (h : ulAsc base x.toNat len = some f) :
    (ascUl base f).toUInt16 = x := by
  have : ascUl base f = x.toUInt32 := by
    refine ascUl_of_read ?_
    rw [read_ulAsc hb.lawful hb.zero h, UInt16.toNat_toUInt32]
  rw [this, UInt16.toUInt16_toUInt32]

theorem ascUl_ulAsc_nat (hb : Base base) (hn : n < 2 ^ 32) (h : ulAsc base n len = some f) :
    (ascUl base f).toNat = n := by
  rw [ascUl, read_ulAsc hb.lawful hb.zero h, Nat.mod_eq_of_lt hn, UInt32.toNat_ofNat_of_lt' hn]

theorem ascUqd_ulAsc {x : UInt64} (hb : Base base) (h : ulAsc base x.toNat len = some f) :
    ascUqd base f = x := by
  rw [ascUqd, read_ulAsc hb.lawful hb.zero h, Nat.mod_eq_of_lt x.toNat_lt, UInt64.ofNat_toNat]

theorem ulAsc_lt (hb : Base base) (h : ulAsc base n len = some f) : n < base.base ^ len :=
  writeNumeral_lt (Nat.lt_trans Nat.zero_lt_one hb.lawful.base) h

theorem todev_ulAsc {x : UInt32} {maj min : List Chr} (hb : Base base)
    (hmaj : ulAsc base (major x) len = some maj) (hmin : ulAsc base (minor x) len = some min) :
    todev (ascUl base maj).toNat (ascUl base min).toNat = x := by
  have hmajor : major x < 2 ^ 32 := Nat.lt_trans (Nat.mod_lt _ (by decide)) (by decide)
  have hminor : minor x < 2 ^ 32 := Nat.lt_trans (Nat.mod_lt _ (by decide)) (by decide)
  rw [ascUl_ulAsc_nat hb hmajor hmaj, ascUl_ulAsc_nat hb hminor hmin, todev_major_minor]

end

theorem cpio_lawful : cpio.Lawful := by
  have hkey : ∀ h l, cpioEncode h = some l →
      l.length = 76 ∧ cpioDecode l = some { h with crc := none } := by
    intro h l heq
    obtain ⟨filesize, hfilesize, heq⟩ := Option.bind_eq_some_iff.1 heq
    obtain ⟨magic, hmagic, heq⟩ := Option.bind_eq_some_iff.1 heq
    obtain ⟨dev, hdev, heq⟩ := Option.bind_eq_some_iff.1 heq
    obtain ⟨ino, hino, heq⟩ := Option.bind_eq_some_iff.1 heq
    obtain ⟨mode, hmode, heq⟩ := Option.bind_eq_some_iff.1 heq
    obtain ⟨uid, huid, heq⟩ := Option.bind_eq_some_iff.1 heq
    obtain ⟨gid, hgid, heq⟩ := Option.bind_eq_some_iff.1 heq
    obtain ⟨nlink, hnlink, heq⟩ := Option.bind_eq_some_iff.1 heq
    obtain ⟨rdev, hrdev, heq⟩ := Option.bind_eq_some_iff.1 heq
    obtain ⟨mtime, hmtime, heq⟩ := Option.bind_eq_some_iff.1 heq
    obtain ⟨namesize, hnamesize, heq⟩ := Option.bind_eq_some_iff.1 heq
    obtain rfl := Option.some.inj heq
    have hwidths : [magic, dev, ino, mode, uid, gid, nlink, rdev, mtime, namesize, filesize].map
        List.length = [6, 6, 6, 6, 6, 6, 6, 6, 11, 6, 11] := by
      simp only [List.map_cons, List.map_nil, length_ulAsc hfilesize, length_ulAsc hmagic,
        length_ulAsc hdev, length_ulAsc hino, length_ulAsc hmode, length_ulAsc huid, length_ulAsc hgid,
        length_ulAsc hnlink, length_ulAsc hrdev, length_ulAsc hmtime, length_ulAsc hnamesize]
    have hcut := cut_flatten
      [magic, dev, ino, mode, uid, gid, nlink, rdev, mtime, namesize, filesize] []
    rw [hwidths, List.append_nil] at hcut
    obtain rfl : amagic = magic := Option.some.inj (by rw [← hmagic]; decide)
    have hsmall : h.namesize < 2 ^ 32 := Nat.lt_trans (ulAsc_lt base_octal hnamesize) (by decide)
    refine ⟨by rw [List.length_flatten, hwidths]; rfl, ?_⟩
    rw [cpioDecode, hcut]
    simp only [ne_eq, not_true_eq_false, if_false, ascUl_ulAsc base_octal hdev,
      ascUl_ulAsc base_octal hino, ascUl_ulAsc_short base_octal hmode, ascUl_ulAsc base_octal huid,
      ascUl_ulAsc base_octal hgid, ascUl_ulAsc_short base_octal hnlink, ascUl_ulAsc base_octal hrdev,
      ascUl_ulAsc base_octal hmtime, ascUl_ulAsc_nat base_octal hsmall hnamesize,
      ascUqd_ulAsc base_octal hfilesize]
  exact ⟨rfl, fun h l heq => (hkey h l heq).1, fun h l heq => ⟨_, (hkey h l heq).2⟩⟩

theorem vcpio_lawful (docrc : Bool) : (vcpio docrc).Lawful := by
  have hkey : ∀ h l, vcpioEncode docrc h = some l →
      l.length = 110 ∧ ∃ crc, vcpioDecode docrc l = some { h with crc := crc } := by
    intro h l heq
    obtain ⟨magic, hmagic, heq⟩ := Option.bind_eq_some_iff.1 heq
    obtain ⟨chksum, hchksum, heq⟩ := Option.bind_eq_some_iff.1 heq
    obtain ⟨filesize, hfilesize, heq⟩ := Option.bind_eq_some_iff.1 heq
    obtain ⟨ino, hino, heq⟩ := Option.bind_eq_some_iff.1 heq
    obtain ⟨mode, hmode, heq⟩ := Option.bind_eq_some_iff.1 heq
    obtain ⟨uid, huid, heq⟩ := Option.bind_eq_some_iff.1 heq
    obtain ⟨gid, hgid, heq⟩ := Option.bind_eq_some_iff.1 heq
    obtain ⟨mtime, hmtime, heq⟩ := Option.bind_eq_some_iff.1 heq
    obtain ⟨nlink, hnlink, heq⟩ := Option.bind_eq_some_iff.1 heq
    obtain ⟨maj, hmaj, heq⟩ := Option.bind_eq_some_iff.1 heq
    obtain ⟨min, hmin, heq⟩ := Option.bind_eq_some_iff.1 heq
    obtain ⟨rmaj, hrmaj, heq⟩ := Option.bind_eq_some_iff.1 heq
    obtain ⟨rmin, hrmin, heq⟩ := Option.bind_eq_some_iff.1 heq
    obtain ⟨namesize, hnamesize, heq⟩ := Option.bind_eq_some_iff.1 heq
    obtain rfl := Option.some.inj heq
    have hwidths : [magic, ino, mode, uid, gid, nlink, mtime, filesize, maj, min, rmaj, rmin, namesize,
        chksum].map List.length = [6, 8, 8, 8, 8, 8, 8, 8, 8, 8, 8, 8, 8, 8] := by
      simp only [List.map_cons, List.map_nil, length_ulAsc hfilesize, length_ulAsc hmagic,
        length_ulAsc hchksum, length_ulAsc hino, length_ulAsc hmode, length_ulAsc huid,
        length_ulAsc hgid, length_ulAsc hnlink, length_ulAsc hmaj, length_ulAsc hmin,
        length_ulAsc hrmaj, length_ulAsc hrmin, length_ulAsc hmtime, length_ulAsc hnamesize]
    have hcut := cut_flatten [magic, ino, mode, uid, gid, nlink, mtime, filesize, maj, min, rmaj, rmin,
      namesize, chksum] []
    rw [hwidths, List.append_nil] at hcut
    obtain rfl : vmagic docrc = magic := Option.some.inj (by
      rw [← hmagic]
      cases docrc <;> decide)
    have hsmall : h.namesize < 2 ^ 32 := Nat.lt_of_lt_of_le (ulAsc_lt base_hex hnamesize) (by decide)
    refine ⟨by rw [List.length_flatten, hwidths]; rfl, some (ascUl hex chksum), ?_⟩
    rw [vcpioDecode, hcut]
    refine (if_neg (not_not_intro rfl)).trans ?_
    rw [ascUl_ulAsc base_hex hino,
      ascUl_ulAsc_short base_hex hmode, ascUl_ulAsc base_hex huid,
      ascUl_ulAsc base_hex hgid, ascUl_ulAsc_short base_hex hnlink, todev_ulAsc base_hex hmaj hmin,
      todev_ulAsc base_hex hrmaj hrmin, ascUl_ulAsc base_hex hmtime,
      ascUl_ulAsc_nat base_hex hsmall hnamesize, ascUqd_ulAsc base_hex hfilesize]
  exact ⟨rfl, fun h l heq => (hkey h l heq).1, fun h l heq => (hkey h l heq).2⟩

theorem shrt_spec {n : Nat} {f : List Chr} (h : shrt n = some f) :
    f.length = 2 ∧ shrtExt false f = n := by
  rw [shrt] at h
  split_ifs at h with hn
  obtain rfl := Option.some.inj h
  refine ⟨rfl, ?_⟩
  simp only [shrtExt, Bool.false_eq_true, if_false, UInt8.toNat_ofNat']
  omega

theorem bcpio_lawful : (bcpio false).Lawful := by
  have hkey : ∀ h l, bcpioEncode h = some l →
      l.length = 26 ∧ bcpioDecode false l = some { h with crc := none } := by
    intro h l heq
    obtain ⟨filesize1, hfilesize1, heq⟩ := Option.bind_eq_some_iff.1 heq
    obtain ⟨filesize2, hfilesize2, heq⟩ := Option.bind_eq_some_iff.1 heq
    obtain ⟨magic, hmagic, heq⟩ := Option.bind_eq_some_iff.1 heq
    obtain ⟨dev, hdev, heq⟩ := Option.bind_eq_some_iff.1 heq
    obtain ⟨ino, hino, heq⟩ := Option.bind_eq_some_iff.1 heq
    obtain ⟨mode, hmode, heq⟩ := Option.bind_eq_some_iff.1 heq
    obtain ⟨uid, huid, heq⟩ := Option.bind_eq_some_iff.1 heq
    obtain ⟨gid, hgid, heq⟩ := Option.bind_eq_some_iff.1 heq
    obtain ⟨nlink, hnlink, heq⟩ := Option.bind_eq_some_iff.1 heq
    obtain ⟨rdev, hrdev, heq⟩ := Option.bind_eq_some_iff.1 heq
    obtain ⟨mtime1, hmtime1, heq⟩ := Option.bind_eq_some_iff.1 heq
    obtain ⟨mtime2, hmtime2, heq⟩ := Option.bind_eq_some_iff.1 heq
    obtain ⟨namesize, hnamesize, heq⟩ := Option.bind_eq_some_iff.1 heq
    obtain rfl := Option.some.inj heq
    have hwidths : [magic, dev, ino, mode, uid, gid, nlink, rdev, mtime1, mtime2, namesize, filesize1,
        filesize2].map List.length = [2, 2, 2, 2, 2, 2, 2, 2, 2, 2, 2, 2, 2] := by
      simp only [List.map_cons, List.map_nil, (shrt_spec hfilesize1).1, (shrt_spec hfilesize2).1,
        (shrt_spec hmagic).1, (shrt_spec hdev).1, (shrt_spec hino).1, (shrt_spec hmode).1,
        (shrt_spec huid).1, (shrt_spec hgid).1, (shrt_spec hnlink).1, (shrt_spec hrdev).1,
        (shrt_spec hmtime1).1, (shrt_spec hmtime2).1, (shrt_spec hnamesize).1]
    have hcut := cut_flatten [magic, dev, ino, mode, uid, gid, nlink, rdev, mtime1, mtime2, namesize,
      filesize1, filesize2] []
    rw [hwidths, List.append_nil] at hcut
    refine ⟨by rw [List.length_flatten, hwidths]; rfl, ?_⟩
    have hword : ∀ n, n / 2 ^ 16 * 2 ^ 16 + n % 2 ^ 16 = n := fun n => by
      rw [Nat.mul_comm]
      exact Nat.div_add_mod n (2 ^ 16)
    rw [bcpioDecode, hcut]
    refine (if_neg fun hbad => hbad.1 (shrt_spec hmagic).2).trans ?_
    have hswp : (false || decide (shrtExt false magic ≠ 0o070707)) = false := by
      simp [(shrt_spec hmagic).2]
    rw [hswp]
    simp only [(shrt_spec hfilesize1).2, (shrt_spec hfilesize2).2,
      (shrt_spec hdev).2, (shrt_spec hino).2, (shrt_spec hmode).2,
      (shrt_spec huid).2, (shrt_spec hgid).2, (shrt_spec hnlink).2, (shrt_spec hrdev).2,
      (shrt_spec hmtime1).2, (shrt_spec hmtime2).2, (shrt_spec hnamesize).2, hword,
      UInt32.ofNat_toNat, UInt16.ofNat_toNat, UInt64.ofNat_toNat]
  exact ⟨rfl, fun h l heq => (hkey h l heq).1, fun h l heq => ⟨_, (hkey h l heq).2⟩⟩

/-! ## Members -/

/-- The type of a member is that of its mode. -/
structure Archd.Typed (a : Archd) : Prop where
  known : a.sb.mode &&& cIfmt ∈ [cIsfifo, cIsdir, cIsblk, cIschr, cIslnk, cIsock, cIsreg]
  link : a.sb.mode &&& cIfmt = cIslnk ↔ a.type = .slk

/-- What is read back of the member `a`, which the writer left as `a'`. -/
structure CpioSame (a a' r : Archd) : Prop where
  path : r.path = a.path
  nlen : r.nlen = a.nlen
  mode : r.sb.mode = a.sb.mode
  uid : r.sb.uid = a.sb.uid
  gid : r.sb.gid = a.sb.gid
  nlink : r.sb.nlink = a.sb.nlink
  dev : r.sb.dev = a.sb.dev
  ino : r.sb.ino = a.sb.ino
  rdev : r.sb.rdev = a'.sb.rdev
  mtime : r.sb.mtime = a.sb.mtime
  size : r.sb.size = a.fileSize
  link : r.link = if a.type = .slk then a.link else []
  pad : r.pad = a'.pad

variable {F : CpioFormat} {a old : Archd} {ltab : List HrdLnk}

theorem mode_eq {mode : UInt16} (h : mode &&& cIfmt = cIsreg) : (mode &&& 0xfff) ||| cIsreg = mode := by
  have hsplit : mode &&& (0xfff ||| cIfmt) = (mode &&& 0xfff) ||| (mode &&& cIfmt) := by
    apply UInt16.toNat_inj.1
    simp only [UInt16.toNat_and, UInt16.toNat_or, Nat.and_or_distrib_left]
  have hall : (0xfff ||| cIfmt : UInt16) = -1 := by decide
  rw [← h, ← hsplit, hall, UInt16.and_neg_one]

theorem chkLnk_unseen (h : ∀ e ∈ ltab, ¬ (e.ino = a.sb.ino ∧ e.dev = a.sb.dev)) :
    (chkLnk ltab a).1 = a := by
  have hnone : ltab.find? (fun e => e.ino == a.sb.ino && e.dev == a.sb.dev) = none := by
    refine List.find?_eq_none.2 fun e he => ?_
    simpa using h e he
  rw [chkLnk, hnone]
  split_ifs <;> rfl

theorem comRd_spec {l : List HrdLnk} (h : ∀ e ∈ l, ¬ (e.ino = a.sb.ino ∧ e.dev = a.sb.dev))
    (hknown : a.sb.mode &&& cIfmt ∈ [cIsfifo, cIsdir, cIsblk, cIschr, cIslnk, cIsock, cIsreg]) :
    ∃ type skip, (comRd l a).1 = { a with type := type, skip := skip } := by
  rw [comRd]
  dsimp only
  split_ifs with h1 h2 h3 h4 h5 h6
  · exact ⟨_, _, chkLnk_unseen h⟩
  · exact ⟨_, _, chkLnk_unseen h⟩
  · exact ⟨_, _, chkLnk_unseen h⟩
  · exact ⟨_, _, chkLnk_unseen h⟩
  · exact ⟨_, _, chkLnk_unseen h⟩
  · exact ⟨_, _, chkLnk_unseen h⟩
  · have hreg : a.sb.mode &&& cIfmt = cIsreg := by
      simpa [h1, h2, h3, h4, h5, h6] using hknown
    rw [mode_eq hreg]
    exact ⟨_, _, chkLnk_unseen h⟩

theorem rdNm_spec (hnamed : a.Named) (hpos : 0 < a.nlen) (mem : Nat → Chr) (rest : List Chr) :
    ∃ mem', rdNm mem (a.nlen + 1) (slice a.name 0 (a.nlen + 1) ++ rest) = some (mem', rest) ∧
      slice mem' 0 a.nlen = a.path := by
  have hlen := hnamed.nlen
  have htake : (slice a.name 0 (a.nlen + 1) ++ rest).take (a.nlen + 1) = slice a.name 0 (a.nlen + 1) :=
    List.take_left' length_slice
  have hdrop : (slice a.name 0 (a.nlen + 1) ++ rest).drop (a.nlen + 1) = rest :=
    List.drop_left' length_slice
  let mem' := store mem 0 (slice a.name 0 (a.nlen + 1))
  have hall : slice mem' 0 (a.nlen + 1) = slice a.name 0 (a.nlen + 1) := by
    have hstore : slice mem' 0 (slice a.name 0 (a.nlen + 1)).length = slice a.name 0 (a.nlen + 1) :=
      slice_store
    rwa [length_slice] at hstore
  have hcell : ∀ i, i < a.nlen + 1 → mem' i = a.name i := by
    intro i hi
    simpa using eq_of_slice_eq hall hi
  have hfirst : a.name 0 ≠ 0 := fun hzero => hnamed.path (mem_slice.2 ⟨0, hpos, hzero⟩)
  have hlast : mem' (a.nlen + 1 - 1) = 0 := (hcell a.nlen (Nat.lt_succ_self _)).trans hnamed.ends
  have hzero : mem' 0 ≠ 0 := by
    rw [hcell 0 (Nat.succ_pos _)]
    exact hfirst
  refine ⟨mem', ?_, ?_⟩
  · rw [rdNm, if_neg, htake, hdrop]
    · exact if_neg (not_or.2 ⟨not_not_intro hlast, hzero⟩)
    · simp only [List.length_append, length_slice]
      omega
  · rw [← take_slice (Nat.le_succ a.nlen), hall, take_slice (Nat.le_succ a.nlen), Archd.path]

theorem rdLnNm_spec (hnamed : a.Named) (hpos : 0 < a.lnNlen) (mem : Nat → Chr) (rest : List Chr) :
    ∃ mem', rdLnNm mem a.lnNlen (slice a.lnName 0 a.lnNlen ++ rest) = some (mem', rest) ∧
      slice mem' 0 a.lnNlen = a.link := by
  have hlen := hnamed.lnNlen
  have htake : (slice a.lnName 0 a.lnNlen ++ rest).take a.lnNlen = slice a.lnName 0 a.lnNlen :=
    List.take_left' length_slice
  have hdrop : (slice a.lnName 0 a.lnNlen ++ rest).drop a.lnNlen = rest :=
    List.drop_left' length_slice
  let mem' := store (store mem 0 (slice a.lnName 0 a.lnNlen)) a.lnNlen [0]
  have hall : slice mem' 0 a.lnNlen = slice a.lnName 0 a.lnNlen := by
    have hstore : slice (store mem 0 (slice a.lnName 0 a.lnNlen)) 0
        (slice a.lnName 0 a.lnNlen).length = slice a.lnName 0 a.lnNlen := slice_store
    rw [length_slice] at hstore
    exact (slice_store_before (by omega)).trans hstore
  have hzero : mem' 0 ≠ 0 := by
    intro hzero
    refine hnamed.link ?_
    rw [Archd.link, ← hall]
    exact mem_slice.2 ⟨0, hpos, hzero⟩
  refine ⟨mem', ?_, hall⟩
  rw [rdLnNm, if_neg, htake, hdrop]
  · exact if_neg hzero
  · simp only [List.length_append, length_slice]
    omega

def CpioFormat.target (F : CpioFormat) (a : Archd) : List Chr :=
  if a.type = .slk then slice a.lnName 0 a.lnNlen ++ List.replicate (F.pad a.lnNlen) 0 else []

theorem wr_bytes {ret : Nat} {bytes : List Chr} {a' : Archd} (h : F.wr a = some (ret, bytes, a')) :
    ∃ hd, F.encode a.head = some hd ∧ a' = F.left a ∧
      bytes = hd ++ (slice a.name 0 (a.nlen + 1) ++
        (List.replicate (F.pad (F.hsz + (a.nlen + 1))) 0 ++ F.target a)) := by
  obtain ⟨hd, hhd, h⟩ := Option.bind_eq_some_iff.1 h
  refine ⟨hd, hhd, ?_⟩
  dsimp only at h
  split_ifs at h with hdata hslk
  · have hnot : a.type ≠ .slk := by
      intro hslk
      simp [Archd.hasFile, hslk] at hdata
    simp only [Option.some.injEq, Prod.mk.injEq] at h
    rw [CpioFormat.target, if_neg hnot, List.append_nil, ← List.append_assoc]
    exact ⟨h.2.2.symm, h.2.1.symm⟩
  · simp only [Option.some.injEq, Prod.mk.injEq] at h
    rw [CpioFormat.target, if_neg hslk, List.append_nil, ← List.append_assoc]
    exact ⟨h.2.2.symm, h.2.1.symm⟩
  · simp only [Option.some.injEq, Prod.mk.injEq] at h
    rw [CpioFormat.target, if_pos (not_not.1 hslk), ← h.2.1]
    exact ⟨h.2.2.symm, by simp only [List.append_assoc]⟩

theorem fileSize_slk (hnamed : a.Named) (hslk : a.type = .slk) : a.fileSize.toNat = a.lnNlen := by
  have hlen := hnamed.lnNlen
  rw [Archd.fileSize, hslk]
  refine UInt64.toNat_ofNat_of_lt' (Nat.lt_of_le_of_lt hlen (by decide))

theorem left_pad (hF : F.Lawful) (hslk : a.type ≠ .slk ∨ a.fileSize = 0) :
    F.pad a.fileSize.toNat = (F.left a).pad := by
  simp only [CpioFormat.left]
  split_ifs with hfile
  · have hsize : a.fileSize = a.sb.size := by
      simp only [Archd.hasFile, decide_eq_true_eq] at hfile
      rcases hfile with h | h | h <;> rw [Archd.fileSize, h]
    rw [hsize]
  · have hzero : a.fileSize = 0 := by
      rcases hslk with hslk | hzero
      · simp only [Archd.hasFile, decide_eq_true_eq, not_or] at hfile
        rw [Archd.fileSize]
        split <;> simp_all
      · exact hzero
    rw [hzero]
    exact hF.pad_zero

theorem CpioFormat.Lawful.roundtrip (hF : F.Lawful) {ret : Nat} {bytes : List Chr} {a' : Archd}
    (hnamed : a.Named) (hpos : 0 < a.nlen) (htyped : a.Typed)
    (hseen : ∀ e ∈ ltab, ¬ (e.ino = a.sb.ino ∧ e.dev = a.sb.dev))
    (hwr : F.wr a = some (ret, bytes, a')) (rest : List Chr) :
    ∃ r ltab', F.rd ltab old (bytes ++ rest) = some (r, ltab', rest) ∧ CpioSame a a' r := by
  obtain ⟨hd, hhd, rfl, rfl⟩ := wr_bytes hwr
  obtain ⟨crc, hdecode⟩ := hF.decode _ _ hhd
  have hlen := hF.length _ _ hhd
  rw [CpioFormat.rd, List.append_assoc, List.take_left' hlen, List.drop_left' hlen, hdecode]
  simp only [Option.bind_eq_bind, Option.bind_some, Archd.head]
  rw [if_neg (by omega), List.append_assoc]
  obtain ⟨name, hname, hpath⟩ := rdNm_spec hnamed hpos old.name
    (List.replicate (F.pad (F.hsz + (a.nlen + 1))) 0 ++ F.target a ++ rest)
  rw [hname, Option.bind_some]
  simp only [List.append_assoc, List.drop_left' (List.length_replicate ..), Nat.add_sub_cancel]
  split_ifs with hplain
  · -- no target to read
    have hslk : a.type ≠ .slk ∨ a.fileSize = 0 := hplain.imp_left fun h hs => h (htyped.link.2 hs)
    have htarget : F.target a = [] := by
      rw [CpioFormat.target]
      split_ifs with hs
      · have hzero := hslk.resolve_left (not_not_intro hs)
        have hln : a.lnNlen = 0 := by
          rw [← fileSize_slk hnamed hs, hzero]
          rfl
        rw [hln, hF.pad_zero]
        rfl
      · rfl
    have hlink : (if a.type = .slk then a.link else []) = [] := by
      split_ifs with hs
      · have hzero := hslk.resolve_left (not_not_intro hs)
        have hln : a.lnNlen = 0 := by
          rw [← fileSize_slk hnamed hs, hzero]
          rfl
        rw [Archd.link, hln, slice_zero]
      · rfl
    rw [htarget, List.nil_append]
    obtain ⟨type, skip, hcom⟩ := comRd_spec (l := ltab) (a := { old with
      nlen := a.nlen, name := name, pad := F.pad a.fileSize.toNat, crc := crc.getD old.crc, lnNlen := 0
      lnName := store old.lnName 0 [0]
      sb := ⟨a.sb.dev, a.sb.ino, a.sb.mode, a.sb.nlink, a.sb.uid, a.sb.gid, a.storedRdev, a.fileSize,
        a.sb.mtime⟩ }) hseen htyped.known
    refine ⟨_, _, rfl, ?_⟩
    rw [hcom]
    exact ⟨hpath, rfl, rfl, rfl, rfl, rfl, rfl, rfl, rfl, rfl, rfl, by rw [hlink]; rfl,
      left_pad hF hslk⟩
  · -- the target of a symbolic link
    rw [not_or, not_not] at hplain
    have hs := htyped.link.1 hplain.1
    have hsize := fileSize_slk hnamed hs
    have hlnpos : 0 < a.lnNlen := by
      refine Nat.pos_of_ne_zero fun hzero => hplain.2 ?_
      apply UInt64.toNat_inj.1
      rw [hsize, hzero]
      rfl
    obtain ⟨ln, hln, hlnk⟩ := rdLnNm_spec hnamed hlnpos old.lnName
      (List.replicate (F.pad a.lnNlen) 0 ++ rest)
    rw [CpioFormat.target, if_pos hs, List.append_assoc, hsize, hln]
    simp only [Option.bind_some, List.drop_left' (List.length_replicate ..)]
    obtain ⟨type, skip, hcom⟩ := comRd_spec (l := ltab) (a := { old with
      nlen := a.nlen, name := name, pad := 0, crc := crc.getD old.crc, lnNlen := a.lnNlen, lnName := ln
      sb := ⟨a.sb.dev, a.sb.ino, a.sb.mode, a.sb.nlink, a.sb.uid, a.sb.gid, a.storedRdev, a.fileSize,
        a.sb.mtime⟩ }) hseen htyped.known
    refine ⟨_, _, rfl, ?_⟩
    rw [hcom]
    have hnofile : a.hasFile = false := by simp [Archd.hasFile, hs]
    exact ⟨hpath, rfl, rfl, rfl, rfl, rfl, rfl, rfl, rfl, rfl, rfl, by rw [if_pos hs]; exact hlnk,
      by simp [CpioFormat.left, hnofile]⟩

end Bsdi.Pax
