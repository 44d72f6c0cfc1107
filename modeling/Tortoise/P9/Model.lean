import Tortoise.Lib.Cursor

/-!
# The 9P message codec

The functions of `lib/9pconv.c`: `sizeS2M`, `convS2M` and `convM2S` turn an `Fcall` into a message
and back, `sizeD2M`, `convD2M` and `convM2D` do so for a directory entry.

* a C string is the list of bytes its pointer points at; it ends before its first NUL (`text`);
* the encoders give the bytes they store from `buf` on, with their true number: `unsigned` sizes
  are words and wrap, the loops that store bytes do not;
* the decoders work on a memory, with pointers that wrap; `gstr` moves a string two bytes down over
  its own length and ends it with a NUL, and the `Fcall` they fill holds pointers, which
  `Fcall.read` follows in the memory the decoder leaves.
-/

namespace Tortoise.P9

open Lib.Cursor

abbrev Byte := BitVec 8
abbrev Word := BitVec 32

def maxwelem : Nat := 16

/-- The message types. -/
inductive MType where
  | tversion | rversion | tauth | rauth | tattach | rattach | rerror | tflush | rflush
  | twalk | rwalk | topen | ropen | tcreate | rcreate | tread | rread | twrite | rwrite
  | tclunk | rclunk | tremove | rremove | tstat | rstat | twstat | rwstat
  deriving DecidableEq, Repr

/-- The number of a message type. -/
def MType.code : MType → Byte
  | .tversion => 100 | .rversion => 101 | .tauth => 102 | .rauth => 103 | .tattach => 104
  | .rattach => 105 | .rerror => 107 | .tflush => 108 | .rflush => 109 | .twalk => 110
  | .rwalk => 111 | .topen => 112 | .ropen => 113 | .tcreate => 114 | .rcreate => 115
  | .tread => 116 | .rread => 117 | .twrite => 118 | .rwrite => 119 | .tclunk => 120
  | .rclunk => 121 | .tremove => 122 | .rremove => 123 | .tstat => 124 | .rstat => 125
  | .twstat => 126 | .rwstat => 127

/-- The case of the `switch (f->type)`; `none` is its default. -/
def MType.ofByte (b : Byte) : Option MType :=
  match b.toNat with
  | 100 => some .tversion | 101 => some .rversion | 102 => some .tauth | 103 => some .rauth
  | 104 => some .tattach | 105 => some .rattach | 107 => some .rerror | 108 => some .tflush
  | 109 => some .rflush | 110 => some .twalk | 111 => some .rwalk | 112 => some .topen
  | 113 => some .ropen | 114 => some .tcreate | 115 => some .rcreate | 116 => some .tread
  | 117 => some .rread | 118 => some .twrite | 119 => some .rwrite | 120 => some .tclunk
  | 121 => some .rclunk | 122 => some .tremove | 123 => some .rremove | 124 => some .tstat
  | 125 => some .rstat | 126 => some .twstat | 127 => some .rwstat
  | _ => none

structure Qid where
  type : Byte
  vers : Word
  path : Word
  pathhi : Word
  deriving DecidableEq, Repr, Inhabited

/-- `struct Fcall`, over what stands for a `char *` that is a string (`σ`) and for a pointer to
counted bytes (`δ`).  `wname` holds the first `nwname` entries of the array and `wqid` the first
`nwqid`. -/
structure Fcall (σ δ : Type) where
  type : Byte
  tag : BitVec 16
  fid : Word
  afid : Word
  newfid : Word
  msize : Word
  iounit : Word
  count : Word
  perm : Word
  oldtag : BitVec 16
  mode : Byte
  offset : Word
  offsethi : Word
  version : σ
  uname : σ
  aname : σ
  ename : σ
  name : σ
  wname : List σ
  wqid : List Qid
  qid : Qid
  nstat : Word
  stat : δ
  data : δ
  deriving Inhabited

/-- `struct Stat9`. -/
structure Stat9 (σ : Type) where
  type : BitVec 16
  dev : Word
  qid : Qid
  mode : Word
  atime : Word
  mtime : Word
  length : Word
  lengthhi : Word
  name : σ
  uid : σ
  gid : σ
  muid : σ
  deriving Inhabited

/-- A message with its strings and its data in hand. -/
abbrev FcallV := Fcall (List Byte) (Nat → Byte)

/-- A message whose strings and data are pointers. -/
abbrev FcallP := Fcall Word Word

/-! ## Storing -/

/-- A C string up to its NUL. -/
def text (s : List Byte) : List Byte := s.takeWhile (· ≠ 0)

def slen (s : List Byte) : Word := BitVec.ofNat 32 (text s).length

def p8 (v : Byte) : List Byte := [v]

def p16 (v : Word) : List Byte := [v.setWidth 8, (v >>> 8).setWidth 8]

def p32 (v : Word) : List Byte :=
  [v.setWidth 8, (v >>> 8).setWidth 8, (v >>> 16).setWidth 8, (v >>> 24).setWidth 8]

def pstr (s : List Byte) : List Byte := p16 (slen s) ++ text s

def pqid (q : Qid) : List Byte := p8 q.type ++ p32 q.vers ++ p32 q.path ++ p32 q.pathhi

/-- The first `n` bytes of counted data. -/
def blob (d : Nat → Byte) (n : Nat) : List Byte := (List.range n).map d

def sizeD2M (d : Stat9 (List Byte)) : Word :=
  2 + 2 + 4 + 13 + 4 + 4 + 4 + 8 + 8 + slen d.name + slen d.uid + slen d.gid + slen d.muid

/-- What `convD2M` stores after the size of the entry. -/
def putStat (d : Stat9 (List Byte)) : List Byte :=
  p16 (d.type.setWidth 32) ++ p32 d.dev ++ pqid d.qid ++ p32 d.mode ++ p32 d.atime ++ p32 d.mtime
    ++ p32 d.length ++ p32 d.lengthhi ++ pstr d.name ++ pstr d.uid ++ pstr d.gid ++ pstr d.muid

/-- `convD2M`: the value returned and the bytes stored from `buf` on. -/
def convD2M (d : Stat9 (List Byte)) (n : Word) : Word × List Byte :=
  let size := sizeD2M d
  if size > n then (0, []) else (size, p16 (size - 2) ++ putStat d)

/-- The part of a message's size that its type decides. -/
def sizeBody (t : MType) (f : FcallV) : Word :=
  match t with
  | .tversion | .rversion => 4 + 2 + slen f.version
  | .tauth => 4 + 2 + slen f.uname + 2 + slen f.aname
  | .rauth | .rattach => 13
  | .tattach => 4 + 4 + 2 + slen f.uname + 2 + slen f.aname
  | .rerror => 2 + slen f.ename
  | .tflush => 2
  | .twalk => f.wname.foldl (fun n s => n + (2 + slen s)) (4 + 4 + 2)
  | .rwalk => 2 + 13 * BitVec.ofNat 32 f.wqid.length
  | .topen => 4 + 1
  | .ropen | .rcreate => 13 + 4
  | .tcreate => 4 + 2 + slen f.name + 4 + 1
  | .tread => 4 + 8 + 4
  | .rread => 4 + f.count
  | .twrite => 4 + 8 + 4 + f.count
  | .rwrite => 4
  | .tclunk | .tremove | .tstat => 4
  | .rstat => 2 + f.nstat
  | .twstat => 4 + 2 + f.nstat
  | .rflush | .rclunk | .rremove | .rwstat => 0

def sizeS2M (f : FcallV) : Word :=
  match MType.ofByte f.type with
  | some t => 4 + 1 + 2 + sizeBody t f
  | none => 0

/-- The cases of the switch of `convS2M`. -/
def putBody (t : MType) (f : FcallV) : List Byte :=
  match t with
  | .tversion | .rversion => p32 f.msize ++ pstr f.version
  | .tauth => p32 f.afid ++ pstr f.uname ++ pstr f.aname
  | .rauth | .rattach => pqid f.qid
  | .tattach => p32 f.fid ++ p32 f.afid ++ pstr f.uname ++ pstr f.aname
  | .rerror => pstr f.ename
  | .tflush => p16 (f.oldtag.setWidth 32)
  | .twalk => p32 f.fid ++ p32 f.newfid ++ p16 (BitVec.ofNat 32 f.wname.length)
      ++ f.wname.flatMap pstr
  | .rwalk => p16 (BitVec.ofNat 32 f.wqid.length) ++ f.wqid.flatMap pqid
  | .topen => p32 f.fid ++ p8 f.mode
  | .ropen | .rcreate => pqid f.qid ++ p32 f.iounit
  | .tcreate => p32 f.fid ++ pstr f.name ++ p32 f.perm ++ p8 f.mode
  | .tread => p32 f.fid ++ p32 f.offset ++ p32 f.offsethi ++ p32 f.count
  | .rread => p32 f.count ++ blob f.data f.count.toNat
  | .twrite => p32 f.fid ++ p32 f.offset ++ p32 f.offsethi ++ p32 f.count
      ++ blob f.data f.count.toNat
  | .rwrite => p32 f.count
  | .tclunk | .tremove | .tstat => p32 f.fid
  | .rstat => p16 f.nstat ++ blob f.stat f.nstat.toNat
  | .twstat => p32 f.fid ++ p16 f.nstat ++ blob f.stat f.nstat.toNat
  | .rflush | .rclunk | .rremove | .rwstat => []

/-- `convS2M`: the value returned and the bytes stored from `buf` on.  A type outside the switch
has size 0, so nothing is stored for it. -/
def convS2M (f : FcallV) (n : Word) : Word × List Byte :=
  let size := sizeS2M f
  if size = 0 ∨ size > n then (0, [])
  else
    match MType.ofByte f.type with
    | some t => (size, p32 size ++ p8 f.type ++ p16 (f.tag.setWidth 32) ++ putBody t f)
    | none => (0, [])

/-! ## Reading -/

/-- The byte `o` of what was read. -/
def g8 (b : List Byte) (o : Nat) : Byte := b.getD o 0

def g16 (b : List Byte) (o : Nat) : Word :=
  (g8 b o).setWidth 32 ||| (g8 b (o + 1)).setWidth 32 <<< 8

def g32 (b : List Byte) (o : Nat) : Word :=
  (g8 b o).setWidth 32 ||| (g8 b (o + 1)).setWidth 32 <<< 8 ||| (g8 b (o + 2)).setWidth 32 <<< 16
    ||| (g8 b (o + 3)).setWidth 32 <<< 24

/-- `if (!gn(p, end, k)) return 0;`, the `k` bytes the caller then reads at `p`, and its
`p += k`. -/
def gn (e : Word) (k : Nat) : Decoder (List Byte) := fun (m, p) =>
  if p = 0 ∨ p + BitVec.ofNat 32 k > e then none
  else some (window m p k, m, p + BitVec.ofNat 32 k)

/-- `if (!gn(p, end, k)) return 0;` for `k` bytes of data: the caller keeps the pointer to them and
steps over them. -/
def gdata (e : Word) (k : Word) : Decoder Word := fun (m, p) =>
  if p = 0 ∨ p + k > e then none else some (p, m, p + k)

/-- The loop of `gstr`: each of the `n` bytes moves two places down. -/
def moveDown (p : Word) (n : Nat) (m : Mem) : Mem :=
  (List.range n).foldl (fun m i =>
    Function.update m (p + BitVec.ofNat 32 i) (m (p + BitVec.ofNat 32 (i + 2)))) m

def gstr (e : Word) : Decoder Word := fun (m, p) =>
  if p = 0 ∨ p + 2 > e then none
  else
    let n := g16 (window m p 2) 0
    if p + 2 + n > e then none
    else some (p, Function.update (moveDown p n.toNat m) (p + n) 0, p + 2 + n)

/-- The qid in 13 bytes. -/
def getQid (b : List Byte) (o : Nat) : Qid :=
  { type := g8 b o, vers := g32 b (o + 1), path := g32 b (o + 5), pathhi := g32 b (o + 9) }

def gqid (e : Word) : Decoder Qid := do
  let b ← gn e 13
  pure (getQid b 0)

/-- The cases of the switch of `convM2S`; `failure` is its `return 0`. -/
def getBody (e : Word) (t : MType) (f : FcallP) : Decoder FcallP :=
  match t with
  | .tversion | .rversion => do
    let b ← gn e 4
    let version ← gstr e
    pure { f with msize := g32 b 0, version := version }
  | .tauth => do
    let b ← gn e 4
    let uname ← gstr e
    let aname ← gstr e
    pure { f with afid := g32 b 0, uname := uname, aname := aname }
  | .rauth | .rattach => do
    let qid ← gqid e
    pure { f with qid := qid }
  | .tattach => do
    let b ← gn e 8
    let uname ← gstr e
    let aname ← gstr e
    pure { f with fid := g32 b 0, afid := g32 b 4, uname := uname, aname := aname }
  | .rerror => do
    let ename ← gstr e
    pure { f with ename := ename }
  | .tflush => do
    let b ← gn e 2
    pure { f with oldtag := (g16 b 0).setWidth 16 }
  | .twalk => do
    let b ← gn e 10
    if (g16 b 8).toNat > maxwelem then failure
    else
      let wname ← times (gstr e) (g16 b 8).toNat
      pure { f with fid := g32 b 0, newfid := g32 b 4, wname := wname }
  | .rwalk => do
    let b ← gn e 2
    if (g16 b 0).toNat > maxwelem then failure
    else
      let wqid ← times (gqid e) (g16 b 0).toNat
      pure { f with wqid := wqid }
  | .topen => do
    let b ← gn e 5
    pure { f with fid := g32 b 0, mode := g8 b 4 }
  | .ropen | .rcreate => do
    let qid ← gqid e
    let b ← gn e 4
    pure { f with qid := qid, iounit := g32 b 0 }
  | .tcreate => do
    let b ← gn e 4
    let name ← gstr e
    let c ← gn e 5
    pure { f with fid := g32 b 0, name := name, perm := g32 c 0, mode := g8 c 4 }
  | .tread => do
    let b ← gn e 16
    pure { f with fid := g32 b 0, offset := g32 b 4, offsethi := g32 b 8, count := g32 b 12 }
  | .rread => do
    let b ← gn e 4
    let data ← gdata e (g32 b 0)
    pure { f with count := g32 b 0, data := data }
  | .twrite => do
    let b ← gn e 16
    let data ← gdata e (g32 b 12)
    pure { f with
      fid := g32 b 0, offset := g32 b 4, offsethi := g32 b 8, count := g32 b 12, data := data }
  | .rwrite => do
    let b ← gn e 4
    pure { f with count := g32 b 0 }
  | .tclunk | .tremove | .tstat => do
    let b ← gn e 4
    pure { f with fid := g32 b 0 }
  | .rstat => do
    let b ← gn e 2
    let stat ← gdata e (g16 b 0)
    pure { f with nstat := g16 b 0, stat := stat }
  | .twstat => do
    let b ← gn e 6
    let stat ← gdata e (g16 b 4)
    pure { f with fid := g32 b 0, nstat := g16 b 4, stat := stat }
  | .rflush | .rclunk | .rremove | .rwstat => pure f

/-- `convM2S` on the `n` bytes at `buf`: the size returned, the message and the memory left;
`none` is its return value 0. -/
def convM2S (m : Mem) (buf n : Word) (f : FcallP) : Option (Word × FcallP × Mem) :=
  if n < 7 then none
  else
    let b := window m buf 7
    let size := g32 b 0
    if size < 7 ∨ size > n then none
    else
      let e := buf + size
      match MType.ofByte (g8 b 4) with
      | none => none
      | some t =>
        match getBody e t { f with type := g8 b 4, tag := (g16 b 5).setWidth 16 } (m, buf + 7) with
        | none => none
        | some (f', m', p) => if p = 0 ∨ p ≠ e then none else some (size, f', m')

/-- The fixed fields of an entry: `gn(p, end, 39)`, and `gqid(p + 6, end, &d->qid)`, whose own
check leaves the old qid where it fails. -/
def getStatHead (e : Word) (old : Qid) : Decoder (List Byte × Qid) := do
  let s ← get
  let b ← gn e 39
  pure (b, if s.2 + 6 = 0 ∨ s.2 + 6 + 13 > e then old else getQid b 6)

/-- What `convM2D` reads after the size of the entry. -/
def getStat (e : Word) (d : Stat9 Word) : Decoder (Stat9 Word) := do
  let b ← getStatHead e d.qid
  let name ← gstr e
  let uid ← gstr e
  let gid ← gstr e
  let muid ← gstr e
  pure {
    type := (g16 b.1 0).setWidth 16, dev := g32 b.1 2, qid := b.2, mode := g32 b.1 19
    atime := g32 b.1 23, mtime := g32 b.1 27, length := g32 b.1 31, lengthhi := g32 b.1 35
    name := name, uid := uid, gid := gid, muid := muid }

/-- `convM2D`: the size returned, the entry and the memory left.  Bytes after the last string are
not looked at. -/
def convM2D (m : Mem) (buf n : Word) (d : Stat9 Word) : Option (Word × Stat9 Word × Mem) :=
  if n < 2 then none
  else
    let size := g16 (window m buf 2) 0 + 2
    if size > n then none
    else
      match getStat (buf + size) d (m, buf + 2) with
      | none => none
      | some (d', m', p) => if p = 0 then none else some (size, d', m')

/-! ## Following pointers -/

/-- The string at a pointer: its bytes up to the NUL, of which there is one within the first
`n + 1` bytes. -/
def cstr (m : Mem) (p : Word) : Nat → List Byte
  | 0 => []
  | n + 1 => if m p = 0 then [] else m p :: cstr m (p + 1) n

/-- The strings a decoder leaves are shorter than `2 ^ 16` bytes. -/
def readStr (m : Mem) (p : Word) : List Byte := cstr m p 65536

/-- The message a caller of `convM2S` sees. -/
def Fcall.read (m : Mem) (f : FcallP) : FcallV :=
  { f with
    version := readStr m f.version, uname := readStr m f.uname, aname := readStr m f.aname
    ename := readStr m f.ename, name := readStr m f.name, wname := f.wname.map (readStr m)
    stat := fun i => m (f.stat + BitVec.ofNat 32 i)
    data := fun i => m (f.data + BitVec.ofNat 32 i) }

/-- The entry a caller of `convM2D` sees. -/
def Stat9.read (m : Mem) (d : Stat9 Word) : Stat9 (List Byte) :=
  { d with
    name := readStr m d.name, uid := readStr m d.uid, gid := readStr m d.gid
    muid := readStr m d.muid }

end Tortoise.P9
