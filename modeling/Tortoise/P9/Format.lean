import Mathlib.Tactic.IntervalCases
import Tortoise.P9.Model

/-!
# The 9P message format

What a message is on the wire, without buffers, pointers or C strings: a body of one of nineteen
shapes, its fields in little-endian order, each string and each block of data counted.

* `Body`: the fields a message type has, indexed by the shape of the type;
* `Body.print`: the bytes of a body; `Body.Fits`: its counts fit their fields;
* `parse`: the parser of a shape; `parse_iff`: it reads exactly the bodies that fit.
-/

namespace Tortoise.P9

open Lib.Cursor List
open BitVec hiding and_comm and_assoc

variable {l r : List Byte} {k n o : Nat}

/-! ## Bytes of words -/

@[simp] theorem g8_drop (l : List Byte) (k o : Nat) : g8 (l.drop k) o = g8 l (k + o) := by
  simp [g8, getD_eq_getElem?_getD]

theorem g8_take (h : o < k) : g8 (l.take k) o = g8 l o := by
  simp [g8, getD_eq_getElem?_getD, List.getElem?_take_of_lt h]

@[simp] theorem g16_drop (l : List Byte) (k o : Nat) : g16 (l.drop k) o = g16 l (k + o) := by
  simp [g16, Nat.add_assoc]

@[simp] theorem g32_drop (l : List Byte) (k o : Nat) : g32 (l.drop k) o = g32 l (k + o) := by
  simp [g32, Nat.add_assoc]

theorem g16_take (h : o + 2 ≤ k) : g16 (l.take k) o = g16 l o := by
  simp (disch := omega) only [g16, g8_take]

theorem g32_take (h : o + 4 ≤ k) : g32 (l.take k) o = g32 l o := by
  simp (disch := omega) only [g32, g8_take]

@[simp] theorem length_p8 (v : Byte) : (p8 v).length = 1 := rfl

@[simp] theorem length_p16 (v : Word) : (p16 v).length = 2 := rfl

@[simp] theorem length_p32 (v : Word) : (p32 v).length = 4 := rfl

@[simp] theorem length_pqid (q : Qid) : (pqid q).length = 13 := rfl

theorem g16_lt (l : List Byte) (o : Nat) : (g16 l o).toNat < 65536 := by
  have h : g16 l o &&& 0xFFFF = g16 l o := by
    ext i hi
    simp only [g16, getElem_and, getElem_or, getElem_shiftLeft,
      getElem_setWidth]
    interval_cases i <;> simp
  rw [← h, toNat_and]
  exact lt_of_le_of_lt Nat.and_le_right (by decide)

theorem g32_p32 (v : Word) (r : List Byte) : g32 (p32 v ++ r) 0 = v := by
  ext i hi
  simp only [g32, g8, p32, List.cons_append, getD_cons_zero, getD_cons_succ,
    getElem_or, getElem_shiftLeft, getElem_setWidth, Nat.zero_add]
  interval_cases i <;> simp

theorem g16_p16 {v : Word} (h : v.toNat < 65536) (r : List Byte) : g16 (p16 v ++ r) 0 = v := by
  have hv : v &&& 0xFFFF = v := by
    apply eq_of_toNat_eq
    rw [toNat_and]
    exact Nat.and_two_pow_sub_one_of_lt_two_pow (n := 16) h
  rw [← hv]
  ext i hi
  simp only [g16, g8, p16, List.cons_append, getD_cons_zero, getD_cons_succ,
    getElem_or, getElem_shiftLeft, getElem_setWidth, Nat.zero_add]
  interval_cases i <;> simp

theorem p32_g32 (h : 4 ≤ l.length) : p32 (g32 l 0) ++ l.drop 4 = l := by
  match l, h with
  | a :: b :: c :: d :: r, _ =>
    simp only [p32, g32, g8, getD_cons_zero, getD_cons_succ, List.cons_append,
      nil_append, drop_succ_cons, drop_zero, Nat.zero_add, List.cons.injEq, and_true]
    refine ⟨?_, ?_, ?_, ?_⟩ <;>
    · ext i hi
      interval_cases i <;> simp

theorem p16_g16 (h : 2 ≤ l.length) : p16 (g16 l 0) ++ l.drop 2 = l := by
  match l, h with
  | a :: b :: r, _ =>
    simp only [p16, g16, g8, getD_cons_zero, getD_cons_succ, List.cons_append,
      nil_append, drop_succ_cons, drop_zero, Nat.zero_add, List.cons.injEq, and_true]
    refine ⟨?_, ?_⟩ <;>
    · ext i hi
      interval_cases i <;> simp

theorem setWidth_setWidth_of_lt {v : Word} (h : v.toNat < 65536) :
    (v.setWidth 16).setWidth 32 = v := by
  apply eq_of_toNat_eq
  simp only [toNat_setWidth]
  omega

/-! ## Parsers of single fields -/

/-- One byte. -/
def byte : Parser Byte := fun l => if l.length < 1 then none else some (g8 l 0, l.drop 1)

/-- A 16-bit number, as the `unsigned` it becomes. -/
def half : Parser Word := fun l => if l.length < 2 then none else some (g16 l 0, l.drop 2)

/-- Four bytes. -/
def word : Parser Word := fun l => if l.length < 4 then none else some (g32 l 0, l.drop 4)

/-- Thirteen bytes. -/
def qid : Parser Qid := fun l => if l.length < 13 then none else some (getQid l 0, l.drop 13)

/-- The next `k` bytes. -/
def take (k : Nat) : Parser (List Byte) := fun l =>
  if l.length < k then none else some (l.take k, l.drop k)

/-- A string: its length in 16 bits, then its bytes. -/
def counted : Parser (List Byte) := do
  let n ← half
  take n.toNat

/-- A counted string on the wire; it may hold NULs. -/
def str (s : List Byte) : List Byte := p16 (BitVec.ofNat 32 s.length) ++ s

theorem fixed_byte : Fixed byte 1 (g8 · 0) where
  eq _ := rfl
  take l := g8_take (by omega)

theorem fixed_half : Fixed half 2 (g16 · 0) where
  eq _ := rfl
  take l := g16_take (by omega)

theorem fixed_word : Fixed word 4 (g32 · 0) where
  eq _ := rfl
  take l := g32_take (by omega)

theorem fixed_qid : Fixed qid 13 (getQid · 0) where
  eq _ := rfl
  take l := by simp (disch := omega) only [getQid, g8_take, g32_take]

theorem byte_eq_some {x : Byte} : byte l = some (x, r) ↔ l = p8 x ++ r := by
  cases l with
  | nil => simp [byte, p8]
  | cons a l => simp [byte, p8, g8]

theorem word_eq_some {x : Word} : word l = some (x, r) ↔ l = p32 x ++ r := by
  unfold word
  constructor
  · intro h
    split at h
    · cases h
    · cases h
      exact (p32_g32 (by omega)).symm
  · rintro rfl
    rw [if_neg (by simp), g32_p32]
    rfl

theorem half_eq_some {x : Word} : half l = some (x, r) ↔ x.toNat < 65536 ∧ l = p16 x ++ r := by
  unfold half
  constructor
  · intro h
    split at h
    · cases h
    · cases h
      exact ⟨g16_lt l 0, (p16_g16 (by omega)).symm⟩
  · rintro ⟨hx, rfl⟩
    have hlen : ¬ (p16 x ++ r).length < 2 := by
      have : (p16 x).length = 2 := rfl
      rw [length_append]
      omega
    rw [if_neg hlen, g16_p16 hx]
    rfl

theorem take_eq_some {b : List Byte} : take k l = some (b, r) ↔ b.length = k ∧ l = b ++ r := by
  unfold take
  constructor
  · intro h
    split at h
    · cases h
    · cases h
      exact ⟨by rw [length_take]; omega, (take_append_drop k l).symm⟩
  · rintro ⟨rfl, rfl⟩
    simp

theorem counted_eq_some {s : List Byte} :
    counted l = some (s, r) ↔ s.length < 65536 ∧ l = str s ++ r := by
  unfold counted
  constructor
  · intro h
    obtain ⟨n, l', hn, hs⟩ := bind_eq_some.mp h
    obtain ⟨hlt, rfl⟩ := half_eq_some.mp hn
    obtain ⟨hlen, rfl⟩ := take_eq_some.mp hs
    refine ⟨hlen ▸ hlt, ?_⟩
    rw [str, hlen, ofNat_toNat, setWidth_eq, List.append_assoc]
  · rintro ⟨hlt, rfl⟩
    have hn : (BitVec.ofNat 32 s.length).toNat = s.length := by
      rw [toNat_ofNat]
      omega
    refine bind_eq_some.mpr ⟨BitVec.ofNat 32 s.length, s ++ r, half_eq_some.mpr ⟨by omega, ?_⟩,
      take_eq_some.mpr ⟨hn.symm, rfl⟩⟩
    rw [str, List.append_assoc]

theorem qid_eq (l : List Byte) :
    qid l = (pair byte (pair word (pair word word)) l).map fun x =>
      ({ type := x.1.1, vers := x.1.2.1, path := x.1.2.2.1, pathhi := x.1.2.2.2 }, x.2) := by
  have h := fixed_byte.pair (fixed_word.pair (fixed_word.pair fixed_word))
  rw [h.eq]
  unfold qid
  split
  · rfl
  · simp only [Option.map_some, g32_drop, drop_drop]
    rfl

theorem qid_eq_some {q : Qid} : qid l = some (q, r) ↔ l = pqid q ++ r := by
  rw [qid_eq, Option.map_eq_some_iff]
  simp only [Prod.exists, pair_eq_some, byte_eq_some, word_eq_some, Prod.mk.injEq]
  constructor
  · rintro ⟨a, b, c, d, _, ⟨_, rfl, _, rfl, _, rfl, rfl⟩, rfl, rfl⟩
    simp [pqid]
  · rintro rfl
    exact ⟨q.type, q.vers, q.path, q.pathhi, r, ⟨_, by simp [pqid], _, rfl, _, rfl, rfl⟩,
      rfl, rfl⟩

theorem times_counted_eq_some {names : List (List Byte)} :
    times counted n l = some (names, r) ↔
      (names.length = n ∧ ∀ x ∈ names, x.length < 65536) ∧ l = names.flatMap str ++ r :=
  times_eq_some fun _ _ _ => counted_eq_some

theorem times_qid_eq_some {qs : List Qid} :
    times qid n l = some (qs, r) ↔ qs.length = n ∧ l = qs.flatMap pqid ++ r := by
  have h : ∀ l q r, qid l = some (q, r) ↔ True ∧ l = pqid q ++ r := fun _ _ _ => by
    rw [qid_eq_some, true_and]
  rw [times_eq_some h]
  simp

/-! ## Message bodies -/

/-- The layouts of messages; the types that share a case of the source's switches share one. -/
inductive Shape where
  | version | auth | qid | attach | error | flush | walk | qids | topen | opened | create
  | read | data | write | count | fid | stat | wstat | bare
  deriving DecidableEq, Repr

/-- The fields that a message of a type has. -/
def MType.shape : MType → Shape
  | .tversion | .rversion => .version
  | .tauth => .auth
  | .rauth | .rattach => .qid
  | .tattach => .attach
  | .rerror => .error
  | .tflush => .flush
  | .twalk => .walk
  | .rwalk => .qids
  | .topen => .topen
  | .ropen | .rcreate => .opened
  | .tcreate => .create
  | .tread => .read
  | .rread => .data
  | .twrite => .write
  | .rwrite => .count
  | .tclunk | .tremove | .tstat => .fid
  | .rstat => .stat
  | .twstat => .wstat
  | .rflush | .rclunk | .rremove | .rwstat => .bare

/-- The fields of a message. -/
inductive Body : Shape → Type where
  | version (msize : Word) (version : List Byte) : Body .version
  | auth (afid : Word) (uname aname : List Byte) : Body .auth
  | qid (qid : Qid) : Body .qid
  | attach (fid afid : Word) (uname aname : List Byte) : Body .attach
  | error (ename : List Byte) : Body .error
  | flush (oldtag : BitVec 16) : Body .flush
  | walk (fid newfid : Word) (wname : List (List Byte)) : Body .walk
  | qids (wqid : List Qid) : Body .qids
  | topen (fid : Word) (mode : Byte) : Body .topen
  | opened (qid : Qid) (iounit : Word) : Body .opened
  | create (fid : Word) (name : List Byte) (perm : Word) (mode : Byte) : Body .create
  | read (fid offset offsethi count : Word) : Body .read
  | data (data : List Byte) : Body .data
  | write (fid offset offsethi : Word) (data : List Byte) : Body .write
  | count (count : Word) : Body .count
  | fid (fid : Word) : Body .fid
  | stat (stat : List Byte) : Body .stat
  | wstat (fid : Word) (stat : List Byte) : Body .wstat
  | bare : Body .bare
  deriving DecidableEq

/-- The bytes of a body. -/
def Body.print : Body s → List Byte
  | .version msize v => p32 msize ++ str v
  | .auth afid uname aname => p32 afid ++ str uname ++ str aname
  | .qid q => pqid q
  | .attach i afid uname aname => p32 i ++ p32 afid ++ str uname ++ str aname
  | .error ename => str ename
  | .flush oldtag => p16 (oldtag.setWidth 32)
  | .walk i newfid wname =>
    p32 i ++ p32 newfid ++ p16 (BitVec.ofNat 32 wname.length) ++ wname.flatMap str
  | .qids wqid => p16 (BitVec.ofNat 32 wqid.length) ++ wqid.flatMap pqid
  | .topen i mode => p32 i ++ p8 mode
  | .opened q iounit => pqid q ++ p32 iounit
  | .create i name perm mode => p32 i ++ str name ++ p32 perm ++ p8 mode
  | .read i offset offsethi c => p32 i ++ p32 offset ++ p32 offsethi ++ p32 c
  | .data d => p32 (BitVec.ofNat 32 d.length) ++ d
  | .write i offset offsethi d =>
    p32 i ++ p32 offset ++ p32 offsethi ++ p32 (BitVec.ofNat 32 d.length) ++ d
  | .count c => p32 c
  | .fid i => p32 i
  | .stat d => p16 (BitVec.ofNat 32 d.length) ++ d
  | .wstat i d => p32 i ++ p16 (BitVec.ofNat 32 d.length) ++ d
  | .bare => []

/-- The strings of a body. -/
def Body.strings : Body s → List (List Byte)
  | .version _ v => [v]
  | .auth _ uname aname | .attach _ _ uname aname => [uname, aname]
  | .error ename => [ename]
  | .walk _ _ wname => wname
  | .create _ name _ _ => [name]
  | _ => []

/-- The number of names or qids of a body. -/
def Body.elems : Body s → Nat
  | .walk _ _ wname => wname.length
  | .qids wqid => wqid.length
  | _ => 0

/-- The blocks of data fit their counts. -/
def Body.DataFits : Body s → Prop
  | .data d | .write _ _ _ d => d.length < 2 ^ 32
  | .stat d | .wstat _ d => d.length < 65536
  | _ => True

/-- Every count of the body fits the field it is stored in. -/
structure Body.Fits (b : Body s) : Prop where
  strings : ∀ x ∈ b.strings, x.length < 65536
  elems : b.elems ≤ maxwelem
  data : b.DataFits

/-- The fields of `f` that a message of type `t` has. -/
def bodyOf (t : MType) (f : FcallV) : Body t.shape :=
  match t with
  | .tversion | .rversion => .version f.msize f.version
  | .tauth => .auth f.afid f.uname f.aname
  | .rauth | .rattach => .qid f.qid
  | .tattach => .attach f.fid f.afid f.uname f.aname
  | .rerror => .error f.ename
  | .tflush => .flush f.oldtag
  | .twalk => .walk f.fid f.newfid f.wname
  | .rwalk => .qids f.wqid
  | .topen => .topen f.fid f.mode
  | .ropen | .rcreate => .opened f.qid f.iounit
  | .tcreate => .create f.fid f.name f.perm f.mode
  | .tread => .read f.fid f.offset f.offsethi f.count
  | .rread => .data (blob f.data f.count.toNat)
  | .twrite => .write f.fid f.offset f.offsethi (blob f.data f.count.toNat)
  | .rwrite => .count f.count
  | .tclunk | .tremove | .tstat => .fid f.fid
  | .rstat => .stat (blob f.stat f.nstat.toNat)
  | .twstat => .wstat f.fid (blob f.stat f.nstat.toNat)
  | .rflush | .rclunk | .rremove | .rwstat => .bare

/-- The body with its strings cut at their first NUL, as C sees them. -/
def Body.cut : Body s → Body s
  | .version msize v => .version msize (text v)
  | .auth afid uname aname => .auth afid (text uname) (text aname)
  | .attach i afid uname aname => .attach i afid (text uname) (text aname)
  | .error ename => .error (text ename)
  | .walk i newfid wname => .walk i newfid (wname.map text)
  | .create i name perm mode => .create i (text name) perm mode
  | b => b

/-! ## The parser of a body -/

/-- The parser of a shape; a walk of more than `MAXWELEM` elements is none. -/
def parse : (s : Shape) → Parser (Body s)
  | .version => do
    let msize ← word
    let version ← counted
    pure (.version msize version)
  | .auth => do
    let afid ← word
    let uname ← counted
    let aname ← counted
    pure (.auth afid uname aname)
  | .qid => do
    let q ← qid
    pure (.qid q)
  | .attach => do
    let x ← pair word word
    let uname ← counted
    let aname ← counted
    pure (.attach x.1 x.2 uname aname)
  | .error => do
    let ename ← counted
    pure (.error ename)
  | .flush => do
    let oldtag ← half
    pure (.flush (oldtag.setWidth 16))
  | .walk => do
    let x ← pair word (pair word half)
    if x.2.2.toNat > maxwelem then failure
    else
      let wname ← times counted x.2.2.toNat
      pure (.walk x.1 x.2.1 wname)
  | .qids => do
    let n ← half
    if n.toNat > maxwelem then failure
    else
      let wqid ← times qid n.toNat
      pure (.qids wqid)
  | .topen => do
    let x ← pair word byte
    pure (.topen x.1 x.2)
  | .opened => do
    let q ← qid
    let iounit ← word
    pure (.opened q iounit)
  | .create => do
    let fid ← word
    let name ← counted
    let x ← pair word byte
    pure (.create fid name x.1 x.2)
  | .read => do
    let x ← pair word (pair word (pair word word))
    pure (.read x.1 x.2.1 x.2.2.1 x.2.2.2)
  | .data => do
    let n ← word
    let data ← take n.toNat
    pure (.data data)
  | .write => do
    let x ← pair word (pair word (pair word word))
    let data ← take x.2.2.2.toNat
    pure (.write x.1 x.2.1 x.2.2.1 data)
  | .count => do
    let count ← word
    pure (.count count)
  | .fid => do
    let fid ← word
    pure (.fid fid)
  | .stat => do
    let n ← half
    let stat ← take n.toNat
    pure (.stat stat)
  | .wstat => do
    let x ← pair word half
    let stat ← take x.2.toNat
    pure (.wstat x.1 stat)
  | .bare => pure .bare

theorem toNat_ofNat_of_lt (h : n < 2 ^ 32) : (BitVec.ofNat 32 n).toNat = n := by
  rw [toNat_ofNat]
  omega

/-- A 16-bit count on the wire is the number it counts. -/
theorem exists_half {P : Word → Prop} :
    (∃ n : Word, (n.toNat < 65536 ∧ P n) ∧ k = n.toNat) ↔ k < 65536 ∧ P (BitVec.ofNat 32 k) := by
  constructor
  · rintro ⟨n, ⟨hn, h⟩, rfl⟩
    rw [ofNat_toNat, setWidth_eq]
    exact ⟨hn, h⟩
  · rintro ⟨hk, h⟩
    have hn := toNat_ofNat_of_lt (n := k) (by omega)
    exact ⟨_, ⟨by omega, h⟩, hn.symm⟩

theorem exists_elems {P : Word → Prop} :
    (∃ n : Word, (n.toNat < 65536 ∧ P n) ∧ n.toNat ≤ maxwelem ∧ k = n.toNat) ↔
      k ≤ maxwelem ∧ P (BitVec.ofNat 32 k) := by
  have hmax : maxwelem < 65536 := by decide
  constructor
  · rintro ⟨n, h, hle, hk⟩
    exact ⟨hk ▸ hle, (exists_half.mp ⟨n, h, hk⟩).2⟩
  · rintro ⟨hk, h⟩
    obtain ⟨n, h', hn⟩ := exists_half.mpr ⟨hk.trans_lt hmax, h⟩
    exact ⟨n, h', hn ▸ hk, hn⟩

theorem exists_word {P : Word → Prop} :
    (∃ n : Word, P n ∧ k = n.toNat) ↔ k < 2 ^ 32 ∧ P (BitVec.ofNat 32 k) := by
  constructor
  · rintro ⟨n, h, rfl⟩
    rw [ofNat_toNat, setWidth_eq]
    exact ⟨n.isLt, h⟩
  · rintro ⟨hk, h⟩
    exact ⟨_, h, (toNat_ofNat_of_lt hk).symm⟩

theorem fits_iff {s : Shape} {b : Body s} :
    b.Fits ↔ (∀ x ∈ b.strings, x.length < 65536) ∧ b.elems ≤ maxwelem ∧ b.DataFits :=
  ⟨fun h => ⟨h.strings, h.elems, h.data⟩, fun ⟨hs, he, hd⟩ => ⟨hs, he, hd⟩⟩

section

attribute [local simp] bind_eq_some map_eq_some ite_failure_eq_some pure_eq_some pair_eq_some byte_eq_some
  half_eq_some word_eq_some counted_eq_some take_eq_some qid_eq_some times_counted_eq_some
  times_qid_eq_some fits_iff Body.strings Body.elems Body.DataFits Body.print

/-- **The parser** accepts what is printed of a body that fits, and nothing else. -/
theorem parse_iff {s : Shape} {b : Body s} :
    parse s l = some (b, r) ↔ b.Fits ∧ l = b.print ++ r := by
  cases b with
  | version msize v => simp [parse, and_comm]
  | auth afid u v => simp [parse, and_comm]
  | qid q => simp [parse]
  | attach i afid u v => simp [parse, and_comm]
  | error v => simp [parse]
  | flush t =>
    simp only [parse, bind_pure_comp, map_eq_some, half_eq_some, Body.flush.injEq]
    constructor
    · rintro ⟨a, ⟨ha, rfl⟩, rfl⟩
      simp [setWidth_setWidth_of_lt ha]
    · rintro ⟨-, rfl⟩
      refine ⟨t.setWidth 32, ⟨?_, rfl⟩, ?_⟩
      · have := t.isLt
        rw [toNat_setWidth]
        omega
      · rw [setWidth_setWidth_of_le _ (by decide), setWidth_eq]
  | walk i newfid names =>
    have hn := @exists_elems names.length fun n => (∀ x ∈ names, x.length < 65536) ∧
      l = p32 i ++ (p32 newfid ++ (p16 n ++ (names.flatMap str ++ r)))
    simpa [parse, and_comm, and_left_comm, and_assoc] using hn
  | qids qs => simpa [parse] using exists_elems
  | topen i mode => simp [parse]
  | opened q iounit => simp [parse]
  | create i v perm mode => simp [parse, and_comm]
  | read i offset offsethi c => simp [parse]
  | data d => simpa [parse] using exists_word
  | write i offset offsethi d => simpa [parse] using exists_word
  | count c => simp [parse]
  | fid i => simp [parse]
  | stat d => simpa [parse] using exists_half
  | wstat i d =>
    have hn := @exists_half d.length fun n => l = p32 i ++ (p16 n ++ (d ++ r))
    simpa [parse, and_comm] using hn
  | bare => simp [parse]

end

end Tortoise.P9
