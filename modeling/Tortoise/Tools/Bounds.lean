import Tortoise.Lib.Fallible
import Tortoise.Tools.Linked

/-!
# Objects the linker cannot trust

`read_obj` takes the sizes of an object's tables from its header and multiplies and adds them in
32 bits.  Here the object is kept with those words (`Raw`), the memory behind a buffer is whatever
it is (`behind`), and every access is asked for:

* `Raw.Allocated`: the buffers cover what is read into them and every index used later, and every
  name ends inside its string table;
* `InImage`: the sections are copied into the image, and a relocation changes bytes of its own
  section only.

Both hold exactly for the objects whose numbers do not wrap (`Raw.Counted`, `Raw.Fielded`), which
is the headline `tlink_in_bounds`.  `read_obj` does not make sure of that: the end of a field is
computed in 32 bits, so a field at `0xFFFFFFFE` passes for one that ends at 2
(`wrapped_field_accepted`).
-/

namespace Tortoise.Tools

open Lib BitVec List

variable {b behind : List Byte} {k : Nat} {path : String}

/-! ## Reading -/

/-- How often `for (i = 0; i < n; i++)` runs, for an `int` `n`. -/
def rounds (n : Word) : Nat := n.toInt.toNat

/-- How many bytes `xmalloc` gives. -/
def xmalloc (n : Word) : Nat := if n = 0 then 1 else n.toNat

/-- `sizeof(OSym)`. -/
def sizeofOSym : Word := 24

/-- `sizeof(ORel)`. -/
def sizeofORel : Word := 20

/-- An object with the numbers of its header. -/
structure Raw where
  obj : Obj
  nsyms : Word
  nrels : Word
  strsz : Word

variable {o : Raw}

/-- The object that `read_obj` fills in. -/
def Obj.ofFile {n m : Word} (path : String) (text : { l : List Byte // l.length = n.toNat })
    (data : { l : List Byte // l.length = m.toNat }) (bss : Word) (syms : List OSym)
    (rels : List ORel) (str : List Byte) (lib : Bool) : Obj where
  path := path
  text := text.1
  data := data.1
  bss := bss
  syms := syms
  rels := rels
  str := str
  lib := lib
  text_lt := by rw [text.2]; exact BitVec.isLt _
  data_lt := by rw [data.2]; exact BitVec.isLt _

/-- `read_obj` with its arithmetic; `behind` is what the memory holds behind a buffer. -/
def readRaw (behind : List Byte) (path : String) (file : List Byte) (lib : Bool) :
    Except String Raw :=
  match fread 28 file with
  | none => .error ("not a TOF object: " ++ path)
  | some (hdr, f) =>
    if hdr.1.take 4 ≠ bytes "TOF1" then .error ("not a TOF object: " ++ path)
    else do
      let nsyms := rd32 (hdr.1.drop 16)
      let nrels := rd32 (hdr.1.drop 20)
      let strsz := rd32 (hdr.1.drop 24)
      let (text, f) ← freadObj path (rd32 (hdr.1.drop 4)).toNat f
      let (data, f) ← freadObj path (rd32 (hdr.1.drop 8)).toNat f
      let (sb, f) ← freadObj path (nsyms * 12).toNat f
      let (rb, f) ← freadObj path (nrels * 16).toNat f
      let (str, _) ← freadObj path strsz.toNat f
      let o := Obj.ofFile path text data (rd32 (hdr.1.drop 12))
        (readSyms (rounds nsyms) (sb.1 ++ behind)) (readRels (rounds nrels) (rb.1 ++ behind))
        str.1 lib
      match o.syms.findSome? (badSym strsz path) with
      | some msg => .error msg
      | none =>
        match o.rels.findSome? (badRel o.size nsyms path) with
        | some msg => .error msg
        | none => .ok ⟨o, nsyms, nrels, strsz⟩

/-- The object files of the command line. -/
def readRaws (behind : List Byte) : Nat → List Input → Except String (List Raw)
  | _, [] => .ok []
  | n, i :: is => do
    if n = maxObj then .error "too many object files"
    else
      let o ← readRaw behind i.path i.file i.lib
      let os ← readRaws behind (n + 1) is
      .ok (o :: os)

/-! ## What is accessed -/

/-- The buffers of an object cover what is read into them and what is used of them. -/
structure Raw.Allocated (o : Raw) : Prop where
  /-- The string table and the zero behind it. -/
  str : o.strsz.toNat + 1 ≤ xmalloc (o.strsz + 1)
  names : ∀ s ∈ o.obj.syms, ∃ z, s.name.toNat ≤ z ∧ z < xmalloc (o.strsz + 1) ∧
    o.obj.str.getD z 0 = 0
  symBuf : ∀ i < rounds o.nsyms, 12 * (i + 1) ≤ xmalloc (o.nsyms * 12)
  syms : ∀ i < rounds o.nsyms, 24 * (i + 1) ≤ xmalloc (o.nsyms * sizeofOSym)
  relBuf : ∀ i < rounds o.nrels, 16 * (i + 1) ≤ xmalloc (o.nrels * 16)
  rels : ∀ i < rounds o.nrels, 20 * (i + 1) ≤ xmalloc (o.nrels * sizeofORel)
  /-- The symbol of a relocation is one of the array. -/
  relSym : ∀ r ∈ o.obj.rels, 24 * (r.sym.toNat + 1) ≤ xmalloc (o.nsyms * sizeofOSym)

/-- Where section `s` of object `i` is in the image. -/
def placeOf (T : Word) (objs : List Obj) (i : Nat) (o : Obj) (s : Nat) : Nat :=
  ((placedAt T.toNat objs i o).base s - T).toNat

/-- The sections are copied into the image, and every byte a relocation writes is one of its
section. -/
structure InImage (T : Word) (objs : List Obj) : Prop where
  copies : ∀ i o, objs[i]? = some o → ∀ s, s = 1 ∨ s = 2 → ∀ x < (o.size s).toNat,
    placeOf T objs i o s + x < (layout T objs).total
  fields : ∀ g i o r, objs[i]? = some o → r ∈ o.rels → ∀ x < (patch g T objs i o r).2.length,
    placeOf T objs i o r.sec ≤ (patch g T objs i o r).1 + x ∧
      (patch g T objs i o r).1 + x < placeOf T objs i o r.sec + (o.size r.sec).toNat

/-! ## When it is inside -/

/-- The numbers of the header fit the arrays they stand for.  From `2 ^ 31` symbols on the loops
see a negative number and read none, but relocations may still name them. -/
structure Raw.Counted (o : Raw) : Prop where
  str : o.strsz.toNat + 1 < 2 ^ 32
  syms : o.nsyms.toNat < 2 ^ 31 → 24 * o.nsyms.toNat < 2 ^ 32
  rels : o.nrels.toNat < 2 ^ 31 → 20 * o.nrels.toNat < 2 ^ 32
  relSym : 2 ^ 31 ≤ o.nsyms.toNat → ∀ r ∈ o.obj.rels,
    24 * (r.sym.toNat + 1) ≤ 24 * o.nsyms.toNat % 2 ^ 32

/-- Every field ends inside its section. -/
def Raw.Fielded (o : Raw) : Prop :=
  ∀ r ∈ o.obj.rels, r.off.toNat + r.width ≤ (o.obj.size r.sec).toNat

/-! ## What has been read -/

/-- What `read_obj` makes sure of. -/
structure Raw.Read (o : Raw) : Prop where
  str : o.obj.str.length = o.strsz.toNat
  syms : ∀ s ∈ o.obj.syms, s.name < o.strsz
  rel : ∀ r ∈ o.obj.rels, (r.sec = 1 ∨ r.sec = 2) ∧
    r.off + BitVec.ofNat 32 r.width ≤ o.obj.size r.sec ∧ r.sym < o.nsyms ∧
    1 ≤ r.type ∧ r.type ≤ 3

theorem badSym_name {strsz : Word} {s : OSym} (h : badSym strsz path s = none) :
    s.name < strsz := by
  unfold badSym at h
  split_ifs at h with h1 h2
  exact BitVec.not_le.1 h1

theorem badRel_field {size : Nat → Word} {nsyms : Word} {r : ORel}
    (h : badRel size nsyms path r = none) : (r.sec = 1 ∨ r.sec = 2) ∧
      r.off + BitVec.ofNat 32 r.width ≤ size r.sec ∧ r.sym < nsyms ∧ 1 ≤ r.type ∧ r.type ≤ 3 := by
  obtain ⟨hsec, hrest⟩ := badRel_none h
  refine ⟨hsec, ?_, hrest⟩
  have hlim : (if r.sec = 1 then size 1 else if r.sec = 2 then size 2 else 0) = size r.sec := by
    rcases hsec with hsec | hsec <;> simp [hsec]
  unfold badRel at h
  simp only [hlim] at h
  split_ifs at h with h1 h2 h3
  push Not at h1
  exact BitVec.not_lt.1 h1.2.2

theorem readRaw_read {file : List Byte} {lib : Bool} (h : readRaw behind path file lib = .ok o) :
    o.Read := by
  unfold readRaw at h
  split at h
  · cases h
  · next hdr f hf =>
    split_ifs at h with hmagic
    obtain ⟨text, -, h⟩ := ok_of_bind h
    obtain ⟨data, -, h⟩ := ok_of_bind h
    obtain ⟨sb, -, h⟩ := ok_of_bind h
    obtain ⟨rb, -, h⟩ := ok_of_bind h
    obtain ⟨⟨str, rest⟩, -, h⟩ := ok_of_bind h
    dsimp only [Obj.ofFile] at h
    split at h
    · cases h
    · next hsyms =>
      split at h
      · cases h
      · next hrels =>
        cases h
        rw [List.findSome?_eq_none_iff] at hsyms hrels
        exact ⟨str.2, fun s hs => badSym_name (hsyms s hs),
          fun r hr => badRel_field (hrels r hr)⟩

theorem readRaws_read {is : List Input} {raws : List Raw} : ∀ {n : Nat},
    readRaws behind n is = .ok raws → ∀ o ∈ raws, o.Read := by
  induction is generalizing raws with
  | nil =>
    intro n h
    cases h
    exact nofun
  | cons i is ih =>
    intro n h
    unfold readRaws at h
    split_ifs at h with hn
    obtain ⟨o, ho, h⟩ := ok_of_bind h
    obtain ⟨os, hos, h⟩ := ok_of_bind h
    cases h
    exact forall_mem_cons.2 ⟨readRaw_read ho, ih hos⟩

/-! ## The buffers -/

theorem rounds_of_lt {n : Word} (h : n.toNat < 2 ^ 31) : rounds n = n.toNat := by
  rw [rounds, toInt_eq_toNat_cond, if_pos (by omega)]
  rfl

theorem rounds_of_le {n : Word} (h : 2 ^ 31 ≤ n.toNat) : rounds n = 0 := by
  have := n.isLt
  rw [rounds, toInt_eq_toNat_cond, if_neg (by omega)]
  omega

theorem xmalloc_mul (n : Word) (k : Nat) (hk : k < 2 ^ 32) :
    xmalloc (n * BitVec.ofNat 32 k) = max 1 (k * n.toNat % 2 ^ 32) := by
  have hmul : (n * BitVec.ofNat 32 k).toNat = k * n.toNat % 2 ^ 32 := by
    rw [toNat_mul, toNat_ofNat, Nat.mod_eq_of_lt hk, Nat.mul_comm]
  unfold xmalloc
  split_ifs with h
  · rw [← hmul, h]
    rfl
  · rw [hmul]
    have : (n * BitVec.ofNat 32 k).toNat ≠ 0 := fun h' => h (eq_of_toNat_eq h')
    omega

/-- An array of `k` bytes for each of `n` things covers the loop over them exactly when its size
does not wrap, or the loop sees a negative number. -/
theorem covers_iff (hk : 1 < k ∧ k < 2 ^ 32) (n : Word) :
    (∀ i < rounds n, k * (i + 1) ≤ xmalloc (n * BitVec.ofNat 32 k)) ↔
      (n.toNat < 2 ^ 31 → k * n.toNat < 2 ^ 32) := by
  rw [xmalloc_mul n k hk.2]
  constructor
  · intro h hn
    rw [rounds_of_lt hn] at h
    by_contra hbig
    have hpos : 0 < n.toNat := by
      by_contra h0
      rw [show n.toNat = 0 by omega] at hbig
      omega
    have hlast := h (n.toNat - 1) (by omega)
    rw [show n.toNat - 1 + 1 = n.toNat by omega] at hlast
    have := Nat.mod_lt (k * n.toNat) (show 0 < 2 ^ 32 by norm_num)
    omega
  · intro h i hi
    rcases Nat.lt_or_ge n.toNat (2 ^ 31) with hn | hn
    · rw [rounds_of_lt hn] at hi
      rw [Nat.mod_eq_of_lt (h hn)]
      exact le_max_of_le_right (Nat.mul_le_mul_left k hi)
    · rw [rounds_of_le hn] at hi
      omega

theorem strsz_iff (n : Word) : n.toNat + 1 ≤ xmalloc (n + 1) ↔ n.toNat + 1 < 2 ^ 32 := by
  have := n.isLt
  have hadd : (n + 1).toNat = (n.toNat + 1) % 2 ^ 32 := by simp [toNat_add]
  unfold xmalloc
  constructor
  · intro h
    split_ifs at h with h0
    · omega
    · omega
  · intro h
    rw [if_neg, hadd, Nat.mod_eq_of_lt h]
    intro h0
    have : (n + 1).toNat = 0 := by rw [h0]; rfl
    omega

/-- **The buffers** of an object that was read suffice exactly when its numbers fit. -/
theorem allocated_iff (h : o.Read) : o.Allocated ↔ o.Counted := by
  have h12 := covers_iff (k := 12) (by norm_num) o.nsyms
  have h24 := covers_iff (k := 24) (by norm_num) o.nsyms
  have h16 := covers_iff (k := 16) (by norm_num) o.nrels
  have h20 := covers_iff (k := 20) (by norm_num) o.nrels
  have hsize := xmalloc_mul o.nsyms 24 (by norm_num)
  constructor
  · intro ha
    refine ⟨(strsz_iff _).1 ha.str, h24.1 ha.syms, h20.1 ha.rels, ?_⟩
    intro _ r hr
    have hsym : 24 * (r.sym.toNat + 1) ≤ xmalloc (o.nsyms * BitVec.ofNat 32 24) := ha.relSym r hr
    rw [hsize] at hsym
    omega
  · intro hc
    have hstr := (strsz_iff o.strsz).2 hc.str
    refine ⟨hstr, ?_, h12.2 ?_, h24.2 hc.syms, h16.2 ?_, h20.2 hc.rels, ?_⟩
    · intro s hs
      have hname : s.name.toNat < o.strsz.toNat := h.syms s hs
      refine ⟨o.strsz.toNat, hname.le, hstr, ?_⟩
      rw [getD_eq_default _ _ h.str.le]
    · intro hn
      have := hc.syms hn
      omega
    · intro hn
      have := hc.rels hn
      omega
    · intro r hr
      show _ ≤ xmalloc (o.nsyms * BitVec.ofNat 32 24)
      rcases Nat.lt_or_ge o.nsyms.toNat (2 ^ 31) with hn | hn
      · have hsym : r.sym.toNat < o.nsyms.toNat := (h.rel r hr).2.2.1
        rw [hsize, Nat.mod_eq_of_lt (hc.syms hn)]
        omega
      · rw [hsize]
        exact le_max_of_le_right (hc.relSym hn r hr)

/-! ## The same object -/

theorem rd32_append (h : 4 ≤ b.length) (c : List Byte) : rd32 (b ++ c) = rd32 b := by
  match b, h with
  | _ :: _ :: _ :: _ :: _, _ => rfl

theorem readSyms_append (n : Nat) : ∀ b : List Byte, b.length = 12 * n → ∀ c,
    readSyms n (b ++ c) = readSyms n b := by
  induction n with
  | zero => exact fun b _ c => rfl
  | succ n ih =>
    intro b hb c
    simp (disch := grind) only [readSyms, rd32_append, drop_append_of_le_length, getD_append, ih]

theorem readRels_append (n : Nat) : ∀ b : List Byte, b.length = 16 * n → ∀ c,
    readRels n (b ++ c) = readRels n b := by
  induction n with
  | zero => exact fun b _ c => rfl
  | succ n ih =>
    intro b hb c
    simp (disch := grind) only [readRels, rd32_append, drop_append_of_le_length, getD_append, ih]

theorem freadObj_congr {n m : Nat} {f g : List Byte} (hnm : n = m)
    {b : { l : List Byte // l.length = n }} (h : freadObj path n f = .ok (b, g)) :
    freadObj path m f = .ok (⟨b.1, b.2.trans hnm⟩, g) := by
  subst hnm
  exact h

/-- Where the numbers fit, every access is inside its buffer, and the object is that of the
linker's model, whatever lies behind the buffers. -/
theorem readRaw_readObj {file : List Byte} {lib : Bool} (h : readRaw behind path file lib = .ok o)
    (hstr : o.strsz.toNat + 1 < 2 ^ 32) (hs : 24 * o.nsyms.toNat < 2 ^ 32)
    (hr : 20 * o.nrels.toNat < 2 ^ 32) :
    o.Allocated ∧ readObj path file lib = .ok o.obj := by
  refine ⟨(allocated_iff (readRaw_read h)).2 ⟨hstr, fun _ => hs, fun _ => hr, by omega⟩, ?_⟩
  have hmul : ∀ (n : Word) (k : Nat), k * n.toNat < 2 ^ 32 → k < 2 ^ 32 →
      (n * BitVec.ofNat 32 k).toNat = n.toNat * k := by
    intro n k hn hk
    rw [toNat_mul, toNat_ofNat, Nat.mod_eq_of_lt hk, Nat.mul_comm,
      Nat.mod_eq_of_lt hn]
  unfold readRaw at h
  split at h
  · cases h
  · next hdr f hf =>
    split_ifs at h with hmagic
    obtain ⟨⟨text, f₁⟩, h₁, h⟩ := ok_of_bind h
    obtain ⟨⟨data, f₂⟩, h₂, h⟩ := ok_of_bind h
    obtain ⟨⟨sb, f₃⟩, h₃, h⟩ := ok_of_bind h
    obtain ⟨⟨rb, f₄⟩, h₄, h⟩ := ok_of_bind h
    obtain ⟨⟨str, f₅⟩, h₅, h⟩ := ok_of_bind h
    dsimp only [Obj.ofFile] at h
    split at h
    · cases h
    · next hsyms =>
      split at h
      · cases h
      · next hrels =>
        cases h
        dsimp only at hs hr
        have hs12 := hmul (rd32 (hdr.1.drop 16)) 12 (by omega) (by norm_num)
        have hr16 := hmul (rd32 (hdr.1.drop 20)) 16 (by omega) (by norm_num)
        have hslen := sb.2.trans hs12
        have hrlen := rb.2.trans hr16
        simp (disch := omega) only [rounds_of_lt, readSyms_append, readRels_append] at hsyms hrels ⊢
        unfold readObj
        simp only [hf, if_neg hmagic, h₁, h₂, h₅, freadObj_congr hs12 h₃, freadObj_congr hr16 h₄,
          bind, Except.bind, hsyms, hrels]

/-! ## The image -/

section Image

variable {T : Word} {objs : List Obj} {i s : Nat} {o : Obj}

/-- The bytes of the image number fewer than `2 ^ 32`. -/
def Spans (T : Word) (objs : List Obj) : Prop := dataEnd T.toNat objs - T.toNat < 2 ^ 32

instance : Decidable (Spans T objs) := inferInstanceAs (Decidable (_ < _))

/-- The sections of the image are where the natural numbers put them. -/
theorem place_bounds (hf : Spans T objs) (ho : objs[i]? = some o) (hs : s = 1 ∨ s = 2) :
    placeOf T objs i o s = addrOf T.toNat objs i s - T.toNat ∧
      T.toNat ≤ addrOf T.toNat objs i s ∧
      addrOf T.toNat objs i s + (o.size s).toNat ≤ dataEnd T.toNat objs := by
  have h1 : T.toNat ≤ addrOf T.toNat objs i s := by
    rcases hs with rfl | rfl
    · exact (text_bounds ho).1
    · exact le_textEnd.trans (textEnd_le_dataStart.trans (data_bounds ho).1)
  have h2 : addrOf T.toNat objs i s + (o.size s).toNat ≤ dataEnd T.toNat objs := by
    have := starts_bounds (starts_addrOf (T := T.toNat) (s := s) ho) ho
    rcases hs with rfl | rfl
    · exact this.2.1.trans (textEnd_le_dataStart.trans dataStart_le_dataEnd)
    · exact this.2.1
  refine ⟨?_, h1, h2⟩
  have hbase : (placedAt T.toNat objs i o).base s = BitVec.ofNat 32 (addrOf T.toNat objs i s) :=
    if_pos (by omega)
  rw [placeOf, hbase]
  unfold Spans at hf
  exact toNat_ofNat_sub h1 (by omega)

theorem total_eq (hf : Spans T objs) : (layout T objs).total = imageEnd T.toNat objs - T.toNat := by
  obtain ⟨-, htext, hdata, hdataEnd, -, -⟩ := layout_eq T objs
  have hT : (layout T objs).textAddr = T := rfl
  have hle₁ : T.toNat ≤ textEnd T.toNat objs := le_textEnd
  have hle₂ : textEnd T.toNat objs ≤ dataStart T.toNat objs := textEnd_le_dataStart
  have hle₃ : dataStart T.toNat objs ≤ dataEnd T.toNat objs := dataStart_le_dataEnd
  unfold Spans at hf
  have hsize : (layout T objs).dataSize =
      BitVec.ofNat 32 (dataEnd T.toNat objs - dataStart T.toNat objs) := by
    have hsum : BitVec.ofNat 32 (dataStart T.toNat objs) + (layout T objs).dataSize =
        BitVec.ofNat 32 (dataStart T.toNat objs) +
          BitVec.ofNat 32 (dataEnd T.toNat objs - dataStart T.toNat objs) := by
      rw [← hdata, hdataEnd, hdata, ← ofNat_add]
      congr 1
      omega
    exact BitVec.add_right_inj _ |>.1 hsum
  have htsize : (layout T objs).textSize = BitVec.ofNat 32 (textEnd T.toNat objs) - T := by
    rw [← htext, hT, add_sub_cancel_left]
  have hzero : (layout T objs).dataSize = 0 ↔ dataEnd T.toNat objs = dataStart T.toNat objs := by
    rw [hsize]
    constructor
    · intro h
      have := congrArg BitVec.toNat h
      rw [toNat_ofNat, Nat.mod_eq_of_lt (by omega)] at this
      have : dataEnd T.toNat objs - dataStart T.toNat objs = 0 := this
      omega
    · intro h
      rw [h, Nat.sub_self]
      rfl
  unfold Layout.total imageEnd
  by_cases hz : dataEnd T.toNat objs = dataStart T.toNat objs
  · rw [if_pos (hzero.2 hz), if_pos hz, htsize]
    exact toNat_ofNat_sub hle₁ (by omega)
  · rw [if_neg (mt hzero.1 hz), if_neg hz, hdataEnd, hT]
    exact toNat_ofNat_sub (by omega) hf

/-- The copies of the sections always fit an image that does not wrap. -/
theorem copies_in_image (hf : Spans T objs) (ho : objs[i]? = some o) (hs : s = 1 ∨ s = 2)
    {x : Nat} (hx : x < (o.size s).toNat) : placeOf T objs i o s + x < (layout T objs).total := by
  obtain ⟨hplace, hle, hend⟩ := place_bounds hf ho hs
  rw [hplace, total_eq hf, imageEnd]
  have hbounds := starts_bounds (starts_addrOf (T := T.toNat) (s := s) ho) ho
  have hle₂ : textEnd T.toNat objs ≤ dataStart T.toNat objs := textEnd_le_dataStart
  rcases hs with rfl | rfl
  · have : addrOf T.toNat objs i 1 + (o.size 1).toNat ≤ textEnd T.toNat objs := hbounds.2.1
    split_ifs <;> omega
  · have : dataStart T.toNat objs ≤ addrOf T.toNat objs i 2 := (data_bounds ho).1
    rw [if_neg (by omega)]
    omega

/-- The field of a relocation is in its section exactly when it ends there without wrapping. -/
theorem field_iff (hf : Spans T objs) (ho : objs[i]? = some o) {r : ORel} {g : Globals}
    (hsec : r.sec = 1 ∨ r.sec = 2) (htype : 1 ≤ r.type ∧ r.type ≤ 3)
    (hend : r.off + BitVec.ofNat 32 r.width ≤ o.size r.sec) :
    (∀ x < (patch g T objs i o r).2.length,
      placeOf T objs i o r.sec ≤ (patch g T objs i o r).1 + x ∧
        (patch g T objs i o r).1 + x < placeOf T objs i o r.sec + (o.size r.sec).toNat) ↔
      r.off.toNat + r.width ≤ (o.size r.sec).toNat := by
  obtain ⟨hplace, hle, hbound⟩ := place_bounds hf ho hsec
  have hlen : (patch g T objs i o r).2.length = r.width := length_relBytes _ htype
  have hwidth : r.width = 2 ∨ r.width = 4 := by
    unfold ORel.width
    split_ifs <;> simp
  -- the field, in 32 bits, lies as far from the place of its section as its offset says
  have hoff : (patch g T objs i o r).1 =
      (placeOf T objs i o r.sec + r.off.toNat) % 2 ^ 32 := by
    show ((placedAt T.toNat objs i o).base r.sec + r.off - T).toNat = _
    rw [placeOf, add_sub_right_comm, toNat_add]
  have hend' : (r.off.toNat + r.width) % 2 ^ 32 ≤ (o.size r.sec).toNat := by
    have h := le_def.1 hend
    rwa [toNat_add, toNat_ofNat, Nat.mod_eq_of_lt (by omega : r.width < 2 ^ 32)] at h
  rw [hlen, hoff, hplace]
  unfold Spans at hf
  have := r.off.isLt
  constructor
  · intro h
    have h0 := h 0 (by omega)
    have h1 := h (r.width - 1) (by omega)
    omega
  · intro h x hx
    rw [Nat.mod_eq_of_lt (by omega)]
    omega

theorem inImage_iff (hf : Spans T objs) (hread : ∀ o ∈ objs, ∀ r ∈ o.rels,
    (r.sec = 1 ∨ r.sec = 2) ∧ r.off + BitVec.ofNat 32 r.width ≤ o.size r.sec ∧
      1 ≤ r.type ∧ r.type ≤ 3) :
    InImage T objs ↔ ∀ o ∈ objs, ∀ r ∈ o.rels, r.off.toNat + r.width ≤ (o.size r.sec).toNat := by
  constructor
  · intro h o ho r hr
    obtain ⟨i, hi⟩ := mem_iff_getElem?.1 ho
    obtain ⟨hsec, hend, htype⟩ := hread o ho r hr
    exact (field_iff (g := defineSyms []) hf hi hsec htype hend).1
      (h.fields _ i o r hi hr)
  · intro h
    refine ⟨fun i o ho s hs x hx => copies_in_image hf ho hs hx, ?_⟩
    intro g i o r hi hr
    have ho := mem_of_getElem? hi
    obtain ⟨hsec, hend, htype⟩ := hread o ho r hr
    exact (field_iff hf hi hsec htype hend).2 (h o ho r hr)

end Image

/-- **What the linker touches.**  For all files that `read_obj` takes, wherever the text goes and
whichever of the objects are kept, as long as the image has fewer than `2 ^ 32` bytes: all buffers
suffice, all names end, all sections are copied into the image and every byte a relocation changes
is one of its own section exactly when the numbers of the headers fit and no field wraps. -/
theorem tlink_in_bounds {behind : List Byte} {inputs : List Input} {raws kept : List Raw}
    {T : Word} (hread : readRaws behind 0 inputs = .ok raws) (hkept : kept.Sublist raws)
    (hspan : Spans T (kept.map Raw.obj)) :
    ((∀ o ∈ raws, o.Allocated) ∧ InImage T (kept.map Raw.obj)) ↔
      (∀ o ∈ raws, o.Counted) ∧ ∀ o ∈ kept, o.Fielded := by
  have hraw := readRaws_read hread
  refine and_congr (forall₂_congr fun o ho => allocated_iff (hraw o ho)) ?_
  rw [inImage_iff hspan]
  · simp only [forall_mem_map]
    rfl
  · simp only [forall_mem_map]
    intro o ho r hr
    obtain ⟨hsec, hend, -, htype⟩ := (hraw o (hkept.subset ho)).rel r hr
    exact ⟨hsec, hend, htype⟩

/-- A TOF file: the words of its header, a text of four bytes, one symbol `a` at its start and one
relocation against it, whose field is at `off`. -/
def objFile (off : Word) : List Byte :=
  bytes "TOF1" ++ wr32 4 ++ wr32 0 ++ wr32 0 ++ wr32 1 ++ wr32 1 ++ wr32 2 ++ [0, 0, 0, 0] ++
    (wr32 0 ++ wr32 0 ++ [1, 0, 0, 0]) ++ (wr32 off ++ [1, 1, 0, 0] ++ wr32 0 ++ wr32 0) ++ [97, 0]

/-- The object of such a file. -/
def fileObj (off : Word) : Raw where
  obj :=
    { path := "a.o"
      text := [0, 0, 0, 0]
      data := []
      bss := 0
      syms := [⟨0, 0, 1, 0⟩]
      rels := [⟨off, 1, 1, 0, 0⟩]
      str := [97, 0]
      lib := false
      text_lt := by decide
      data_lt := by decide }
  nsyms := 1
  nrels := 1
  strsz := 2

theorem readRaw_readObj_field :
    (fileObj 0).Allocated ∧ readObj "a.o" (objFile 0) false = .ok (fileObj 0).obj :=
  readRaw_readObj (o := fileObj 0) (rfl : readRaw [] _ _ _ = _) (by decide) (by decide) (by decide)

/-- A field that fills the text. -/
theorem tlink_in_bounds_field : (∀ o ∈ [fileObj 0], o.Allocated) ∧ InImage 0 [(fileObj 0).obj] := by
  have hread : readRaws [] 0 [⟨"a.o", objFile 0, false⟩] = .ok [fileObj 0] := rfl
  have hspan : Spans 0 ([fileObj 0].map Raw.obj) := by decide
  refine (tlink_in_bounds hread (List.Sublist.refl _) hspan).2 ⟨?_, ?_⟩
  · simp only [forall_mem_singleton]
    exact ⟨by decide, by decide, by decide, by decide⟩
  · simp only [forall_mem_singleton]
    intro r hr
    rw [mem_singleton.1 hr]
    decide

/-- **A field that wraps.**  The field is at `0xFFFFFFFE`, two bytes below the section or `2 ^ 32`
above it; its end is 2 in 32 bits, so `read_obj` takes it, and the linker writes there. -/
theorem wrapped_field_accepted :
    readRaws [] 0 [⟨"a.o", objFile 0xFFFFFFFE, false⟩] = .ok [fileObj 0xFFFFFFFE] ∧
      (∃ r ∈ (fileObj 0xFFFFFFFE).obj.rels, ∀ g,
        (patch g 0 [(fileObj 0xFFFFFFFE).obj] 0 (fileObj 0xFFFFFFFE).obj r).1 = 0xFFFFFFFE) ∧
      ¬InImage 0 [(fileObj 0xFFFFFFFE).obj] := by
  refine ⟨rfl, ⟨_, mem_singleton_self _, fun g => rfl⟩, ?_⟩
  intro h
  have hfield := h.fields (defineSyms []) 0 _ _ rfl (mem_singleton_self _) 0 (by decide)
  exact absurd hfield (by decide)

end Tortoise.Tools
