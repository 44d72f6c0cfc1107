import Tortoise.Lib.Chains
import Tortoise.Lib.Patch

/-!
# The linker

`src/tools/tlink.c`: reading object files, choosing the objects of a library that are
needed, laying out the sections, resolving the symbols and applying the relocations.

A file is the list of its bytes.  Options come as a record, not as the words of a
command line, and the map (`-M`) is left out.  Memory for a file's contents is always
there.  What the program prints when it fails is the error of the model.
-/

namespace Tortoise.Tools

open Lib

abbrev Byte := BitVec 8

abbrev Word := BitVec 32

def rd32 : List Byte → Word
  | a :: b :: c :: d :: _ =>
    a.setWidth 32 ||| b.setWidth 32 <<< 8 ||| c.setWidth 32 <<< 16 ||| d.setWidth 32 <<< 24
  | _ => 0

def wr32 (v : Word) : List Byte :=
  [v.setWidth 8, (v >>> 8).setWidth 8, (v >>> 16).setWidth 8, (v >>> 24).setWidth 8]

/-- Text as bytes. -/
def bytes (s : String) : List Byte := s.toList.map fun c => BitVec.ofNat 8 c.toNat

/-- Bytes as text. -/
def text (s : List Byte) : String := String.ofList (s.map fun b => Char.ofNat b.toNat)

/-- `%X`. -/
def hexText (v : Word) : String := String.ofList ((Nat.toDigits 16 v.toNat).map Char.toUpper)

/-! ## Object files -/

/-- A symbol of an object: where its name is in the string table, its value, its
section (`0` is undefined, `4` absolute) and whether it is global. -/
structure OSym where
  name : Word
  val : Word
  sec : Nat
  bind : Nat
  deriving DecidableEq

/-- A relocation: the field, its type, the symbol and the addend. -/
structure ORel where
  off : Word
  sec : Nat
  type : Nat
  sym : Word
  add : Word
  deriving DecidableEq

def rAbs32 : Nat := 1

def rRel32 : Nat := 2

def rAbs16 : Nat := 3

/-- How many bytes a relocation changes. -/
def ORel.width (r : ORel) : Nat := if r.type = rAbs16 then 2 else 4

/-- An object.  `bss` is the size of its third section, which has no bytes. -/
structure Obj where
  path : String
  text : List Byte
  data : List Byte
  bss : Word
  syms : List OSym
  rels : List ORel
  str : List Byte
  lib : Bool
  text_lt : text.length < 2 ^ 32
  data_lt : data.length < 2 ^ 32

/-- The size of a section. -/
def Obj.size (o : Obj) : Nat → Word
  | 1 => BitVec.ofNat 32 o.text.length
  | 2 => BitVec.ofNat 32 o.data.length
  | 3 => o.bss
  | _ => 0

/-- The string at an offset of the string table. -/
def Obj.name (o : Obj) (s : OSym) : List Byte := (o.str.drop s.name.toNat).takeWhile (· ≠ 0)

/-- `fread`: the next `n` bytes, all of them or none. -/
def fread (n : Nat) (f : List Byte) : Option ({ l : List Byte // l.length = n } × List Byte) :=
  if h : n ≤ f.length then some (⟨f.take n, by simp [h]⟩, f.drop n) else none

/-- The symbols, twelve bytes each. -/
def readSyms : Nat → List Byte → List OSym
  | 0, _ => []
  | n + 1, b =>
    ⟨rd32 b, rd32 (b.drop 4), (b.getD 8 0).toNat, (b.getD 9 0).toNat⟩ :: readSyms n (b.drop 12)

/-- The relocations, sixteen bytes each. -/
def readRels : Nat → List Byte → List ORel
  | 0, _ => []
  | n + 1, b =>
    ⟨rd32 b, (b.getD 4 0).toNat, (b.getD 5 0).toNat, rd32 (b.drop 8), rd32 (b.drop 12)⟩ ::
      readRels n (b.drop 16)

/-- What `read_obj` says about a symbol. -/
def badSym (strsz : Word) (path : String) (s : OSym) : Option String :=
  if strsz ≤ s.name then some ("bad symbol name in " ++ path)
  else if 4 < s.sec then some ("bad symbol section in " ++ path)
  else none

/-- What `read_obj` says about a relocation. -/
def badRel (size : Nat → Word) (nsyms : Word) (path : String) (r : ORel) : Option String :=
  let lim := if r.sec = 1 then size 1 else if r.sec = 2 then size 2 else 0
  if r.sec < 1 ∨ 2 < r.sec ∨ lim < r.off + BitVec.ofNat 32 r.width then
    some ("bad relocation in " ++ path)
  else if nsyms ≤ r.sym then some ("bad relocation symbol in " ++ path)
  else if r.type < 1 ∨ 3 < r.type then some ("bad relocation type in " ++ path)
  else none

/-- The next bytes of an object file, which is too short when they are missing. -/
def freadObj (path : String) (n : Nat) (f : List Byte) :
    Except String ({ l : List Byte // l.length = n } × List Byte) :=
  match fread n f with
  | some r => .ok r
  | none => .error ("truncated object: " ++ path)

def readObj (path : String) (file : List Byte) (lib : Bool) : Except String Obj :=
  match fread 28 file with
  | none => .error ("not a TOF object: " ++ path)
  | some (hdr, f) =>
    if hdr.1.take 4 ≠ bytes "TOF1" then .error ("not a TOF object: " ++ path)
    else do
      let nsyms := rd32 (hdr.1.drop 16)
      let nrels := rd32 (hdr.1.drop 20)
      let strsz := rd32 (hdr.1.drop 24)
      let (text, f) ← freadObj path (rd32 (hdr.1.drop 4)).toNat f
      let (data, f) ← freadObj path (rd32 (hdr.1.drop 8)).toNat f
      let (sb, f) ← freadObj path (nsyms.toNat * 12) f
      let (rb, f) ← freadObj path (nrels.toNat * 16) f
      let (str, _) ← freadObj path strsz.toNat f
      let o : Obj :=
        { path := path
          text := text.1
          data := data.1
          bss := rd32 (hdr.1.drop 12)
          syms := readSyms nsyms.toNat sb.1
          rels := readRels nrels.toNat rb.1
          str := str.1
          lib := lib
          text_lt := by rw [text.2]; exact BitVec.isLt _
          data_lt := by rw [data.2]; exact BitVec.isLt _ }
      match o.syms.findSome? (badSym strsz path) with
      | some msg => .error msg
      | none =>
        match o.rels.findSome? (badRel o.size nsyms path) with
        | some msg => .error msg
        | none => .ok o

def maxObj : Nat := 512

/-- An input file: its path, its bytes, and whether it comes after `-l`. -/
structure Input where
  path : String
  file : List Byte
  lib : Bool

/-- The object files of the command line; `n` have been read. -/
def readAll : Nat → List Input → Except String (List Obj)
  | _, [] => .ok []
  | n, i :: is => do
    if n = maxObj then .error "too many object files"
    else
      let o ← readObj i.path i.file i.lib
      let os ← readAll (n + 1) is
      .ok (o :: os)

/-! ## Libraries -/

/-- The symbol is a global definition. -/
def OSym.global (s : OSym) : Bool := s.bind = 1 && s.sec ≠ 0

def defines (o : Obj) (name : List Byte) : Bool := o.syms.any fun s => s.global && o.name s = name

/-- Relocations use symbol `j`. -/
def Obj.uses (o : Obj) (j : Nat) : Bool := o.rels.any fun r => r.sym.toNat = j

/-- `needs`: the names of undefined symbols that relocations use. -/
def needs (o : Obj) : List (List Byte) :=
  (o.syms.zipIdx.filter fun s => s.1.sec = 0 && o.uses s.2).map fun s => o.name s.1

/-- `lib_clashes`, with what it prints. -/
def libClashes : List Obj → List String
  | [] => []
  | o :: os =>
    ((o.syms.filter OSym.global).flatMap fun s =>
      (os.filter fun o' => (o.lib || o'.lib) && defines o' (o.name s)).map fun o' =>
        "symbol " ++ text (o.name s) ++ " defined in " ++ o.path ++ " and " ++ o'.path) ++
      libClashes os

/-- The objects with their mark `keep`. -/
abbrev Kept := List (Obj × Bool)

/-- Keep the first object that is not kept and defines the name. -/
def pull (name : List Byte) : Kept → Option Kept
  | [] => none
  | (o, keep) :: os =>
    if !keep && defines o name then some ((o, true) :: os) else (pull name os).map ((o, keep) :: ·)

/-- One needed name in `select_lib`: when no kept object defines it, one that does is
kept from now on.  The mark says that this has happened. -/
def supply (ks : Kept × Bool) (name : List Byte) : Kept × Bool :=
  if ks.1.any fun k => k.2 && defines k.1 name then ks
  else
    match pull name ks.1 with
    | some ks' => (ks', true)
    | none => ks

/-- The turn of the `i`-th object in `select_lib`. -/
def supplyFor (ks : Kept × Bool) (i : Nat) : Kept × Bool :=
  match ks.1[i]? with
  | some (o, true) => (needs o).foldl supply ks
  | _ => ks

/-- One round over all objects. -/
def selectRound (ks : Kept) : Kept × Bool := (List.range ks.length).foldl supplyFor (ks, false)

/-- The loop of `select_lib`: rounds until one changes nothing. -/
def selectLoop : Nat → Kept → Kept
  | 0, ks => ks
  | fuel + 1, ks => let r := selectRound ks; if r.2 then selectLoop fuel r.1 else r.1

/-- `select_lib`.  Every round but the last keeps one more object. -/
def selectLib (objs : List Obj) : List Obj :=
  ((selectLoop (objs.length + 1) (objs.map fun o => (o, !o.lib))).filter (·.2)).map (·.1)

/-! ## Layout -/

def align (v a : Word) : Word := (v + a - 1) &&& ~~~(a - 1)

/-- An object with the addresses of its sections. -/
structure Placed where
  obj : Obj
  base : Nat → Word

/-- One of the three layout loops: section `s` of every object from `pos` on. -/
def place (s : Nat) : Word → List Placed → List Placed × Word
  | pos, [] => ([], pos)
  | pos, o :: os =>
    let b := align pos 4
    let r := place s (b + o.obj.size s) os
    ({ o with base := Function.update o.base s b } :: r.1, r.2)

/-- The addresses the linker works with. -/
structure Layout where
  objs : List Placed
  textAddr : Word
  textSize : Word
  dataAddr : Word
  dataSize : Word
  bssAddr : Word
  bssSize : Word

def layout (textAddr : Word) (objs : List Obj) : Layout :=
  let t := place 1 textAddr (objs.map fun o => ⟨o, fun _ => 0⟩)
  let dataAddr := align t.2 4096
  let d := place 2 dataAddr t.1
  let bssAddr := align d.2 4
  let b := place 3 bssAddr d.1
  { objs := b.1
    textAddr := textAddr
    textSize := t.2 - textAddr
    dataAddr := dataAddr
    dataSize := d.2 - dataAddr
    bssAddr := bssAddr
    bssSize := b.2 - bssAddr }

/-! ## Symbols -/

def hashs (s : List Byte) : Nat :=
  (s.foldl (fun (h : Word) c => h * 33 + c.setWidth 32) 5381).toNat % 4096

/-- A global symbol: the object that defines it, or none for the linker's own. -/
structure GSym where
  obj : Option String
  addr : Word
  defined : Bool

/-- The table of global symbols, and what has been printed. -/
structure Globals where
  index : Chains (List Byte) hashs
  sym : Nat → GSym
  errors : List String

def gget (g : Globals) (name : List Byte) : Globals × Nat :=
  let r := g.index.get name
  if r.1.keys.length = g.index.keys.length then (g, r.2)
  else ({ g with index := r.1, sym := Function.update g.sym r.2 ⟨none, 0, false⟩ }, r.2)

/-- Set symbol `i`. -/
def Globals.set (g : Globals) (i : Nat) (s : GSym) : Globals :=
  { g with sym := Function.update g.sym i s }

/-- The address of a symbol by its section. -/
def Placed.addr (o : Placed) (s : OSym) : Word :=
  if 1 ≤ s.sec ∧ s.sec ≤ 3 then o.base s.sec + s.val else s.val

/-- The turn of one symbol in the first symbol loop. -/
def defineSym (o : Placed) (g : Globals) (s : OSym) : Globals :=
  if s.global then
    let r := gget g (o.obj.name s)
    if (r.1.sym r.2).defined then
      { r.1 with errors := r.1.errors ++
          ["duplicate symbol " ++ text (o.obj.name s) ++ " in " ++
            ((r.1.sym r.2).obj.getD "linker") ++ " and " ++ o.obj.path] }
    else r.1.set r.2 ⟨some o.obj.path, o.addr s, true⟩
  else g

/-- The first symbol loop. -/
def defineSyms (objs : List Placed) : Globals :=
  objs.foldl (fun g o => o.obj.syms.foldl (defineSym o) g) ⟨.empty, fun _ => ⟨none, 0, false⟩, []⟩

def defineSpecial (name : List Byte) (addr : Word) (g : Globals) : Except (List String) Globals :=
  let r := gget g name
  if (r.1.sym r.2).defined then
    .error (r.1.errors ++ ["linker symbol defined by an object: " ++ text name])
  else .ok (r.1.set r.2 ⟨(r.1.sym r.2).obj, addr, true⟩)

/-- The address of a global symbol. -/
def gaddr (g : Globals) (name : List Byte) : Option Word :=
  match g.index.find name with
  | some i => if (g.sym i).defined then some (g.sym i).addr else none
  | none => none

/-- The second symbol loop: the undefined symbols that relocations use and that
nobody defines. -/
def undefinedSyms (g : Globals) (objs : List Placed) : List String :=
  objs.flatMap fun o => (o.obj.syms.zipIdx.filter fun s =>
    s.1.sec = 0 && (gaddr g (o.obj.name s.1)).isNone && o.obj.uses s.2).map fun s =>
      "undefined symbol " ++ text (o.obj.name s.1) ++ " referenced in " ++ o.obj.path

/-- The address of a symbol after the second loop. -/
def finalAddr (g : Globals) (o : Placed) (s : OSym) : Word :=
  if s.sec = 0 then (gaddr g (o.obj.name s)).getD s.val else o.addr s

/-! ## Relocations -/

/-- The bytes of the sections and where they go. -/
def sections (lay : Layout) : List (Nat × List Byte) :=
  lay.objs.flatMap fun o =>
    [((o.base 1 - lay.textAddr).toNat, o.obj.text), ((o.base 2 - lay.textAddr).toNat, o.obj.data)]

/-- The value of a relocation: symbol and addend. -/
def relValue (g : Globals) (o : Placed) (r : ORel) : Word :=
  (match o.obj.syms[r.sym.toNat]? with
    | some s => finalAddr g o s
    | none => 0) + r.add

/-- The address of the field. -/
def Placed.field (o : Placed) (r : ORel) : Word := o.base r.sec + r.off

/-- What a relocation writes. -/
def relBytes (g : Globals) (o : Placed) (r : ORel) : List Byte :=
  let v := relValue g o r
  if r.type = rAbs32 then wr32 v
  else if r.type = rRel32 then wr32 (v - (o.field r + 4))
  else [v.setWidth 8, (v >>> 8).setWidth 8]

/-- The fields and what is written into them. -/
def patches (g : Globals) (lay : Layout) : List (Nat × List Byte) :=
  lay.objs.flatMap fun o =>
    o.obj.rels.map fun r => ((o.field r - lay.textAddr).toNat, relBytes g o r)

/-- A 16-bit relocation that does not fit. -/
def overflows (g : Globals) (o : Placed) (r : ORel) : Bool :=
  r.type ≠ rAbs32 && r.type ≠ rRel32 &&
    (0xFFFF < relValue g o r && relValue g o r < 0xFFFF8000)

def overflowErrors (g : Globals) (objs : List Placed) : List String :=
  objs.flatMap fun o => (o.obj.rels.filter (overflows g o)).map fun r =>
    "16 bit relocation overflow (0x" ++ hexText (relValue g o r) ++ ") against " ++
      text ((o.obj.syms[r.sym.toNat]?.map o.obj.name).getD []) ++ " in " ++ o.obj.path

/-! ## The program -/

structure Opts where
  /-- `-b` -/
  flat : Bool
  /-- `-T` -/
  textAddr : Word
  /-- `-e` -/
  entry : Option (List Byte)

/-- The size of the image. -/
def Layout.total (lay : Layout) : Nat :=
  (if lay.dataSize = 0 then lay.textSize else lay.dataAddr + lay.dataSize - lay.textAddr).toNat

/-- The image: zeros, then the sections, then the relocations. -/
def image (g : Globals) (lay : Layout) : List Byte :=
  (List.range lay.total).map (blits (blits (fun _ => 0) (sections lay)) (patches g lay))

/-- The entry point. -/
def entryAddr (opts : Opts) (g : Globals) : Except (List String) Word :=
  match gaddr g (opts.entry.getD (bytes "_start")) with
  | some a => .ok a
  | none =>
    match opts.entry with
    | some name => .error ["entry symbol not found: " ++ text name]
    | none => .ok opts.textAddr

/-- The output file. -/
def output (opts : Opts) (lay : Layout) (entry : Word) (img : List Byte) : List Byte :=
  if opts.flat then img
  else
    bytes "TEX1" ++ wr32 entry ++ wr32 lay.textAddr ++ wr32 lay.textSize ++ wr32 lay.dataAddr ++
      wr32 lay.dataSize ++ wr32 lay.bssSize ++ wr32 0 ++ img.take lay.textSize.toNat ++
      (img.drop (lay.dataAddr - lay.textAddr).toNat).take lay.dataSize.toNat

/-- The symbols of all objects and of the linker. -/
def resolve (lay : Layout) : Except (List String) Globals := do
  let g ← defineSpecial (bytes "_etext") (lay.textAddr + lay.textSize) (defineSyms lay.objs)
  let g ← defineSpecial (bytes "_edata") (lay.dataAddr + lay.dataSize) g
  let g ← defineSpecial (bytes "_end") (lay.bssAddr + lay.bssSize) g
  let errors := g.errors ++ undefinedSyms g lay.objs
  if errors ≠ [] then .error errors else .ok g

/-- `main` behind the reading of the objects. -/
def link (opts : Opts) (objs : List Obj) : Except (List String) (List Byte) := do
  let lay := layout opts.textAddr objs
  let g ← resolve lay
  let errors := overflowErrors g lay.objs
  if errors ≠ [] then .error errors
  else
    let entry ← entryAddr opts g
    .ok (output opts lay entry (image g lay))

/-- The objects that are linked: all that were read, without those of the libraries
that nobody needs. -/
def linked (inputs : List Input) : Except (List String) (List Obj) :=
  if inputs = [] then .error ["usage: tlink [-b] [-M] [-T addr] [-e sym] -o out file.o ... [-l lib.o ...]"]
  else
    match readAll 0 inputs with
    | .error msg => .error [msg]
    | .ok objs => if libClashes objs ≠ [] then .error (libClashes objs) else .ok (selectLib objs)

def tlink (opts : Opts) (inputs : List Input) : Except (List String) (List Byte) := do
  let objs ← linked inputs
  link opts objs

end Tortoise.Tools
