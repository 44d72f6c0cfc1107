import Tortoise.Emu.Dev

/-!
# Physical memory, address translation and instruction fetch

The access paths of `src/cpu.c`: `phys_read` and `phys_write` with their three
windows, the two-level page walk behind the translation cache, base and limit
translation, accesses that cross a page, and the fetch of instruction bytes
through the cached fetch page.

A fault inside any of these leaves through `longjmp` after the exception entry
has changed the state.  What the entry does depends on these very routines, so
they take it as the parameter `F`; the knot is tied in `Tortoise.Emu.Exception`.
-/

namespace Tortoise.Emu

/-- What `cpu_fault vec code` does to the state before its `longjmp`. -/
abbrev Fault := Word → Word → Machine → Machine

/-- Leave through `cpu_fault vec code`. -/
def raise {α : Type} (F : Fault) (vec code : Word) : M α :=
  fun s => .error .longjmp (F vec code s)

/-- The kinds of access, `ACC_R`, `ACC_W` and `ACC_X`. -/
inductive Acc where
  | r
  | w
  | x
  deriving DecidableEq, Repr

/-- `pa < ram_size && ram_size - pa >= n`. -/
def inRam (s : Machine) (pa : Word) (n : Nat) : Bool :=
  decide (pa < s.cfg.ramSize) && decide (n ≤ (s.cfg.ramSize - pa).toNat)

/-- `pa >= ROM_BASE && rom_present && ROM_SIZE - (pa - ROM_BASE) >= n`. -/
def inRom (s : Machine) (pa : Word) (n : Nat) : Bool :=
  decide (romBase ≤ pa) && s.cfg.romPresent && decide (n ≤ (romSize - (pa - romBase)).toNat)

/-- An aligned word of the device window. -/
def inDev (pa : Word) (n : Nat) : Bool :=
  decide (devBase ≤ pa) && decide (pa < devEnd) && decide (n = 4) && pa &&& 3 == 0

/-- The value of the `n` bytes of RAM at `pa`. -/
def ramRead (mem : Word → Byte) (pa : Word) (n : Nat) : Word :=
  rdBytes (fun i => mem (pa + BitVec.ofNat 32 i)) n

/-- The state in which `cpu_bus_error` leaves. -/
def busState (F : Fault) (addr : Word) (s : Machine) : Machine :=
  if s.extOn then F vecBus 0 (s.setCr crFaddr addr) else cpuStop exitInvalid s

def cpuBusError {α : Type} (F : Fault) (addr : Word) : M α := fun s =>
  .error .longjmp (busState F addr s)

def physRead (F : Fault) (pa : Word) (n : Nat) : M Word := fun s =>
  if inRam s pa n then .ok (ramRead s.mem pa n) s
  else if inRom s pa n then .ok (ramRead s.cfg.rom (pa - romBase) n) s
  else if inDev pa n then
    match devRead pa s with
    | some (v, s') => .ok v s'
    | none => cpuBusError F pa s
  else cpuBusError F pa s

/-- The invalidation in `phys_write`: the decoded instructions of the pages
written are dropped when one of the two pages has any. -/
def dcDrop (pa : Word) (n : Nat) (s : Machine) : Machine :=
  if (s.dcTab (pageNum pa)).isSome || (s.dcTab (pageNum (pa + BitVec.ofNat 32 n - 1))).isSome then
    cpuMemWritten pa (BitVec.ofNat 32 n) s
  else s

/-- The RAM half of `phys_write`. -/
def ramWrite (pa v : Word) (n : Nat) (s : Machine) : Machine :=
  { dcDrop pa n s with mem := storeBytes s.mem pa n (byteOf v) }

def physWrite (F : Fault) (pa v : Word) (n : Nat) : M Unit := fun s =>
  if inRam s pa n then .ok () (ramWrite pa v n s)
  else if inDev pa n then
    match devWrite pa v s with
    | some s' => .ok () s'
    | none => cpuBusError F pa s
  else cpuBusError F pa s

/-- The ways a physical read can end: from RAM or ROM without a change of state,
from a device, or in a bus error. -/
theorem physRead_cases (F : Fault) (pa : Word) (n : Nat) (s : Machine) :
    (∃ v, physRead F pa n s = .ok v s) ∨
    (∃ v s', devRead pa s = some (v, s') ∧ physRead F pa n s = .ok v s') ∨
    physRead F pa n s = .error .longjmp (busState F pa s) := by
  unfold physRead
  split
  · exact .inl ⟨_, rfl⟩
  · split
    · exact .inl ⟨_, rfl⟩
    · split
      · cases h : devRead pa s with
        | none => exact .inr (.inr rfl)
        | some r => exact .inr (.inl ⟨r.1, r.2, rfl, rfl⟩)
      · exact .inr (.inr rfl)

/-- The ways a physical write can end: to RAM, to a device, or in a bus error. -/
theorem physWrite_cases (F : Fault) (pa v : Word) (n : Nat) (s : Machine) :
    (inRam s pa n = true ∧ physWrite F pa v n s = .ok () (ramWrite pa v n s)) ∨
    (∃ s', devWrite pa v s = some s' ∧ physWrite F pa v n s = .ok () s') ∨
    physWrite F pa v n s = .error .longjmp (busState F pa s) := by
  unfold physWrite
  split
  · rename_i h
    exact .inl ⟨h, rfl⟩
  · split
    · cases h : devWrite pa v s with
      | none => exact .inr (.inr rfl)
      | some s' => exact .inr (.inl ⟨s', rfl, rfl⟩)
    · exact .inr (.inr rfl)

/-! ## Translation -/

/-- `cpu_flush_tlb`.  When the generation wraps, every entry is zeroed. -/
def cpuFlushTlb (s : Machine) : Machine :=
  if s.tlbGen + 1 = 0 then fetchInval { s with tlb := fun _ => ⟨0, 0, 0⟩, tlbGen := 1 }
  else fetchInval { s with tlbGen := s.tlbGen + 1 }

/-- Replace the entry of page `p`. -/
def setTlb (p : Nat) (e : TlbEnt) (s : Machine) : Machine :=
  { s with tlb := fun q => if q = p then e else s.tlb q }

def cpuInvlpg (va : Word) (s : Machine) : Machine :=
  fetchInval (setTlb (pageNum va) { s.tlb (pageNum va) with gen := 0 } s)

/-- The error code of `page_fault`. -/
def pfCode (acc : Acc) (user present : Bool) : Word :=
  (if present then pfP else 0) ||| (if acc = .w then pfW else 0)
    ||| (if user then pfU else 0) ||| (if acc = .x then pfI else 0)

def pageFault {α : Type} (F : Fault) (va : Word) (acc : Acc) (user present : Bool) : M α :=
  fun s => raise F vecPf (pfCode acc user present) (s.setCr crFaddr va)

def pteDenied (pte : Word) (acc : Acc) (user : Bool) : Bool :=
  (user && pte &&& pteU == 0) || (acc == .w && pte &&& pteW == 0)
    || (acc == .x && pte &&& pteX == 0)

/-- The address of the page-directory entry for `va`. -/
def pdeAddr (s : Machine) (va : Word) : Word := pageOf (s.crOf crPtbase) + (va >>> 22) * 4

/-- The address of the page-table entry for `va` in the table that `pde` names. -/
def pteAddr (pde va : Word) : Word := pageOf pde + ((va >>> 12) &&& 0x3FF) * 4

/-- The bits an access sets in the page-table entry. -/
def touch (pte : Word) (acc : Acc) : Word := pte ||| pteA ||| (if acc = .w then pteD else 0)

/-- The miss path of `pg_translate`: the walk, the update of the entry in
memory and the refill. -/
def pgMiss (F : Fault) (va : Word) (acc : Acc) (user : Bool) : M Word := do
  let s ← get
  let pde ← physRead F (pdeAddr s va) 4
  if pde &&& pteP = 0 then pageFault F va acc user false
  else
    let ptePa := pteAddr pde va
    let pte ← physRead F ptePa 4
    if pte &&& pteP = 0 then pageFault F va acc user false
    else if pteDenied pte acc user then pageFault F va acc user true
    else
      let npte := touch pte acc
      if npte ≠ pte then physWrite F ptePa npte 4
      modify fun s => setTlb (pageNum va) ⟨s.tlbGen, npte, ptePa⟩ s
      pure (pageOf npte ||| pageOff va)

/-- The hit path of `pg_translate` with the live entry `e`. -/
def pgHit (F : Fault) (va : Word) (acc : Acc) (user : Bool) (e : TlbEnt) : M Word := do
  if pteDenied e.pte acc user then pageFault F va acc user true
  else
    if acc = .w ∧ e.pte &&& pteD = 0 then
      -- the cached entry is marked before the one in memory
      modify (setTlb (pageNum va) { e with pte := e.pte ||| pteD })
      let w ← physRead F e.ptePa 4
      physWrite F e.ptePa (w ||| pteD ||| pteA) 4
    pure (pageOf e.pte ||| pageOff va)

def pgTranslate (F : Fault) (va : Word) (acc : Acc) (user : Bool) : M Word := do
  let s ← get
  if (s.tlb (pageNum va)).gen ≠ s.tlbGen then pgMiss F va acc user
  else pgHit F va acc user (s.tlb (pageNum va))

def Machine.xlActive (s : Machine) : Bool := s.extOn && (s.pgOn || s.protOn)

def translate (F : Fault) (va : Word) (acc : Acc) (user : Bool) : M Word := do
  let s ← get
  if !s.extOn then pure va
  else if s.pgOn then pgTranslate F va acc user
  else if s.protOn && user then
    if s.crOf crLimit ≤ va then
      modify fun s => s.setCr crFaddr va
      raise F vecGp 0
    else pure (s.crOf crBase + va)
  else pure va

/-! ## Virtual accesses -/

/-- The translations of `n` consecutive bytes, first byte first. -/
def translateBytes (F : Fault) (va : Word) (acc : Acc) (user : Bool) : Nat → Nat → M (List Word)
  | 0, _ => pure []
  | n + 1, i => do
    let p ← translate F (va + BitVec.ofNat 32 i) acc user
    let ps ← translateBytes F va acc user n (i + 1)
    pure (p :: ps)

/-- The bytes at the given physical addresses, as a word with the first byte
lowest. -/
def physReadBytes (F : Fault) : List Word → Nat → M Word
  | [], _ => pure 0
  | p :: ps, i => do
    let b ← physRead F p 1
    let v ← physReadBytes F ps (i + 1)
    pure ((b <<< (8 * i)) ||| v)

/-- The bytes of `v` from byte `i` on to the given physical addresses. -/
def physWriteBytes (F : Fault) (v : Word) : List Word → Nat → M Unit
  | [], _ => pure ()
  | p :: ps, i => do
    physWrite F p ((byteOf v i).setWidth 32) 1
    physWriteBytes F v ps (i + 1)

/-- Whether an access is translated byte by byte: it crosses a page, or base
and limit translation applies to it. -/
def bytewise (s : Machine) (va : Word) (n : Nat) (user : Bool) : Bool :=
  decide (1 < n) && (decide (0x1000 < (pageOff va).toNat + n) || (!s.pgOn && user))

/-- The physical addresses of a two- or four-byte access are consecutive, as
the last of them shows. -/
def contiguous (ps : List Word) (n : Nat) : Bool :=
  (n == 4 && ps.getD 3 0 == ps.getD 0 0 + 3) || (n == 2 && ps.getD 1 0 == ps.getD 0 0 + 1)

def vmRead (F : Fault) (va : Word) (n : Nat) (user : Bool) : M Word := do
  let s ← get
  if !s.xlActive then physRead F va n
  else if bytewise s va n user then
    let ps ← translateBytes F va .r user n 0
    if contiguous ps n then physRead F (ps.getD 0 0) n else physReadBytes F ps 0
  else
    let pa ← translate F va .r user
    physRead F pa n

def vmWrite (F : Fault) (va v : Word) (n : Nat) (user : Bool) : M Unit := do
  let s ← get
  if !s.xlActive then physWrite F va v n
  else if bytewise s va n user then
    let ps ← translateBytes F va .w user n 0
    if contiguous ps n then physWrite F (ps.getD 0 0) v n else physWriteBytes F v ps 0
  else
    let pa ← translate F va .w user
    physWrite F pa v n

/-! ## Instruction fetch -/

/-- The byte of the cached fetch page at the offset of `pc`. -/
def fetchPage (s : Machine) (p : FetchPtr) (pc : Word) : Byte :=
  match p with
  | .ram pb => s.mem (pb + pageOff pc)
  | .rom off => s.cfg.rom (off + pageOff pc)

def fetchSlow (F : Fault) (pc : Word) : M Byte := do
  let s ← get
  if s.xlActive && !s.pgOn && s.isUser then
    let pa ← translate F pc .x true
    let v ← physRead F pa 1
    pure (v.setWidth 8)
  else
    let pa ← translate F pc .x s.isUser
    let pb := pageOf pa
    let s ← get
    if pb < s.cfg.ramSize ∧ 0x1000 ≤ s.cfg.ramSize - pb then
      modify fun s => { s with fTag := pageOf pc, fPtr := .ram pb, fPpn := some (pageNum pb) }
      pure (fetchPage s (.ram pb) pc)
    else if romBase ≤ pb ∧ s.cfg.romPresent then
      modify fun s => { s with fTag := pageOf pc, fPtr := .rom (pb - romBase), fPpn := none }
      pure (fetchPage s (.rom (pb - romBase)) pc)
    else
      let v ← physRead F pa 1
      pure (v.setWidth 8)

def fetchAt (F : Fault) (pc : Word) : M Byte := do
  let s ← get
  if pageOf pc = s.fTag then pure (fetchPage s s.fPtr pc) else fetchSlow F pc

end Tortoise.Emu
