import Tortoise.Lib.Patch
import Tortoise.Vfs.Exec

/-!
# Concurrent execs

Execs of any number of processes, interleaved wherever one of them sleeps.

* `Image.Exact`: the address space of a process after an exec has the text and the data of the file
  and zeros elsewhere.
* `execImage_ends`: an exec that is alone and succeeds leaves that.
* `execs_load_own_bytes`: so does one among others, as long as no exec puts bytes into `buf` while
  another has bytes there that it has not used.
* `exec_loads_foreign_bytes`: without this condition an exec can load the text of another file.
-/

namespace Tortoise.Exec

open Function Lib Lib.Resume List
open Kernel (Args Header u32 pageDown visited wraps sharedPde pdx userStackTop)
open Vfs (Fsys Req Reply Stat Chans Phase RpcWork chanDone ioRead enoexec enomem Kept
  kept_middle kept_nil kept_cons kept_cons_idle)

/-! ## Writing to an address space -/

theorem Space.put_eq (s : Space) (va : Nat) (b : Byte) :
    s.put va b = { s with bytes := blit s.bytes va [b] } := by
  unfold Space.put
  congr 1
  funext a
  unfold blit
  by_cases ha : a = va
  · subst ha
    simp
  · rw [update_of_ne ha, if_neg (by simp; omega)]

theorem copyToSpace_ok {bs : List Byte} {va : Nat} {s s' : Space}
    (hva : va + bs.length < 4294967296) (h : copyToSpace bs va s = .ok s') :
    s' = { s with bytes := blit s.bytes va bs } ∧
      ∀ a, va ≤ a → a < va + bs.length → s.present (a / 4096) = true := by
  induction bs generalizing va s with
  | nil =>
    cases h
    refine ⟨?_, fun a h1 h2 => absurd h2 (by simpa using h1)⟩
    rw [blit_nil]
  | cons b bs ih =>
    simp only [length_cons] at hva
    unfold copyToSpace at h
    split at h
    · cases h
    split at h
    · rename_i hp
      have hnext : u32 (va + 1) = va + 1 := Nat.mod_eq_of_lt (by omega)
      rw [hnext] at h
      obtain ⟨hs, hpres⟩ := ih (by omega) h
      refine ⟨?_, fun a h1 h2 => ?_⟩
      · rw [hs, Space.put_eq]
        have happ := blit_append s.bytes va [b] bs
        simp only [length_singleton, singleton_append] at happ
        rw [happ]
      · rcases Nat.eq_or_lt_of_le h1 with rfl | h1
        · exact hp
        · rw [length_cons] at h2
          exact hpres a (by omega) (by omega)
    · cases h

/-- Pages are added, and they are zeros. -/
theorem allocPages_blank {frame : Nat → Bool} {vas : List Nat} {s s' : Space}
    (h : allocPages frame vas s = .ok s') (hb : s.bytes = fun _ => 0) : s'.bytes = fun _ => 0 := by
  induction vas generalizing s with
  | nil =>
    cases h
    exact hb
  | cons va vas ih =>
    unfold allocPages at h
    split at h
    · cases h
    split at h
    · exact ih h hb
    split at h
    · refine ih h ?_
      funext a
      simp [Space.addPage, hb]
    · cases h

theorem allocUser_blank {frame : Nat → Bool} {lo hi : Nat} {s s' : Space}
    (h : allocUser frame lo hi s = .ok s') (hb : s.bytes = fun _ => 0) : s'.bytes = fun _ => 0 := by
  unfold allocUser at h
  split at h
  · cases h
  · exact allocPages_blank h hb

theorem makeSpace_blank {f : Fortune} {h : Header} {a : Args} {s : Space}
    (hs : makeSpace f h a = .ok s) : s.bytes = fun _ => 0 := by
  unfold makeSpace at hs
  split at hs
  · cases hs
  split at hs
  · cases hs
  rename_i s₁ h₁
  have hb₁ := allocUser_blank h₁ rfl
  split at hs
  · cases hs
  rename_i s₂ h₂
  have hb₂ : s₂.bytes = fun _ => 0 := by
    split at h₂
    · exact allocUser_blank h₂ hb₁
    · cases h₂
      exact hb₁
  exact allocUser_blank hs hb₂

/-! ## What a file gives -/

/-- What the bytes of files are: a read that gives bytes gives those of the file. -/
structure Holds {V C : Type} (F : Fsys V C) (content : V → List Byte) : Prop where
  inside : ∀ v off n b, F.data v off n = .ok b → b <+: (content v).drop off
  served : ∀ v c off n b, F.chan v = some c → F.server c (.read v off n) = .data b →
    b.take n <+: (content v).drop off

/-- The header of a file. -/
def headerOf (content : List Byte) : Header := header (content.take 32) content.length

/-- The byte of a file for an address: its data, its text where the data does not lie over it, and
zero elsewhere. -/
def fileByte (content : List Byte) (a : Nat) : Option Byte :=
  let h := headerOf content
  if h.da.toNat ≤ a ∧ a < h.da.toNat + h.dsz.toNat then
    content[32 + h.ts.toNat + (a - h.da.toNat)]?
  else if h.ta.toNat ≤ a ∧ a < h.ta.toNat + h.ts.toNat then content[32 + (a - h.ta.toNat)]?
  else some 0

/-- The text and the data are there, and every byte below the stack is the one the file gives. -/
structure Exact (content : List Byte) (im : Loaded) : Prop where
  text : ∀ a, (headerOf content).ta.toNat ≤ a →
    a < (headerOf content).ta.toNat + (headerOf content).ts.toNat →
    im.space.present (a / 4096) = true
  data : ∀ a, (headerOf content).da.toNat ≤ a →
    a < (headerOf content).da.toNat + (headerOf content).dsz.toNat →
    im.space.present (a / 4096) = true
  bytes : ∀ a < im.usp, fileByte content a = some (im.space.bytes a)
  entry : im.pc = (headerOf content).entry.toNat

/-- The end of the data and of the zeros after it does not pass the end of the address space. -/
def NoWrap (content : List Byte) : Prop :=
  (headerOf content).da.toNat + (headerOf content).dsz.toNat + 3 + (headerOf content).bs.toNat <
    4294967296

/-! ## An exec that is alone -/

section Alone

variable {V C : Type} [DecidableEq C] {F : Fsys V C} {content : V → List Byte} {v : V}

/-- Bytes are taken from `buf` only by an exec that has put them there. -/
def Allowed : Ask V C → Option (List Byte) → Prop
  | .take n, w => ∃ b, w = some b ∧ n ≤ b.length
  | _, _ => True

/-- What a read returns are bytes of the file, and `P` holds of them. -/
def Reads (file : List Byte) (off : Nat) (P : List Byte → Option (List Byte) → Prop)
    (r : Except Int (List Byte)) (w : Option (List Byte)) : Prop :=
  ∀ b, r = .ok b → b <+: file.drop off ∧ (b ≠ [] → P b w)

theorem reads_error (file : List Byte) (off : Nat) (P : List Byte → Option (List Byte) → Prop)
    (e : Int) (w : Option (List Byte)) : Reads file off P (.error e) w :=
  fun _ h => by cases h

/-- `io` reads bytes of the file, and has stored what it returns. -/
theorem ioRead_ends (hF : Holds F content) {c : C} (hc : F.chan v = some c)
    {store : List Byte → Routine V C Unit} {P : List Byte → Option (List Byte) → Prop}
    (hstore : ∀ b w, Ends (kernel F) Allowed (fun _ w' => P b w') w (store b)) (off n : Nat)
    (w : Option (List Byte)) :
    Ends (kernel F) Allowed (Reads (content v) off P) w (ioRead F rpc store c v off n) := by
  have hquit (e : Int) (w : Option (List Byte)) :
      Ends (kernel F) Allowed (Reads (content v) off P) w
        (.ask (.rpc c .clunk) fun _ => .done (.error e)) :=
    ⟨trivial, reads_error _ _ _ _ _⟩
  unfold ioRead
  refine ⟨trivial, ?_⟩
  dsimp only [Prog.bind, kernel, alone]
  split
  · exact reads_error _ _ _ _ _
  · refine ⟨trivial, ?_⟩
    dsimp only [Prog.bind, kernel, alone]
    split
    · exact hquit _ w
    · split
      · refine ⟨trivial, fun b h => ?_⟩
        cases h
        exact ⟨ nil_prefix, fun h => absurd rfl h⟩
      · refine ⟨trivial, ?_⟩
        dsimp only [Prog.bind, kernel, alone]
        split
        · exact hquit _ w
        · rename_i b hb
          refine (hstore _ w).bind fun _ w' hw' => ⟨trivial, fun b' h => ?_⟩
          cases h
          exact ⟨hF.served v c off _ b hc hb, fun _ => hw'⟩
        · exact hquit _ w
    · exact hquit _ w
  · exact reads_error _ _ _ _ _

theorem fileSize_ends (w : Option (List Byte)) :
    Ends (kernel F) Allowed (fun _ _ => True) w (fileSize F v) := by
  unfold fileSize
  split
  · trivial
  · refine ⟨trivial, ?_⟩
    dsimp only [Prog.bind, kernel, alone]
    split <;> trivial

theorem vfsRead_ends (hF : Holds F content) (off n : Nat) (w : Option (List Byte)) :
    Ends (kernel F) Allowed (Reads (content v) off fun _ _ => True) w (vfsRead F v off n) := by
  unfold vfsRead
  split
  · exact fun b hb => ⟨hF.inside v off n b hb, fun _ => trivial⟩
  · rename_i c hc
    have hstore (b : List Byte) (w : Option (List Byte)) :
        Ends (kernel F) Allowed (fun _ _ => True) w (pure () : Routine V C Unit) := trivial
    exact ioRead_ends hF hc hstore off n w

theorem readHeader_ends (hF : Holds F content) (w : Option (List Byte)) :
    Ends (kernel F) Allowed (fun r _ => ∀ h, r = some h → h = (content v).take 32) w
      (readHeader F v) := by
  refine (vfsRead_ends hF 0 32 w).bind fun r _ hr => ?_
  split
  · exact fun _ h => by cases h
  · rename_i h
    intro h' hh
    split at hh
    · rename_i hlen
      cases hh
      have hp := prefix_iff_eq_take.1 (hr h rfl).1
      rw [hlen, drop_zero] at hp
      exact hp
    · cases hh

/-- A piece that is used is a piece of the file. -/
theorem readPiece_ends (hF : Holds F content) {off k : Nat} (hk : k ≠ 0) (w : Option (List Byte)) :
    Ends (kernel F) Allowed
      (fun r _ => ∀ b, r = some b → b = ((content v).drop off).take k ∧ b.length = k) w
      (readPiece F v off k) := by
  unfold readPiece
  split
  · split
    · exact fun _ h => by cases h
    · rename_i b hb
      refine ⟨trivial, fun b' h => ?_⟩
      split at h
      · rename_i hlen
        cases h
        have hp := prefix_iff_eq_take.1 (hF.inside v off k b hb)
        rw [hlen] at hp
        exact ⟨hp, hlen⟩
      · cases h
  · rename_i c hc
    have hfill (b : List Byte) (w : Option (List Byte)) :
        Ends (kernel F) Allowed (fun _ w' => w' = some b) w (fill b) := ⟨trivial, rfl⟩
    refine (ioRead_ends hF hc hfill off k w).bind fun r w' hr => ?_
    split
    · exact fun _ h => by cases h
    · rename_i b
      obtain ⟨hpre, hw'⟩ := hr b rfl
      split
      · rename_i hlen
        have hne : b ≠ [] := fun h => hk (by rw [← hlen, h]; rfl)
        obtain rfl := hw' hne
        refine ⟨⟨b, rfl, hlen.ge⟩, fun b' h => ?_⟩
        cases h
        have hp := prefix_iff_eq_take.1 hpre
        show List.take k b = _ ∧ (List.take k b).length = k
        rw [take_of_length_le hlen.le]
        rw [hlen] at hp
        exact ⟨hp, hlen⟩
      · exact fun _ h => by cases h

/-- The segment of a file is in the address space. -/
structure HasSegment (file : List Byte) (foff va n : Nat) (s s' : Space) : Prop where
  loaded : s' = { s with bytes := blit s.bytes va ((file.drop foff).take n) }
  full : n ≤ (file.drop foff).length
  present : ∀ a, va ≤ a → a < va + n → s.present (a / 4096) = true

theorem hasSegment_zero (file : List Byte) (foff va : Nat) (s : Space) :
    HasSegment file foff va 0 s s :=
  ⟨by rw [take_zero, blit_nil], Nat.zero_le _, fun a h1 h2 => by omega⟩

/-- The rest of a segment after its first piece. -/
theorem HasSegment.piece {file : List Byte} {foff va n k : Nat} {s s₁ s₂ : Space} (hk : k ≤ n)
    (h₁ : HasSegment file foff va k s s₁) (h₂ : HasSegment file (foff + k) (va + k) (n - k) s₁ s₂) :
    HasSegment file foff va n s s₂ where
  loaded := by
    have hlen : ((file.drop foff).take k).length = k := by
      rw [length_take]
      exact min_eq_left h₁.full
    have happ := blit_append s.bytes va ((file.drop foff).take k)
      ((file.drop (foff + k)).take (n - k))
    rw [hlen, ← drop_drop, ← take_add, Nat.add_sub_cancel' hk] at happ
    rw [h₂.loaded, h₁.loaded, ← drop_drop, happ]
  full := by
    have h := h₁.full
    have h' := h₂.full
    rw [length_drop] at h h' ⊢
    omega
  present a h1 h2 := by
    by_cases ha : a < va + k
    · exact h₁.present a h1 ha
    · have h := h₂.present a (by omega) (by omega)
      rw [h₁.loaded] at h
      exact h

/-- **`load_seg`** leaves the bytes of the file in the address space. -/
theorem loadPieces_ends (hF : Holds F content) {m foff va n : Nat} (hm : n ≤ m) (s : Space)
    (w : Option (List Byte)) :
    Ends (kernel F) Allowed (fun r _ => foff + n < 4294967296 → va + n < 4294967296 →
      ∀ s', r = .ok s' → HasSegment (content v) foff va n s s') w
      (loadPieces F v m foff va n s) := by
  induction m generalizing foff va n s w with
  | zero =>
    obtain rfl : n = 0 := by omega
    intro _ _ s' hs'
    cases hs'
    exact hasSegment_zero _ _ _ s
  | succ m ih =>
    unfold loadPieces
    split
    · rename_i hn
      subst hn
      intro _ _ s' hs'
      cases hs'
      exact hasSegment_zero _ _ _ s
    · rename_i hn
      generalize hkdef : (if n > 512 then 512 else n) = k
      have hk : 0 < k ∧ k ≤ n := by
        split at hkdef <;> omega
      refine (readPiece_ends hF (by omega) w).bind fun r w' hr => ?_
      split
      · exact fun _ _ _ h => by cases h
      · rename_i b
        obtain ⟨hb, hlen⟩ := hr b rfl
        split
        · exact fun _ _ _ h => by cases h
        · rename_i s₁ hcopy
          refine (ih (by omega) s₁ w').mono fun r _ hrest hfoff hva s' hs' => ?_
          rw [show u32 (foff + k) = foff + k from Nat.mod_eq_of_lt (by omega),
            show u32 (va + k) = va + k from Nat.mod_eq_of_lt (by omega)] at hrest
          obtain ⟨hs₁, hpres⟩ := copyToSpace_ok (by omega) hcopy
          have hfirst : HasSegment (content v) foff va k s s₁ := by
            refine ⟨hb ▸ hs₁, ?_, fun a h1 h2 => hpres a h1 (by omega)⟩
            rw [hb, length_take] at hlen
            omega
          exact hfirst.piece hk.2 (hrest (by omega) (by omega) s' hs')

/-- What the checks of the header leave, when the end does not wrap. -/
theorem header_bounds {h : Header} (hb : h.bad = false)
    (hw : h.da.toNat + h.dsz.toNat + 3 + h.bs.toNat < 4294967296) :
    h.ts.toNat ≤ 0x10000000 ∧ h.dsz.toNat ≤ 0x10000000 ∧
      h.ta.toNat + h.ts.toNat ≤ 0x50000000 ∧ h.da.toNat + h.dsz.toNat ≤ 0x40000000 := by
  have hbend : h.bend = (h.da.toNat + h.dsz.toNat + 3) / 4 * 4 + h.bs.toNat := by
    unfold Header.bend u32
    omega
  simp only [Header.bad, Bool.or_eq_false_iff, decide_eq_false_iff_not, hbend] at hb
  omega

/-- The stack is above all that a file can have. -/
theorem args_place (a : Args) : 0x7FFF0000 ≤ a.sp ∧ a.sp ≤ a.base ∧
    a.base + a.strs.length < 4294967296 ∧
    a.sp + (a.ptrs.flatMap Args.word).length < 4294967296 := by
  have hs := a.strs_le
  have ha := a.aoff_le
  have he := a.eoff_le
  have hlen : (a.ptrs.flatMap Args.word).length = 4 * (a.aoff.length + 1 + a.eoff.length + 1) := by
    simp only [length_flatMap, Args.word, length_map, length_range,
      map_const', sum_replicate, Args.ptrs, length_append, length_cons,
      length_nil, smul_eq_mul]
    omega
  rw [hlen]
  unfold Args.sp Args.base userStackTop
  omega

/-- The strings and pointers leave everything below the stack pointer as it is. -/
theorem putArgs_ok {a : Args} {s s' : Space} (h : putArgs a s = .ok s') :
    s'.present = s.present ∧ ∀ x < a.sp, s'.bytes x = s.bytes x := by
  obtain ⟨-, hle, hbase, hsp⟩ := args_place a
  unfold putArgs at h
  split at h
  · cases h
  · rename_i s₁ hs₁
    rw [(copyToSpace_ok hsp h).1, (copyToSpace_ok hbase hs₁).1]
    refine ⟨rfl, fun x hx => ?_⟩
    show blit (blit s.bytes a.base a.strs) a.sp _ x = s.bytes x
    unfold blit
    rw [if_neg (by omega), if_neg (by omega)]

/-- Both segments are in the address space. -/
theorem loadImage_ends (hF : Holds F content) (h : Header) (s : Space) (w : Option (List Byte)) :
    Ends (kernel F) Allowed (fun r _ => h.bad = false →
      h.da.toNat + h.dsz.toNat + 3 + h.bs.toNat < 4294967296 → ∀ s₂, r = .ok s₂ → ∃ s₁,
      HasSegment (content v) 32 h.ta.toNat h.ts.toNat s s₁ ∧
      HasSegment (content v) (32 + h.ts.toNat) h.da.toNat h.dsz.toNat s₁ s₂) w
      (loadImage F v h s) := by
  refine (loadPieces_ends hF le_rfl s w).bind fun r w' hr => ?_
  split
  · exact fun _ _ _ h => by cases h
  · rename_i s₁
    refine (loadPieces_ends hF le_rfl s₁ w').mono fun r _ hr' hbad hw s₂ hs₂ => ?_
    obtain ⟨hts, hdsz, htext, hdata⟩ := header_bounds hbad hw
    exact ⟨s₁, hr (by omega) (by omega) s₁ rfl, hr' (by omega) (by omega) s₂ hs₂⟩

theorem segment_byte {file : List Byte} {foff va n a : Nat} {img : Nat → Byte}
    (hn : n ≤ (file.drop foff).length) (h1 : va ≤ a) (h2 : a < va + n) :
    file[foff + (a - va)]? = some (blit img va ((file.drop foff).take n) a) := by
  have hlen : ((file.drop foff).take n).length = n := by
    rw [length_take]
    exact min_eq_left hn
  have hget : ((file.drop foff).take n)[a - va]? = file[foff + (a - va)]? := by
    rw [List.getElem?_take, if_pos (by omega), List.getElem?_drop]
  rw [length_drop] at hn
  have hsome : file[foff + (a - va)]? = some (file.get ⟨foff + (a - va), by omega⟩) :=
    List.getElem?_eq_getElem _
  rw [hsome]
  congr 1
  refine (blit_covered (p := (va, (file.drop foff).take n)) ⟨h1, ?_⟩ (hget.trans hsome)).symm
  show a < va + ((file.drop foff).take n).length
  rw [hlen]
  exact h2

/-- What the two segments leave of an address space of zeros. -/
theorem image_bytes {file : List Byte} {s s₁ s₂ : Space} (hs : s.bytes = fun _ => 0)
    (htext : HasSegment file 32 (headerOf file).ta.toNat (headerOf file).ts.toNat s s₁)
    (hdata : HasSegment file (32 + (headerOf file).ts.toNat) (headerOf file).da.toNat
      (headerOf file).dsz.toNat s₁ s₂) (a : Nat) : fileByte file a = some (s₂.bytes a) := by
  have hout {n va foff : Nat} {img : Nat → Byte} (h : ¬(va ≤ a ∧ a < va + n)) :
      blit img va ((file.drop foff).take n) a = img a := by
    refine if_neg fun hc => h ⟨hc.1, hc.2.trans_le ?_⟩
    rw [length_take]
    omega
  rw [hdata.loaded, htext.loaded, hs]
  unfold fileByte
  simp only
  split
  · rename_i hin
    exact segment_byte hdata.full hin.1 hin.2
  · rename_i hd
    rw [hout hd]
    split
    · rename_i hin
      exact segment_byte htext.full hin.1 hin.2
    · rename_i ht
      rw [hout ht]

/-- **An exec that is alone** and succeeds has the bytes of its file. -/
theorem execImage_ends (hF : Holds F content) (c : Call V) (w : Option (List Byte)) :
    Ends (kernel F) Allowed
      (fun r _ => NoWrap (content c.v) → ∀ im, r = .ok im → Exact (content c.v) im) w
      (execImage F c) := by
  refine (fileSize_ends w).bind fun size w' _ => ?_
  refine (readHeader_ends hF w').bind fun r w' hr => ?_
  split
  · exact fun _ _ h => by cases h
  rename_i bytes
  obtain rfl := hr bytes rfl
  simp only
  split
  · exact fun _ _ h => by cases h
  rename_i hbad
  split
  · exact fun _ _ h => by cases h
  rename_i s hs
  have hblank := makeSpace_blank hs
  refine (loadImage_ends hF _ s w').bind fun r w' hr => ?_
  split
  · exact fun _ _ h => by cases h
  rename_i s₂
  split
  · exact fun _ _ h => by cases h
  rename_i s₃ hargs
  intro hw im him
  cases him
  obtain ⟨s₁, hseg₁, hseg₂⟩ := hr (eq_false_of_ne_true hbad) hw s₂ rfl
  obtain ⟨hpres, hbelow⟩ := putArgs_ok hargs
  refine ⟨fun a h1 h2 => ?_, fun a h1 h2 => ?_, fun a ha => ?_, rfl⟩
  · show s₃.present (a / 4096) = true
    rw [hpres, hseg₂.loaded, hseg₁.loaded]
    exact hseg₁.present a h1 h2
  · show s₃.present (a / 4096) = true
    rw [hpres, hseg₂.loaded]
    exact hseg₂.present a h1 h2
  · show fileByte (content c.v) a = some (s₃.bytes a)
    rw [hbelow a ha]
    exact image_bytes hblank hseg₁ hseg₂ a

end Alone

/-! ## Runs -/

section Runs

variable {V C : Type} [DecidableEq C] (F : Fsys V C)

/-- An exec under way. -/
abbrev Job (V C : Type) :=
  Task (Call V) (Ask V C) Answer (Except Fault Loaded) (Phase C) (Option (List Byte))

/-- The exec has put bytes into `buf` and has not used them. -/
def Pending (t : Job V C) : Prop := (∃ q k, t.prog = .ask q k) ∧ t.view ≠ none

/-- Bytes are put into `buf` only while no other exec has bytes there. -/
def Undisturbed (_ : Shared V C) (others : List (Job V C)) : (q : Ask V C) → Answer q → Prop
  | .fill _, _ => ∀ u ∈ others, ¬Pending u
  | .pass _, _ => ∀ u ∈ others, ¬Pending u
  | _, _ => True

/-- The states reached while execs do not disturb each other. -/
abbrev Reached (s₀ s : Shared V C) (l : List (Job V C)) : Prop :=
  Reach (kernel F) (execImage F) none Undisturbed s₀ s l

/-- What the exec has put into `buf` is there. -/
def Filled (s : Shared V C) (t : Job V C) : Prop :=
  ∀ q k b, t.prog = .ask q k → t.view = some b → s.buf.take b.length = b

/-- The exec will have the bytes of its file. -/
def Safe (content : V → List Byte) (t : Job V C) : Prop :=
  Ends (kernel F) Allowed
    (fun r _ => NoWrap (content t.call.v) → ∀ im, r = .ok im → Exact (content t.call.v) im)
    t.view t.prog

/-- The channels are apart, `buf` has what the execs have put there, and every exec is on the way
to the bytes of its file. -/
structure Inv (content : V → List Byte) (s : Shared V C) (l : List (Job V C)) : Prop where
  kept : Kept F rpcOf s.chans l
  filled : ∀ t ∈ l, Filled s t
  safe : ∀ t ∈ l, Safe F content t

variable {F} {content : V → List Byte} {s s' : Shared V C} {a b : List (Job V C)} {i : Call V}
  {q : Ask V C} {k : Answer q → Routine V C (Except Fault Loaded)} {p p' : Phase C}
  {w : Option (List Byte)} {x : Answer q}

section

variable (h : Inv F content s (a ++ ⟨i, .ask q k, p, w⟩ :: b))

include h

theorem Inv.work (hw : (kernel F).work q p s p' s') :
    Inv F content s' (a ++ ⟨i, .ask q k, p', w⟩ :: b) := by
  cases q with
  | rpc c t =>
    obtain ⟨hbuf, hw⟩ := hw
    obtain ⟨hfill, hothers⟩ := forall_middle.1 h.filled
    refine ⟨kept_middle.2 ?_, forall_middle.2 ⟨?_, fun u hu => ?_⟩, ?_⟩
    · refine (kept_middle.1 h.kept).rpc (fun r hr => ?_) hw
      cases hr
      rfl
    · intro q' k' b' _ hv
      rw [hbuf]
      exact hfill _ _ b' rfl hv
    · intro q' k' b' hq hv
      rw [hbuf]
      exact hothers u hu q' k' b' hq hv
    · obtain ⟨hsafe, hrest⟩ := forall_middle.1 h.safe
      exact forall_middle.2 ⟨hsafe, hrest⟩
  | fill | pass | take => exact hw.elim

/-- An answer as to an exec that is alone keeps the invariant. -/
theorem Inv.answered (hx : x = ((kernel F).alone q w).1) (hkept : Kept F rpcOf s'.chans (a ++ b))
    (hown : ∀ b', ((kernel F).alone q w).2 = some b' → s'.buf.take b'.length = b')
    (hothers : ∀ u ∈ a ++ b, Filled s' u) :
    Inv F content s' (a ++ ⟨i, k x, .idle, ((kernel F).alone q w).2⟩ :: b) := by
  obtain ⟨hsafe, hrest⟩ := forall_middle.1 h.safe
  refine ⟨kept_middle.2 ((kept_cons_idle rfl).2 hkept),
    forall_middle.2 ⟨fun _ _ b' _ hv => hown b' hv, hothers⟩, forall_middle.2 ⟨?_, hrest⟩⟩
  rw [hx]
  exact hsafe.2

/-- **The answers** to an exec are those it would get alone. -/
theorem Inv.answer (ha : (kernel F).answer q p s x s') (hm : Undisturbed s (a ++ b) q x) :
    x = ((kernel F).alone q w).1 ∧
      Inv F content s' (a ++ ⟨i, k x, .idle, ((kernel F).alone q w).2⟩ :: b) := by
  have hkept := kept_middle.1 h.kept
  have hrest := (kept_cons.1 hkept).1
  obtain ⟨hfill, hothers⟩ := forall_middle.1 h.filled
  have hallowed := (forall_middle.1 h.safe).1.1
  -- nobody else has bytes in a buffer that is filled
  have hnone {s' : Shared V C} (hp : ∀ u ∈ a ++ b, ¬Pending u) : ∀ u ∈ a ++ b, Filled s' u := by
    intro u hu q' k' b' hq hv
    exact absurd ⟨⟨q', k', hq⟩, by rw [hv]; simp⟩ (hp u hu)
  cases q with
  | rpc c t =>
    obtain ⟨rfl, hx, rfl⟩ := ha
    have hx' := hx.trans (hkept.own_reply rfl)
    exact ⟨hx', h.answered hx' (hkept.release rfl) (fun b' hv => hfill _ _ b' rfl hv) hothers⟩
  | fill b' =>
    obtain ⟨-, rfl⟩ := ha
    refine ⟨rfl, h.answered rfl hrest (fun b'' hv => ?_) (hnone hm)⟩
    cases hv
    exact take_overlay _ _
  | pass b' =>
    obtain ⟨-, hx, rfl⟩ := ha
    have hx' := hx.trans (take_overlay _ _)
    exact ⟨hx', h.answered hx' hrest (fun b'' hv => by cases hv) (hnone hm)⟩
  | take n =>
    obtain ⟨-, hx, rfl⟩ := ha
    obtain ⟨b', rfl, hn⟩ := hallowed
    have hbuf := hfill _ _ b' rfl rfl
    have hx' : x = ((kernel F).alone (.take n) (some b')).1 := by
      rw [hx]
      show s'.buf.take n = b'.take n
      rw [← hbuf, take_take, min_eq_left hn]
    exact ⟨hx', h.answered hx' hrest (fun b'' hv => by cases hv) hothers⟩

end

theorem Inv.call {l : List (Job V C)} (hF : Holds F content) (h : Inv F content s l) (i : Call V) :
    Inv F content s (Task.start (kernel F) (execImage F) none i :: l) := by
  refine ⟨(kept_cons_idle rfl).2 h.kept, forall_mem_cons.2 ⟨?_, h.filled⟩,
    forall_mem_cons.2 ⟨execImage_ends hF i none, h.safe⟩⟩
  exact fun _ _ _ _ hv => by cases hv

theorem rule (hF : Holds F content) (s₀ : Shared V C) :
    Rule (kernel F) (execImage F) none Undisturbed s₀ (Inv F content) where
  start := ⟨kept_nil _, by simp, by simp⟩
  call i h := h.call hF i
  work h hw := h.work hw
  answer h ha hm := h.answer ha hm

/-- **Concurrent execs load their own bytes** while none of them puts bytes into `buf` that another
has yet to use: whatever else runs, an exec that succeeds leaves its process with the text and the
data of its file. -/
theorem execs_load_own_bytes (hF : Holds F content) {s₀ s : Shared V C} {l : List (Job V C)}
    {t : Job V C} {im : Loaded} (hr : Reached F s₀ s l) (ht : t ∈ l)
    (hd : t.prog = .done (.ok im)) (hw : NoWrap (content t.call.v)) :
    Exact (content t.call.v) im := by
  have hsafe := ((rule hF s₀).onWay hr).1.safe t ht
  unfold Safe at hsafe
  rw [hd] at hsafe
  exact hsafe hw im rfl

end Runs

/-! ## Where it fails -/

section Example

/-- A routine after some of its calls of `rpc`, all on the channel `d`. -/
def afterRpcs {V C α : Type} [DecidableEq C] (F : Fsys V C) (d : C) :
    Nat → Routine V C α → Routine V C α
  | n + 1, .ask (.rpc c t) k =>
    if c = d then afterRpcs F d n (k (F.server c t)) else .ask (.rpc c t) k
  | _, p => p

variable {V C : Type} [DecidableEq C] {F : Fsys V C}
  {M : Shared V C → List (Job V C) → (q : Ask V C) → Answer q → Prop} {s₀ s : Shared V C}
  {a b : List (Job V C)} {i : Call V} {w : Option (List Byte)}

/-- The server's answer to an exec that has the channel. -/
theorem reach_reply (hM : ∀ s l c t x, M s l (.rpc c t) x) {d : C} {t : Req V}
    {k : Reply V → Routine V C (Except Fault Loaded)}
    (h : Reach (kernel F) (execImage F) none M s₀ s
      (a ++ ⟨i, .ask (.rpc d t) k, .holding d, w⟩ :: b)) :
    ∃ s', s'.buf = s.buf ∧ s'.chans.busy = update s.chans.busy d false ∧
      Reach (kernel F) (execImage F) none M s₀ s' (a ++ ⟨i, k (F.server d t), .idle, w⟩ :: b) := by
  let s₁ : Shared V C := ⟨s.buf, ⟨s.chans.busy, update s.chans.rb d (F.server d t)⟩⟩
  have hreply : (kernel F).work (.rpc d t) (.holding d) s (.answered d) s₁ := ⟨rfl, .reply s.chans⟩
  have hanswer : (kernel F).answer (.rpc d t) (.answered d) s₁ (F.server d t)
      ⟨s.buf, chanDone d s₁.chans⟩ := ⟨rfl, (update_self d (F.server d t) s.chans.rb).symm, rfl⟩
  exact ⟨⟨s.buf, chanDone d s₁.chans⟩, rfl, rfl,
    (h.step (.work hreply)).step (.answer hanswer (hM _ _ d t _))⟩

/-- An exec finds its channel free and takes it. -/
theorem reach_take {d : C} {t : Req V} {k : Reply V → Routine V C (Except Fault Loaded)}
    (h : Reach (kernel F) (execImage F) none M s₀ s (a ++ ⟨i, .ask (.rpc d t) k, .idle, w⟩ :: b))
    (hfree : s.chans.busy d = false) :
    Reach (kernel F) (execImage F) none M s₀ ⟨s.buf, ⟨update s.chans.busy d true, s.chans.rb⟩⟩
      (a ++ ⟨i, .ask (.rpc d t) k, .holding d, w⟩ :: b) := by
  have htake : (kernel F).work (.rpc d t) .idle s (.holding d)
      ⟨s.buf, ⟨update s.chans.busy d true, s.chans.rb⟩⟩ := ⟨rfl, .take s.chans hfree⟩
  exact h.step (.work htake)

/-- An exec can go on with its calls of `rpc` while its channel is free. -/
theorem reach_rpcs (hM : ∀ s l c t x, M s l (.rpc c t) x) {d : C}
    {p : Routine V C (Except Fault Loaded)} (n : Nat)
    (h : Reach (kernel F) (execImage F) none M s₀ s (a ++ ⟨i, p, .idle, w⟩ :: b))
    (hfree : s.chans.busy d = false) :
    ∃ s', s'.buf = s.buf ∧ s'.chans.busy = s.chans.busy ∧
      Reach (kernel F) (execImage F) none M s₀ s' (a ++ ⟨i, afterRpcs F d n p, .idle, w⟩ :: b) := by
  induction n generalizing s p with
  | zero => exact ⟨s, rfl, rfl, h⟩
  | succ n ih =>
    match p, h with
    | .done r, h => exact ⟨s, rfl, rfl, h⟩
    | .ask (.fill _) k, h => exact ⟨s, rfl, rfl, h⟩
    | .ask (.pass _) k, h => exact ⟨s, rfl, rfl, h⟩
    | .ask (.take _) k, h => exact ⟨s, rfl, rfl, h⟩
    | .ask (.rpc c t) k, h =>
      rw [afterRpcs]
      split
      · next hc =>
        subst hc
        obtain ⟨s₁, hbuf₁, hbusy₁, h₁⟩ := reach_reply hM (reach_take h hfree)
        have hsame : s₁.chans.busy = s.chans.busy := by
          rw [hbusy₁, update_idem, ← hfree, update_eq_self]
        obtain ⟨s₂, hbuf₂, hbusy₂, h₂⟩ := ih h₁ (by rw [hsame, hfree])
        exact ⟨s₂, hbuf₂.trans hbuf₁, hbusy₂.trans hsame, h₂⟩
      · exact ⟨s, rfl, rfl, h⟩

/-- A file with a text of four times `x` at the bottom of the address space. -/
def tiny (x : Byte) : List Byte :=
  [0x54, 0x45, 0x58, 0x31, 0, 0, 0x40, 0, 0, 0, 0x40, 0, 4, 0, 0, 0, 4, 0, 0x40, 0, 0, 0, 0, 0,
    0, 0, 0, 0, 0, 0, 0, 0, x, x, x, x]

/-- Two files. -/
def files : Bool → List Byte
  | false => tiny 0x11
  | true => tiny 0x22

/-- Each of the files is on a server of its own. -/
def twoFiles : Fsys Bool Bool where
  chan v := some v
  room _ := 8192
  server _
    | .read v off n => .data (((files v).drop off).take n)
    | .stat _ => .stat ⟨36⟩
    | _ => .ok
  attr _ := none
  data _ _ _ := .error Vfs.einval

theorem twoFiles_holds : Holds twoFiles files where
  inside v off n b h := by cases h
  served v c off n b _ h := by
    cases h
    rw [take_take, min_self]
    exact take_prefix ..

/-- An exec of one of the files, with no arguments and enough memory. -/
def run (v : Bool) : Call Bool where
  v := v
  args := ⟨[], [], [], by decide, by decide, by decide⟩
  fortune := ⟨true, true, fun _ => true, fun _ => true, fun _ => true⟩

/-- What an exec of one of the files does after its header is read. -/
theorem run_stages (v : Bool) : ∃ (k₁ : Unit → Routine Bool Bool (Except Fault Loaded))
    (k₂ : Reply Bool → Routine Bool Bool (Except Fault Loaded))
    (k₃ : List Byte → Routine Bool Bool (Except Fault Loaded)),
    afterRpcs twoFiles v 8 (execImage twoFiles (run v)) = .ask (.fill ((files v).drop 32)) k₁ ∧
      k₁ () = .ask (.rpc v .clunk) k₂ ∧ k₂ .ok = .ask (.take 4) k₃ ∧
      ∀ x, ∃ im, k₃ [x, x, x, x] = .done (.ok im) ∧ im.space.bytes 0x400000 = x ∧
        im.usp = 0x7FFFEFF8 := by
  cases v
  · exact ⟨_, _, _, rfl, rfl, rfl, fun _ => ⟨_, rfl, rfl, rfl⟩⟩
  · exact ⟨_, _, _, rfl, rfl, rfl, fun _ => ⟨_, rfl, rfl, rfl⟩⟩

/-- Before any exec. -/
def zeroed : Shared Bool Bool := ⟨List.replicate 512 0, ⟨fun _ => false, fun _ => .ok⟩⟩

variable {N : Shared Bool Bool → List (Job Bool Bool) → (q : Ask Bool Bool) → Answer q → Prop}
  {r r₀ : Shared Bool Bool} {d e : List (Job Bool Bool)} {v : Bool}

/-- An exec gets to where it has put the text of its file into `buf` and sleeps in `clunk`, with its
channel.  From there it gets, with four times `x` in `buf`, to its end. -/
theorem run_reaches (hN : ∀ s l c t x, N s l (.rpc c t) x)
    (hfill : ∀ s b, N s (d ++ e) (.fill b) ()) (htake : ∀ s l n x, N s l (.take n) x)
    (h : Reach (kernel twoFiles) (execImage twoFiles) none N r₀ r
      (d ++ ⟨run v, execImage twoFiles (run v), .idle, none⟩ :: e))
    (hfree : r.chans.busy v = false) :
    ∃ t r', t.phase = .holding v ∧ r'.buf.take 4 = (files v).drop 32 ∧
      r'.chans.busy = update r.chans.busy v true ∧
      Reach (kernel twoFiles) (execImage twoFiles) none N r₀ r' (d ++ t :: e) ∧
      ∀ {r d e x}, r.buf.take 4 = [x, x, x, x] →
        Reach (kernel twoFiles) (execImage twoFiles) none N r₀ r (d ++ t :: e) →
        ∃ r' im, Reach (kernel twoFiles) (execImage twoFiles) none N r₀ r'
          (d ++ ⟨run v, .done (.ok im), .idle, none⟩ :: e) ∧
          im.space.bytes 0x400000 = x ∧ 0x400000 < im.usp := by
  obtain ⟨k₁, k₂, k₃, h₁, h₂, h₃, hdone⟩ := run_stages v
  obtain ⟨s₁, -, hbusy₁, hr₁⟩ := reach_rpcs hN (d := v) 8 h hfree
  rw [h₁] at hr₁
  have hans : (kernel twoFiles).answer (.fill ((files v).drop 32)) .idle s₁ ()
      ⟨overlay ((files v).drop 32) s₁.buf, s₁.chans⟩ := ⟨rfl, rfl⟩
  have hr₂ := hr₁.step (.answer hans (hfill _ _))
  rw [h₂] at hr₂
  have hr₃ := reach_take hr₂ (by rw [hbusy₁, hfree])
  refine ⟨⟨run v, .ask (.rpc v .clunk) k₂, .holding v, some ((files v).drop 32)⟩, _, rfl, ?_,
    congrArg (update · v true) hbusy₁, hr₃, fun {r d e x} hbuf hr => ?_⟩
  · have hlen : ((files v).drop 32).length = 4 := by cases v <;> rfl
    have hbuf := take_overlay ((files v).drop 32) s₁.buf
    rw [hlen] at hbuf
    exact hbuf
  · obtain ⟨s₄, hbuf₄, -, hr₄⟩ := reach_reply hN hr
    rw [show twoFiles.server v .clunk = .ok from rfl, h₃] at hr₄
    obtain ⟨im, him, hbyte, husp⟩ := hdone x
    have hans : (kernel twoFiles).answer (.take 4) .idle s₄ [x, x, x, x] s₄ :=
      ⟨rfl, (hbuf₄ ▸ hbuf).symm, rfl⟩
    have hr₅ := hr₄.step (.answer hans (htake _ _ _ _))
    rw [him] at hr₅
    exact ⟨s₄, im, hr₅, hbyte, by omega⟩

theorem run_noWrap (v : Bool) : NoWrap (files v) := by
  unfold NoWrap
  cases v <;> decide

/-- An exec that has succeeded, with another one begun. -/
theorem execs_load_own_bytes_two : ∃ s l t im, Reached twoFiles zeroed s l ∧ t ∈ l ∧
    t.prog = .done (.ok im) ∧ NoWrap (files t.call.v) ∧ Exact (files t.call.v) im := by
  have hcall : Reached twoFiles zeroed zeroed
      ([] ++ ⟨run false, execImage twoFiles (run false), .idle, none⟩ :: []) :=
    Reach.start.step (.call zeroed [] (run false))
  obtain ⟨t, s₁, -, hbuf, -, hr₁, hgo⟩ := run_reaches (fun _ _ _ _ _ => trivial)
    (fun _ _ u hu => by cases hu) (fun _ _ _ _ => trivial) hcall rfl
  obtain ⟨s₂, im, hr₂, -⟩ := hgo hbuf hr₁
  have hr₃ := hr₂.step (.call s₂ _ (run true))
  exact ⟨_, _, ⟨run false, .done (.ok im), .idle, none⟩, im, hr₃, by simp, rfl, run_noWrap false,
    execs_load_own_bytes twoFiles_holds hr₃ (by simp) rfl (run_noWrap false)⟩

/-- **An exec can load the text of another file.**  The first exec has put its text into `buf` and
sleeps in `clunk`, where it has its channel; the second, on the other channel, puts its own text
there; the first goes on and copies that to its address space. -/
theorem exec_loads_foreign_bytes : ∃ s l t im,
    Reach (kernel twoFiles) (execImage twoFiles) none (fun _ _ _ _ => True) zeroed s l ∧ t ∈ l ∧
      t.call = run false ∧ t.prog = .done (.ok im) ∧ NoWrap (files false) ∧
      ¬Exact (files false) im := by
  have hcall : Reach (kernel twoFiles) (execImage twoFiles) none (fun _ _ _ _ => True) zeroed zeroed
      ([⟨run true, execImage twoFiles (run true), .idle, none⟩] ++
        ⟨run false, execImage twoFiles (run false), .idle, none⟩ :: []) :=
    (Reach.start.step (.call zeroed [] (run false))).step (.call zeroed _ (run true))
  obtain ⟨t, s₁, -, -, hbusy₁, hr₁, hgo⟩ := run_reaches (fun _ _ _ _ _ => trivial)
    (fun _ _ => trivial) (fun _ _ _ _ => trivial) hcall rfl
  obtain ⟨u, s₂, -, hbuf₂, -, hr₂, -⟩ := run_reaches (d := []) (fun _ _ _ _ _ => trivial)
    (fun _ _ => trivial) (fun _ _ _ _ => trivial) hr₁ (by rw [hbusy₁]; rfl)
  obtain ⟨s₃, im, hr₃, hbyte, husp⟩ := hgo (d := [u]) (e := []) hbuf₂ hr₂
  refine ⟨_, _, ⟨run false, .done (.ok im), .idle, none⟩, im, hr₃, by simp, rfl, rfl,
    run_noWrap false, fun hexact => ?_⟩
  have hown := hexact.bytes 0x400000 husp
  rw [hbyte] at hown
  exact absurd hown (by decide)

end Example

end Tortoise.Exec
