import Mathlib.Data.List.TakeWhile
import Tortoise.P9.Messages

/-!
# The encoders write the format

`putBody` writes the body of the message with its strings cut at their NULs, and `sizeBody` is the
length of it modulo `2 ^ 32`.  The two agree with the true length, and with what fits the fields,
exactly when the counts of the message are storable.

* `putBody_eq`, `sizeS2M_eq`: the encoders in terms of the format;
* `cut_eq_self_iff`: cutting strings loses nothing exactly when no string holds a NUL;
* `convS2M_exact`: what `convS2M` stores for a storable message is that message.
-/

namespace Tortoise.P9

open Lib.Cursor BitVec List

variable {f : FcallV} {t : MType} {s : Shape} {n : Word}

/-! ## Strings and NULs -/

theorem text_eq_self_iff {s : List Byte} : text s = s ↔ 0 ∉ s := by
  rw [text, takeWhile_eq_self_iff]
  constructor
  · intro h h0
    simpa using h 0 h0
  · intro h x hx
    simp only [ne_eq, decide_not, Bool.not_eq_eq_eq_not, Bool.not_true, decide_eq_false_iff_not]
    rintro rfl
    exact h hx

theorem text_text (s : List Byte) : text (text s) = text s := by
  simp [text, takeWhile_takeWhile]

theorem length_text_le (s : List Byte) : (text s).length ≤ s.length :=
  (takeWhile_sublist _).length_le

theorem length_text_eq_iff {s : List Byte} : (text s).length = s.length ↔ 0 ∉ s := by
  rw [← text_eq_self_iff]
  constructor
  · exact ( takeWhile_prefix _).eq_of_length
  · exact congrArg List.length

@[simp] theorem length_str (s : List Byte) : (str s).length = 2 + s.length := by
  simp [str]

/-- The bytes of strings from their first NULs on. -/
def lost (l : List (List Byte)) : Nat := (l.map fun s => s.length - (text s).length).sum

theorem nulFree_of_lost {l : List (List Byte)} (h : lost l = 0) : ∀ s ∈ l, 0 ∉ s := by
  intro s hs
  have h0 := List.sum_eq_zero_iff_forall_eq_nat.mp h _ (mem_map_of_mem hs)
  have := length_text_le s
  exact length_text_eq_iff.mp (by omega)

theorem length_names_cut (l : List (List Byte)) :
    (l.flatMap str).length = ((l.map text).flatMap str).length + lost l := by
  induction l with
  | nil => rfl
  | cons s l ih =>
    have := length_text_le s
    simp only [lost, map_cons, flatMap_cons, length_append, length_str, sum_cons] at ih ⊢
    omega

theorem cut_eq_self {b : Body s} (h : ∀ x ∈ b.strings, 0 ∉ x) : b.cut = b := by
  have hmap : ∀ x ∈ b.strings, text x = x := fun x hx => text_eq_self_iff.mpr (h x hx)
  cases b with
  | walk i newfid wname =>
    have : wname.map text = wname := map_congr_left hmap |>.trans (map_id wname)
    rw [Body.cut, this]
  | _ => simp_all [Body.cut, Body.strings]

/-- A body shrinks by what its strings lose. -/
theorem length_cut (b : Body s) : b.print.length = b.cut.print.length + lost b.strings := by
  cases b with
  | walk i newfid wname =>
    have := length_names_cut wname
    simp only [Body.cut, Body.print, Body.strings, length_append, length_p32, length_p16]
    omega
  | version _ v | error v | create _ v _ _ =>
    have := length_text_le v
    simp [Body.cut, Body.print, Body.strings, lost]
    omega
  | auth _ u v | attach _ _ u v =>
    have := length_text_le u
    have := length_text_le v
    simp [Body.cut, Body.print, Body.strings, lost]
    omega
  | _ => rfl

theorem cut_cut (b : Body s) : b.cut.cut = b.cut := by
  cases b with
  | walk i newfid wname =>
    have : text ∘ text = text := funext text_text
    simp [Body.cut, this]
  | _ => simp [Body.cut, text_text]

/-! ## What is written -/

@[simp] theorem length_blob (d : Nat → Byte) (n : Nat) : (blob d n).length = n := by
  simp [blob]

theorem ofNat_toNat_word (x : Word) : BitVec.ofNat 32 x.toNat = x := by
  rw [ofNat_toNat, setWidth_eq]

theorem putBody_eq (t : MType) (f : FcallV) : putBody t f = (bodyOf t f).cut.print := by
  cases t with
  | twalk =>
    simp only [putBody, bodyOf, Body.cut, Body.print, flatMap_map, length_map]
    rfl
  | rread | twrite | rstat | twstat =>
    simp only [putBody, bodyOf, Body.cut, Body.print, length_blob, ofNat_toNat_word]
  | _ => rfl

theorem foldl_size (l : List (List Byte)) (n : Word) :
    l.foldl (fun n s => n + (2 + slen s)) n =
      n + BitVec.ofNat 32 ((l.map text).flatMap str).length := by
  induction l generalizing n with
  | nil => simp
  | cons s l ih =>
    rw [foldl_cons, ih, map_cons, flatMap_cons, length_append, length_str,
      ofNat_add, ofNat_add, BitVec.add_assoc]
    rfl

theorem sizeBody_eq (t : MType) (f : FcallV) :
    sizeBody t f = BitVec.ofNat 32 (bodyOf t f).cut.print.length := by
  cases t with
  | tversion | rversion | tauth | tattach | rerror | tcreate =>
    simp only [sizeBody, bodyOf, Body.cut, Body.print, length_append, length_p32, length_p8,
      length_str, slen]
    bv_omega
  | twalk =>
    simp only [sizeBody, bodyOf, Body.cut, Body.print, length_append, length_p32, length_p16,
      foldl_size, ofNat_add]
    rfl
  | rwalk =>
    have h : (f.wqid.flatMap pqid).length = 13 * f.wqid.length := by
      simp [length_flatMap, Nat.mul_comm]
    simp only [sizeBody, bodyOf, Body.cut, Body.print, length_append, length_p16, h]
    bv_omega
  | rread | twrite | rstat | twstat =>
    simp only [sizeBody, bodyOf, Body.cut, Body.print, length_append, length_p32, length_p16,
      length_blob]
    bv_omega
  | _ => rfl

theorem sizeS2M_eq (ht : MType.ofByte f.type = some t) :
    sizeS2M f = BitVec.ofNat 32 (7 + (bodyOf t f).cut.print.length) := by
  simp only [sizeS2M, ht, sizeBody_eq, ofNat_add]
  rfl

/-- Whatever the counts are, what is stored is the message of the cut body, with its size taken
modulo `2 ^ 32`. -/
theorem convS2M_eq (ht : MType.ofByte f.type = some t) (h : (convS2M f n).1 ≠ 0) :
    convS2M f n = (sizeS2M f, wire t f.tag (bodyOf t f).cut) := by
  simp only [convS2M, ht] at h ⊢
  split at h
  · exact absurd rfl h
  case isFalse hsize =>
    rw [if_neg hsize, putBody_eq, wire, ← sizeS2M_eq ht, ofByte_eq_some.mp ht]

theorem convS2M_fst {k : Word} (h0 : sizeS2M f ≠ 0) (hk : sizeS2M f ≤ k) :
    (convS2M f k).1 = sizeS2M f := by
  simp only [convS2M]
  rw [if_neg]
  · split
    · rfl
    case h_2 hnone =>
      rw [sizeS2M, hnone] at h0
      exact absurd rfl h0
  · rintro (h | h)
    · exact h0 h
    · exact absurd hk (BitVec.not_le.mpr h)

/-! ## Round trips -/

/-- The messages the codec is for: strings without NUL and shorter than `2 ^ 16` bytes, at most
`MAXWELEM` names or qids. -/
structure Valid (t : MType) (f : FcallV) : Prop where
  strings : ∀ x ∈ (bodyOf t f).strings, 0 ∉ x ∧ x.length < 65536
  elems : (bodyOf t f).elems ≤ maxwelem

/-- The counts of the message can be stored: the size does not wrap, and the length of a stat fits
its 16 bits. -/
def Storable (t : MType) (f : FcallV) : Prop :=
  match t with
  | .rread => 11 + f.count.toNat < 2 ^ 32
  | .twrite => 23 + f.count.toNat < 2 ^ 32
  | .rstat | .twstat => f.nstat.toNat < 65536
  | _ => True

theorem length_names_le {l : List (List Byte)} (h : ∀ x ∈ l, x.length < 65536) :
    (l.flatMap str).length ≤ l.length * 65537 := by
  induction l with
  | nil => simp
  | cons s l ih =>
    have hs := h s (by simp)
    have := ih fun x hx => h x (by simp [hx])
    simp only [flatMap_cons, length_append, length_str, length_cons]
    omega

theorem Valid.cut_eq (h : Valid t f) : (bodyOf t f).cut = bodyOf t f :=
  cut_eq_self fun x hx => (h.strings x hx).1

/-- A valid message with storable counts fits. -/
theorem Valid.fits (h : Valid t f) (hs : Storable t f) :
    (bodyOf t f).Fits ∧ 7 + (bodyOf t f).print.length < 2 ^ 32 := by
  obtain ⟨hstr, helems⟩ := h
  have hlen : ∀ x ∈ (bodyOf t f).strings, x.length < 65536 := fun x hx => (hstr x hx).2
  refine ⟨⟨hlen, helems, ?_⟩, ?_⟩
  · cases t with
    | rread | twrite =>
      simp only [bodyOf, Body.DataFits, length_blob]
      exact f.count.isLt
    | rstat | twstat =>
      simp only [bodyOf, Body.DataFits, length_blob]
      exact hs
    | _ => trivial
  · cases t with
    | twalk =>
      have h₁ : f.wname.length ≤ 16 := helems
      have h₂ := length_names_le (l := f.wname) hlen
      simp only [bodyOf, Body.print, length_append, length_p32, length_p16]
      omega
    | rwalk =>
      have h₁ : f.wqid.length ≤ 16 := helems
      have h₂ : (f.wqid.flatMap pqid).length = f.wqid.length * 13 := by simp [length_flatMap]
      simp only [bodyOf, Body.print, length_append, length_p16]
      omega
    | rread | twrite | rstat | twstat =>
      simp only [Storable] at hs
      simp only [bodyOf, Body.print, length_append, length_p32, length_p16, length_blob]
      omega
    | tversion | rversion | rerror | tcreate | tauth | tattach =>
      simp only [bodyOf, Body.strings, forall_mem_cons, not_mem_nil, false_implies,
        implies_true, and_true] at hlen
      simp only [bodyOf, Body.print, length_append, length_p32, length_p8, length_str]
      omega
    | _ => simp [bodyOf, Body.print]

theorem code_inj {t' : MType} (h : t.code = t'.code) : t = t' := by
  have := ofByte_eq_some.mpr h
  rw [ofByte_eq_some.mpr rfl] at this
  exact Option.some.inj this

theorem print_eq_of_wire {tag tag' : BitVec 16} {b b' : Body t.shape}
    (h : wire t tag b = wire t tag' b') : b.print = b'.print := by
  rw [wire, wire] at h
  exact append_inj_right h (by simp)

/-- A whole body leaves no way round the address space. -/
theorem reach_lt (b : Body t.shape) : reach t < b.print.length + 2 ^ 32 := by
  cases t with
  | rread | twrite =>
    cases b
    simp only [reach, Body.print, length_append, length_p32]
    omega
  | _ =>
    simp only [reach]
    omega

/-- What a round trip through the codec asks of `n` and the bytes stored: there are `n` of them,
the first four hold `n`, and wherever they lie `convM2S` returns `n` and the fields of the
message. -/
structure RoundTrip (t : MType) (f : FcallV) (n : Word) (bs : List Byte) : Prop where
  length : bs.length = n.toNat
  size : bs.take 4 = p32 n
  back : ∀ (m : Mem) (buf : Word) (g : FcallP), buf.toNat + n.toNat < 2 ^ 32 →
    window m buf n.toNat = bs → ∃ g' m', convM2S m buf n g = some (n, g', m') ∧
      g'.type = f.type ∧ g'.tag = f.tag ∧ bodyOf t (g'.read m') = bodyOf t f

theorem window_of_list {bs : List Byte} (h : bs.length ≤ 2 ^ 32) :
    window (fun x => bs.getD x.toNat 0) 0 bs.length = bs := by
  refine ext_getElem (length_window ..) fun i hi hi' => ?_
  rw [getElem_window]
  have hx : (0 + BitVec.ofNat 32 i : Word).toNat = i := by
    have hz : (0 : Word).toNat = 0 := rfl
    rw [toNat_add, hz, toNat_ofNat]
    omega
  rw [hx, getD_eq_getElem?_getD, List.getElem?_eq_getElem hi', Option.getD_some]

/-- **The codec loses nothing of a message it can store.** -/
theorem Storable.roundTrip (hs : Storable t f) (ht : MType.ofByte f.type = some t) (hv : Valid t f)
    (h : (convS2M f n).1 ≠ 0) : RoundTrip t f (convS2M f n).1 (convS2M f n).2 := by
  obtain ⟨hfits, hlt⟩ := hv.fits hs
  rw [convS2M_eq ht h, sizeS2M_eq ht, hv.cut_eq]
  have hsize := toNat_ofNat_of_lt hlt
  refine ⟨?_, ?_, fun m buf g hbuf hw => ?_⟩
  · rw [Exact.length ⟨hfits, hlt, rfl⟩, hsize]
  · rw [wire, List.append_assoc, List.append_assoc, take_left' (length_p32 _)]
  · obtain ⟨g', m', hg, htype, htag, hbody⟩ :=
      convM2S_complete hbuf le_rfl ⟨hfits, hlt, hw⟩ g
    exact ⟨g', m', hg, htype.trans (ofByte_eq_some.mp ht).symm, htag, hbody.trans hv.cut_eq⟩

/-- A round trip shows that the counts could be stored. -/
theorem RoundTrip.storable (ht : MType.ofByte f.type = some t) (hv : Valid t f)
    (h : (convS2M f n).1 ≠ 0) (hr : RoundTrip t f (convS2M f n).1 (convS2M f n).2) :
    Storable t f := by
  rw [convS2M_eq ht h, sizeS2M_eq ht, hv.cut_eq] at hr
  have hlen := hr.length
  have hwire : (wire t f.tag (bodyOf t f)).length = 7 + (bodyOf t f).print.length := by
    simp only [wire, length_append, length_p32, length_p8, length_p16]
  rw [hwire, toNat_ofNat] at hlen
  have hlt : 7 + (bodyOf t f).print.length < 2 ^ 32 := by omega
  have hsize := toNat_ofNat_of_lt hlt
  -- read the message back from address 0
  obtain ⟨m, hw⟩ : ∃ m, window m 0 (7 + (bodyOf t f).print.length) = wire t f.tag (bodyOf t f) :=
    ⟨_, hwire ▸ window_of_list (by omega)⟩
  have h7 : window m 0 7 = (wire t f.tag (bodyOf t f)).take 7 := by
    rw [← hw, take_window (by omega)]
  rw [← hsize] at hw
  have hbuf : (0 : Word).toNat + (BitVec.ofNat 32 (7 + (bodyOf t f).print.length)).toNat
      < 2 ^ 32 := by
    rw [hsize]
    exact (Nat.zero_add _).trans_lt hlt
  obtain ⟨g', m', hg, -, -, -⟩ := hr.back m 0 default hbuf hw
  obtain ⟨t', hacc⟩ := convM2S_eq_some hg
  obtain ⟨-, htype, -⟩ := wire_header h7
  obtain rfl : t' = t := code_inj (hacc.type_eq.symm.trans htype)
  have hreach := reach_lt (bodyOf t' f)
  obtain ⟨b, hexact, -⟩ := hacc.exact hbuf (by rw [hsize]; omega)
  have hprint := congrArg List.length (print_eq_of_wire (hw.symm.trans hexact.eq))
  have hdata := hexact.fits.data
  cases t' with
  | rread | twrite =>
    simp only [bodyOf, Body.print, length_append, length_p32, length_blob] at hlt
    simp only [Storable]
    omega
  | rstat | twstat =>
    cases b
    simp only [bodyOf, Body.print, length_append, length_p32, length_p16, length_blob]
      at hprint
    simp only [Body.DataFits] at hdata
    simp only [Storable]
    omega
  | _ => trivial

end Tortoise.P9
