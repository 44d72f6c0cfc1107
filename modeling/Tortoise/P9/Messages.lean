import Tortoise.P9.Decode

/-!
# Whole messages

A message on the wire is a size, a type, a tag and a body (`wire`).  `convM2S` reads exactly those
(`convM2S_complete`, `convM2S_accepts`), apart from an `Rread` or `Twrite` whose fixed fields
would lie past the top of the address space.  Directory entries are alike, but `convM2D` does not
look at what follows the last string.
-/

namespace Tortoise.P9

open Lib.Cursor BitVec

variable {tag : BitVec 16} {l : List Byte} {t : MType}

theorem ofByte_eq_some {b : Byte} : MType.ofByte b = some t ↔ b = t.code := by
  constructor
  · intro h
    unfold MType.ofByte at h
    split at h
    all_goals first
      | cases h
        rename_i hb
        exact eq_of_toNat_eq hb
      | cases h
  · rintro rfl
    cases t <;> rfl

/-! ## Messages -/

/-- The bytes of a message. -/
def wire (t : MType) (tag : BitVec 16) (b : Body t.shape) : List Byte :=
  p32 (BitVec.ofNat 32 (7 + b.print.length)) ++ p8 t.code ++ p16 (tag.setWidth 32) ++ b.print

/-- The bytes are a message of that type, tag and body: the declared size and all inner lengths fit
exactly. -/
structure Exact (l : List Byte) (t : MType) (tag : BitVec 16) (b : Body t.shape) : Prop where
  fits : b.Fits
  size_lt : 7 + b.print.length < 2 ^ 32
  eq : l = wire t tag b

theorem Exact.length {b : Body t.shape} (h : Exact l t tag b) : l.length = 7 + b.print.length := by
  rw [h.eq, wire]
  simp only [List.length_append, length_p32, length_p8, length_p16]

theorem header_eq (h : l.length = 7) :
    l = p32 (g32 l 0) ++ p8 (g8 l 4) ++ p16 (((g16 l 5).setWidth 16).setWidth 32) := by
  have hf : Fixed (pair word (pair byte half)) 7 fun l => (g32 l 0, g8 l 4, g16 l 5) :=
    Fixed.congr (fixed_word.pair (fixed_byte.pair fixed_half)) fun l => by
      rw [g8_drop, g16_drop, g16_drop]
  have hp : pair word (pair byte half) l = some ((g32 l 0, g8 l 4, g16 l 5), []) := by
    rw [hf.eq, if_neg (by omega), List.drop_of_length_le (by omega)]
  simp only [pair_eq_some, word_eq_some, byte_eq_some, half_eq_some] at hp
  obtain ⟨_, hl, _, rfl, hlt, rfl⟩ := hp
  rw [setWidth_setWidth_of_lt hlt]
  simpa using hl

theorem wire_header {b : Body t.shape} (h : l = (wire t tag b).take 7) :
    g32 l 0 = BitVec.ofNat 32 (7 + b.print.length) ∧ g8 l 4 = t.code ∧
      (g16 l 5).setWidth 16 = tag := by
  obtain rfl : l = p32 (BitVec.ofNat 32 (7 + b.print.length)) ++ (p8 t.code
      ++ (p16 (tag.setWidth 32) ++ [])) := by
    rw [h, wire, List.take_left' (by simp)]
    simp
  refine ⟨g32_p32 _ _, rfl, ?_⟩
  have hlt : (tag.setWidth 32).toNat < 65536 := by
    rw [toNat_setWidth]
    have := tag.isLt
    omega
  have h5 : g16 (p32 (BitVec.ofNat 32 (7 + b.print.length)) ++ (p8 t.code
      ++ (p16 (tag.setWidth 32) ++ []))) 5 = g16 (p16 (tag.setWidth 32) ++ []) 0 := rfl
  rw [h5, g16_p16 hlt, setWidth_setWidth_of_le _ (by decide), setWidth_eq]

section Run

variable {m m' : Mem} {buf n size : Word} {f f' : FcallP}

theorem ahead_body (m : Mem) (hle : buf.toNat + size.toNat < 2 ^ 32) (h7 : 7 ≤ size.toNat) :
    (buf + 7).toNat = buf.toNat + 7 ∧ (buf + size).toNat = buf.toNat + size.toNat ∧
      window m buf size.toNat = window m buf 7 ++ ahead m (buf + 7) (buf + size) :=
  window_eq_append_ahead m h7 hle

/-- What an accepted message has gone through. -/
structure Accepted (m : Mem) (buf n : Word) (f : FcallP) (size : Word) (f' : FcallP) (m' : Mem)
    (t : MType) : Prop where
  size_eq : size = g32 (window m buf 7) 0
  size_ge : 7 ≤ size.toNat
  size_le : size.toNat ≤ n.toNat
  type_eq : g8 (window m buf 7) 4 = t.code
  body : getBody (buf + size) t
    { f with type := t.code, tag := (g16 (window m buf 7) 5).setWidth 16 } (m, buf + 7) =
      some (f', m', buf + size)

theorem convM2S_eq_some (h : convM2S m buf n f = some (size, f', m')) :
    ∃ t, Accepted m buf n f size f' m' t := by
  simp only [convM2S] at h
  split at h
  · cases h
  split at h
  · cases h
  case isFalse hsize =>
    split at h
    · cases h
    case h_2 t ht =>
      split at h
      · cases h
      case h_2 g k p hbody =>
        split at h
        · cases h
        case isFalse hp =>
          cases h
          have htype := ofByte_eq_some.mp ht
          have hend : p = buf + g32 (window m buf 7) 0 := by
            by_contra hne
            exact hp (.inr hne)
          refine ⟨t, rfl, ?_, ?_, htype, ?_⟩
          · exact Nat.le_of_not_lt fun hlt => hsize (.inl hlt)
          · exact Nat.le_of_not_lt fun hlt => hsize (.inr hlt)
          · rw [htype] at hbody
            rw [hbody, hend]

/-- **An accepted message fits exactly**, if its type and size leave no way round the address
space. -/
theorem Accepted.exact (h : Accepted m buf n f size f' m' t) (hn : buf.toNat + n.toNat < 2 ^ 32)
    (hreach : 7 + reach t < size.toNat + 2 ^ 32) :
    ∃ b, Exact (window m buf size.toNat) t f'.tag b ∧ f'.type = t.code ∧
      bodyOf t (f'.read m') = b.cut := by
  have hle := h.size_le
  have hge := h.size_ge
  have hroom : buf.toNat + size.toNat < 2 ^ 32 := by omega
  obtain ⟨hp, he, hw⟩ := ahead_body m hroom hge
  obtain ⟨b, hparse, hbody, htype, htag⟩ := (sim_getBody (buf + size) t _).accepts (p := buf + 7)
    (by omega) (by omega) (by omega) h.body
  obtain ⟨hfits, hprint⟩ := parse_iff.mp hparse
  rw [List.append_nil] at hprint
  have hlen : size.toNat = 7 + b.print.length := by
    have := congrArg List.length hw
    rw [hprint] at this
    simpa using this
  refine ⟨b, ⟨hfits, by have := size.isLt; omega, ?_⟩, htype, hbody⟩
  rw [hw, hprint, header_eq (length_window m buf 7), ← h.size_eq, h.type_eq, wire, htag, ← hlen,
    ofNat_toNat, setWidth_eq]

/-- **Every message is accepted.** -/
theorem convM2S_complete {b : Body t.shape} (hn : buf.toNat + n.toNat < 2 ^ 32)
    (hle : size.toNat ≤ n.toNat) (h : Exact (window m buf size.toNat) t tag b) (f : FcallP) :
    ∃ f' m', convM2S m buf n f = some (size, f', m') ∧ f'.type = t.code ∧ f'.tag = tag ∧
      bodyOf t (f'.read m') = b.cut := by
  have hlen := h.length
  rw [length_window] at hlen
  have hroom : buf.toNat + size.toNat < 2 ^ 32 := by omega
  obtain ⟨hp, he, hw⟩ := ahead_body m hroom (by omega)
  have h7 : window m buf 7 = (wire t tag b).take 7 := by
    rw [← h.eq, take_window (by omega)]
  obtain ⟨hsize, htype, htag⟩ := wire_header h7
  rw [← hlen, ofNat_toNat, setWidth_eq] at hsize
  have hrest : ahead m (buf + 7) (buf + size) = b.print := by
    have heq := hw.symm.trans h.eq
    rw [wire] at heq
    exact List.append_inj_right heq (by simp)
  have hparse : parse t.shape (ahead m (buf + 7) (buf + size)) = some (b, []) := by
    rw [hrest, ← List.append_nil b.print]
    exact parse_iff.mpr ⟨h.fits, rfl⟩
  obtain ⟨f', m', hbody, hread, htype', htag'⟩ := (sim_getBody (buf + size) t
    { f with type := t.code, tag := tag }).complete (p := buf + 7) (by omega) (by omega) hparse
  refine ⟨f', m', ?_, htype', htag', hread⟩
  have h0 : ¬(buf + size = 0 ∨ buf + size ≠ buf + size) := by
    rintro (h0 | hne)
    · have hzero : (0 : Word).toNat = 0 := rfl
      rw [h0] at he
      omega
    · exact hne rfl
  simp only [convM2S, hsize, htype, htag, ofByte_eq_some.mpr rfl, hbody]
  rw [if_neg, if_neg, if_neg h0]
  · rintro (hlt | hlt)
    · have : size.toNat < 7 := hlt
      omega
    · have : n.toNat < size.toNat := hlt
      omega
  · intro hlt
    have : n.toNat < 7 := hlt
    omega

end Run

end Tortoise.P9
